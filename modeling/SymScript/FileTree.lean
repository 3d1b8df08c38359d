import SymScript.Text.Lines
import SymScript.Text.Quoted

/-!
# Files and folders

A tree of files is a list of files and a list of folders, both under their paths. A path is the list
of its steps; a step to the folder itself is left out, and a step back undoes the step before it.
-/

namespace SymScript

abbrev Path := List String

namespace Path

/-- Parts between slashes. -/
def cut : List Char → List Char → List String
  | part, [] => [String.ofList part.reverse]
  | part, '/' :: cs => String.ofList part.reverse :: cut [] cs
  | part, c :: cs => cut (c :: part) cs

/-- Adds a step to the steps so far, which stand in reverse. -/
def walkOn (done : List String) (step : String) : List String :=
  if step == "" || step == "." then done
  else if step == ".." then
    match done with
    | [] => [".."]
    | "/" :: rest => "/" :: rest
    | ".." :: rest => ".." :: ".." :: rest
    | _ :: rest => rest
  else step :: done

def ofText (text : String) : Path :=
  let start := if text.toList.head? = some '/' then ["/"] else []
  ((cut [] text.toList).foldl walkOn start).reverse

/-- The text of a path up to its last slash. -/
def folderText (text : String) : String :=
  let back := text.toList.reverse.dropWhile (· != '/')
  match back.dropWhile (· == '/') with
  | [] => String.ofList back.reverse
  | rest => String.ofList rest.reverse

/-- The last step of a text path. -/
def fileName (text : String) : String :=
  String.ofList (text.toList.reverse.takeWhile (· != '/')).reverse

/-- The folder that holds a path. -/
def above (p : Path) : Path := p.dropLast

/-- Files come before the folders beside them, and both by name. -/
def precedes : Path → Path → Bool
  | [], _ => true
  | _, [] => false
  | [a], [b] => decide (a ≤ b)
  | [_], _ => true
  | _, [_] => false
  | a :: as, b :: bs => if a == b then precedes as bs else decide (a ≤ b)

/-- All folders on the way to a path. -/
def folders (p : Path) : List Path := (List.range p.length).map fun n => p.take n

end Path

/-- Why a file cannot be used, with the path as it was written. -/
inductive FileError where
  | missing (path : String)
  | isFolder (path : String)
  | notFolder (path : String)
deriving DecidableEq, Repr

def FileError.message : FileError → String
  | missing path => "[Errno 2] No such file or directory: " ++ Text.quote path
  | isFolder path => "[Errno 21] Is a directory: " ++ Text.quote path
  | notFolder path => "[Errno 20] Not a directory: " ++ Text.quote path

structure FileTree where
  files : List (Path × String) := []
  folders : List Path := []
deriving DecidableEq, Repr

namespace FileTree

def hasFile (t : FileTree) (p : Path) : Bool := t.files.any fun f => f.1 == p

/-- Folders are those that were made, those on the way to a file, and where everything starts. -/
def hasFolder (t : FileTree) (p : Path) : Bool :=
  p.all (fun step => step == ".." || step == "/") || t.folders.contains p ||
    t.folders.any (fun f => p.isPrefixOf f) || t.files.any fun f => p.isPrefixOf f.1.dropLast

def holds (t : FileTree) (p : Path) : Bool := t.hasFile p || t.hasFolder p

/-- Whether a step on the way to a path is a file. -/
def isBlocked (t : FileTree) (p : Path) : Bool := p.folders.any t.hasFile

def read (t : FileTree) (path : String) : Except FileError String :=
  let p := Path.ofText path
  match t.files.lookup p with
  | some text => .ok text
  | none =>
    if path == "" then .error (.missing path)
    else if t.isBlocked p then .error (.notFolder path)
    else if t.hasFolder p then .error (.isFolder path)
    else .error (.missing path)

/-- Reads a text, in which every line end becomes a line feed. -/
def readText (t : FileTree) (path : String) : Except FileError String := do
  return String.ofList (Text.unifyEnds (← t.read path).toList)

def write (t : FileTree) (path text : String) : Except FileError FileTree :=
  let p := Path.ofText path
  if path == "" then .error (.missing path)
  else if t.isBlocked p then .error (.notFolder path)
  else if t.hasFolder p then .error (.isFolder path)
  else if t.hasFolder p.above then
    .ok { t with files := t.files.filter (fun f => f.1 != p) ++ [(p, text)] }
  else .error (.missing path)

def remove (t : FileTree) (path : String) : Except FileError FileTree :=
  let p := Path.ofText path
  if t.hasFile p then .ok { t with files := t.files.filter fun f => f.1 != p }
  else if t.isBlocked p then .error (.notFolder path)
  else if t.hasFolder p then .error (.isFolder path)
  else .error (.missing path)

/-- Makes a folder and those that it lies in. -/
def makeFolder (t : FileTree) (path : String) : Except FileError FileTree :=
  let p := Path.ofText path
  if path == "" then .error (.missing path)
  else if t.isBlocked p then .error (.notFolder path)
  else .ok { t with folders := t.folders ++ [p] }

/-- The files below a folder: those of each folder before those of the folders in it, each by
name. -/
def filesBelow (t : FileTree) (folder : String) : List String :=
  let root := Path.ofText folder
  let inside := t.files.filterMap fun f =>
    if root.isPrefixOf f.1 && root.length < f.1.length then some (f.1.drop root.length) else none
  (inside.mergeSort Path.precedes).map fun p => String.intercalate "/" (folder :: p)

end FileTree

end SymScript
