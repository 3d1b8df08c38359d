import SymScript.Ast.OfText
import SymScript.FileTree
import SymScript.Journal
import SymScript.Machine

/-!
# Sessions

A session reads and writes files, keeps a journal, prints, and calls outside programs. All of that
is kept in its state, so that it can be told afterwards what a session did.
-/

namespace SymScript

/-- A call of an outside program. -/
inductive Request where
  /-- Makes a picture of a graph that has so many lines. -/
  | render (file format : String) (size : Nat)
  /-- Runs a program on words, without showing what it prints. -/
  | run (words : List String)
  /-- Runs a command and expects it to succeed. -/
  | shell (command : String)
  /-- Opens a file for the reader. -/
  | system (command : String)
  | remove (path : String)
deriving DecidableEq, Repr

/-- How outside programs behave. -/
structure Outside where
  failsToRender : Bool := false
  failsToRun : Bool := false
deriving DecidableEq, Repr

structure Session where
  files : FileTree := {}
  /-- The text that was written to a file last. -/
  lastWritten : String := ""
  journal : Option Journal := none
  printed : String := ""
  requests : List Request := []
  outside : Outside := {}

inductive SessionError where
  | file (e : FileError)
  | renderFailed
  /-- A command, as it is shown, did not succeed. -/
  | commandFailed (command : String)
  | noLevel (name : String)
  /-- A path was given as a list of words. -/
  | pathList
  | noLine
  | refused (message : String)
  | ast (f : AstFault)
  | load (e : LoadError)
  | run (e : RunError)
  | algebra (e : AlgebraError)

namespace SessionError

def message : SessionError → Option String
  | file e => some e.message
  | renderFailed => some "render failed"
  | commandFailed command =>
    some ("Command \x27" ++ command ++ "\x27 returned non-zero exit status 1.")
  | noLevel name => some (Text.quote name)
  | pathList | noLine => none
  | refused m => some m
  | ast f => f.message
  | load e => e.message
  | run e => e.message
  | algebra e => e.message

end SessionError

abbrev SessionM := ExceptT SessionError (StateM Session)

namespace SessionM

def print (text : String) : SessionM Unit := modify fun s => { s with printed := s.printed ++ text }

def request (r : Request) : SessionM Unit :=
  modify fun s => { s with requests := s.requests ++ [r] }

def ofExcept {α ε : Type} (wrap : ε → SessionError) : Except ε α → SessionM α
  | .ok a => pure a
  | .error e => throw (wrap e)

def changeFiles (f : FileTree → Except FileError FileTree) : SessionM Unit := do
  let files ← ofExcept .file (f (← get).files)
  modify fun s => { s with files }

def writeFile (path text : String) : SessionM Unit := do
  changeFiles fun t => t.write path text
  modify fun s => { s with lastWritten := text }

/-- Opens a journal in a file, whose folder is made if need be. -/
def openJournal (threshold : Level) (file : String) : SessionM Unit := do
  let folder := Path.folderText file
  if folder == "" || !(← get).files.holds (Path.ofText folder) then
    changeFiles fun t => t.makeFolder folder
  changeFiles fun t => t.write file ""
  print (Journal.greeting threshold file)
  modify fun s => { s with journal := some { threshold, file := some file } }

/-- Records a message. Where no journal is open, the standard one is opened for everything. -/
def note (level : Level) (message : String) : SessionM Unit := do
  if (← get).journal.isNone then openJournal .debug Journal.standardFile
  modify fun s => { s with journal := s.journal.map fun j => j.note level message }

def silence (isSilent : Bool) : SessionM Unit :=
  modify fun s => { s with journal := s.journal.map fun j => { j with isSilent } }

def levelOfName (name : String) : SessionM Level :=
  match Level.ofName? name with
  | some l => pure l
  | none => throw (.noLevel name)

/-- The line of a text under its number from 1 on; a number below counts back from the last line. -/
def lineAt? (text : String) (number : Int) : Option String :=
  let lines := Text.lines text
  let index := number - 1
  if 0 ≤ index then lines[index.toNat]?
  else if 0 ≤ index + lines.length then lines[(index + lines.length).toNat]?
  else none

/-- Records a fault in a text and stops: with its cause, or with a request to mend a mere
warning. -/
def stopAtFault (source text : String) (line column : Int) (message : String)
    (cause : Option String) : SessionM Unit := do
  match lineAt? text line with
  | none => throw .noLine
  | some shown =>
    let report := faultReport source shown line column message
    match cause with
    | some c => do
      note .error report
      throw (.refused c)
    | none => do
      note .warning report
      throw (.refused "Fix the warning. Not allowed.")

/-- Makes the grammar's parser with an outside tool; says whether that succeeded. -/
def compileGrammar (grammarFile target toolFile : String) : SessionM Bool := do
  let command := "java -jar \"" ++ toolFile ++ "\" -Dlanguage=Python3 -visitor -o " ++
    target ++ " " ++ grammarFile
  note .info "Compiling Luppolo grammar."
  request (.shell command)
  if (← get).outside.failsToRun then
    let cause := ((SessionError.commandFailed command).message).getD ""
    note .error ("Error compiling grammar: " ++ cause)
    return false
  note .info ("Grammar compiled successfully in dir: " ++ target ++ ".")
  return true

/-- Runs an outside program on words. -/
def runProgram (words : List String) : SessionM Unit := do
  request (.run words)
  if (← get).outside.failsToRun then throw (.commandFailed (Text.quoteList words))

/-- Removes a file. -/
def removeFile (path : String) : SessionM Unit := do
  request (.remove path)
  changeFiles fun t => t.remove path

end SessionM

end SymScript
