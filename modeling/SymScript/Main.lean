import SymScript.CommandLine

/-!
# The program

Reads the files that a command needs, executes it, and writes what it left. Outside programs are not
started from here: their calls are told on the error output.
-/

namespace SymScript.Main

/-- Adds a file to a tree, if it is there. -/
def addFile (t : FileTree) (path : String) : IO FileTree := do
  try
    let text ← IO.FS.readFile path
    return { t with files := t.files ++ [(Path.ofText path, text)] }
  catch _ => return t

/-- The files of a folder and of the folders in it. -/
partial def paths (folder : String) : IO (List String) := do
  try
    let entries ← ((← IO.currentDir) / folder).readDir
    let below ← entries.toList.mapM fun entry => do
      let path := folder ++ "/" ++ entry.fileName
      if ← entry.path.isDir then paths path else return [path]
    return below.flatten
  catch _ => return []

/-- The files that a command reads. -/
def neededPaths : Command → IO (List String)
  | .run o => return [o.source]
  | .test .. => do
    let found ← [Suite.grammar, .interpreter].mapM fun s => do
      return (← paths (s.folder ++ "\\valid")) ++ (← paths (s.folder ++ "\\erroneous"))
    return found.flatten
  | _ => return []

def requestText : Request → String
  | .render file format _ => "draw " ++ file ++ " as " ++ format
  | .run words => String.intercalate " " words
  | .shell command | .system command => command
  | .remove path => "remove " ++ path

/-- Writes the journal to its file and to the error output. -/
def writeJournal (j : Journal) : IO Unit := do
  IO.eprint j.text
  match j.file with
  | none => return
  | some file =>
    IO.FS.createDirAll (Path.folderText file)
    IO.FS.writeFile file j.text

def execute (c : Command) : IO UInt32 := do
  let files ← (← neededPaths c).foldlM addFile { folders := [["output", "temp"]] }
  let (result, s) := c.execute.run.run { files }
  IO.print s.printed
  s.journal.forM writeJournal
  s.requests.forM fun r => IO.eprintln (requestText r)
  match result with
  | .ok _ => return 0
  | .error e =>
    IO.eprintln (e.message.getD "The command failed.")
    return 1

end SymScript.Main

open SymScript in
def main (arguments : List String) : IO UInt32 := do
  match Command.ofArguments arguments with
  | .ok c => SymScript.Main.execute c
  | .error e =>
    IO.eprintln ("error: " ++ e.message)
    return UInt32.ofNat e.exitCode
