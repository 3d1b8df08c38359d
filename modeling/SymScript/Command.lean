import SymScript.Arguments

/-!
# The commands of the program
-/

namespace SymScript

structure RunOptions where
  source : String
  arguments : List String
  mainFunction : String := "Main"
  outputPdf : String := "fullPdf"
  outputConsole : String := "latex"
  loggingLevel : String := "INFO"
deriving DecidableEq, Repr

/-- A path that has a standard value and takes a list of words when it is given. -/
inductive PathOption where
  | standard (path : String)
  | given (paths : List String)
deriving DecidableEq, Repr

inductive Command where
  | absent
  | run (options : RunOptions)
  | compile (grammarFile toolFile : PathOption)
  | test (elements kinds : String)
deriving DecidableEq, Repr

namespace Command

def words (ws : List String) : Option (List Choice) := some (ws.map .word)

def standardGrammar : String := "src\\grammar\\syntax\\luppolo.g"

def standardTool : String := "%ANTLR4_JAR%"

def topSpec : ArgumentSpec where
  options := []
  positionals := [
    { key := "command", arity := .rest, isRequired := false,
      choices := words ["run", "compile", "test"] }]

def runSpec : ArgumentSpec where
  options := [
    { names := ["--main-function", "-mf"], key := "main_function" },
    { names := ["--output-pdf", "-opdf"], key := "output_pdf",
      choices := words ["fullPdf", "onlyLatex", "onlyGraph", "onlyRaw", "none"] },
    { names := ["--show-pdf"], key := "show_pdf", choices := some [.truth true, .truth false] },
    { names := ["--output-console", "-oc"], key := "output_console",
      choices := words ["latex", "raw", "both", "none"] },
    { names := ["--logging-level", "-ll"], key := "logging_level",
      choices := words ["DEBUG", "INFO", "WARNING", "ERROR", "CRITICAL"] }]
  positionals := [
    { key := "source_file_path", arity := .one, isRequired := true },
    { key := "args", arity := .many, isRequired := true }]

def compileSpec : ArgumentSpec where
  options := [
    { names := ["--syntax-file-path", "-sfp"], key := "syntax_file_path", arity := .many },
    { names := ["--antlr-jar-path", "-ajp"], key := "antlr_jar_path", arity := .many }]
  positionals := []

def testSpec : ArgumentSpec where
  options := [
    { names := ["--elements", "-e"], key := "elements",
      choices := words ["all", "grammar", "interpreter"] },
    { names := ["--type-test", "-tt"], key := "type_test",
      choices := words ["all", "valid", "erroneous"] }]
  positionals := []

def textOf (t : ArgumentSpec.Taken) (key standard : String) : String :=
  match t.values.lookup key with
  | some (.text s) => s
  | _ => standard

def listOf (t : ArgumentSpec.Taken) (key : String) : List String :=
  match t.values.lookup key with
  | some (.list ss) => ss
  | _ => []

def pathOf (t : ArgumentSpec.Taken) (key standard : String) : PathOption :=
  match t.values.lookup key with
  | some (.list ss) => .given ss
  | _ => .standard standard

/-- The command of a name with its own words, and the words left over. -/
def ofWords (name : String) (ws : List String) : Except UsageError (Command × List String) :=
  match name with
  | "run" => do
    let t ← runSpec.parse ws
    return (.run {
      source := textOf t "source_file_path" ""
      arguments := listOf t "args"
      mainFunction := textOf t "main_function" "Main"
      outputPdf := textOf t "output_pdf" "fullPdf"
      outputConsole := textOf t "output_console" "latex"
      loggingLevel := textOf t "logging_level" "INFO" }, t.extras)
  | "compile" => do
    let t ← compileSpec.parse ws
    return (.compile (pathOf t "syntax_file_path" standardGrammar)
      (pathOf t "antlr_jar_path" standardTool), t.extras)
  | _ => do
    let t ← testSpec.parse ws
    return (.test (textOf t "elements" "all") (textOf t "type_test" "all"), t.extras)

/-- The command of a command line. -/
def ofArguments (ws : List String) : Except UsageError Command := do
  let top ← topSpec.parse ws
  let (command, extras) ← match listOf top "command" with
    | [] => pure (.absent, [])
    | name :: rest => ofWords name rest
  match top.extras ++ extras with
  | [] => return command
  | left => .error (.unrecognized left)

end Command

end SymScript
