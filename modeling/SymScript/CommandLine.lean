import SymScript.Ast.Outline
import SymScript.Command
import SymScript.Document
import SymScript.Suite

/-!
# What the commands do
-/

namespace SymScript

namespace RunOptions

/-- The parts of the document that are asked for, if one is. -/
def document? (o : RunOptions) : Option DocumentOptions :=
  match o.outputPdf with
  | "none" => none
  | "onlyLatex" => some { hasGraph := false, hasRaw := false }
  | "onlyGraph" => some { hasLatex := false, hasRaw := false }
  | "onlyRaw" => some { hasLatex := false, hasGraph := false }
  | _ => some {}

end RunOptions

namespace Command

/-- Reads an argument of the program that is run; a text that is no expression is told. -/
def readArgument (text : String) : SessionM Argument :=
  match Ast.expressionOfText text with
  | .ok t => pure (.node t)
  | .error f => do
    SessionM.print (Ast.conversionNote text f)
    throw (.ast f)

/-- Reads a program and draws it. -/
def readProgram (path : String) : SessionM Ast := do
  SessionM.note .info ("Reading source file " ++ path ++ " and initializing lexer and parser")
  let text ← SessionM.ofExcept .file ((← get).files.readText path)
  SessionM.note .info "Parsing the input"
  let parsed := ParseTree.ofText text true
  parsed.reports.forM fun r => SessionM.note .error r
  match parsed.result with
  | .error stop => throw (.ast (.parse stop))
  | .ok tree =>
    SessionM.note .info "Generating AST"
    let program ← SessionM.ofExcept .ast (Ast.ofParseTree tree)
    let _ ← Document.drawGraph (program.outline.draw []) "astParsedTree"
    return program

/-- Runs a function of a program and records what it complains of. -/
def interpret (program : Ast) (name : String) (arguments : List Argument) : SessionM Term := do
  SessionM.note .info "Interpreting the program"
  match FunctionDef.load program.functions with
  | .error e =>
    e.complaint?.forM fun c => SessionM.note .error c
    throw (.load e)
  | .ok functions =>
    match Machine.call Suite.patience functions name arguments with
    | .error e =>
      e.complaint?.forM fun c => SessionM.note .error c.message
      throw (.run e)
    | .ok t => return t

/-- Prints a result as a formula, as raw text, or as both. -/
def printResult (t : Term) (mode : String) : SessionM Unit := do
  SessionM.note .info ("Printing the result as " ++ mode)
  SessionM.print "Result: "
  if mode != "raw" then SessionM.print ((← SessionM.ofExcept .algebra t.latex) ++ "\n")
  if mode != "latex" then SessionM.print ((← SessionM.ofExcept .algebra t.raw) ++ "\n")

def runProgram (o : RunOptions) : SessionM Unit := do
  SessionM.openJournal (← SessionM.levelOfName o.loggingLevel) Journal.standardFile
  let program ← readProgram o.source
  let arguments ← o.arguments.mapM readArgument
  let result ← interpret program o.mainFunction arguments
  match o.document? with
  | none => pure ()
  | some d =>
    SessionM.note .info "Generating PDF"
    let path ← Document.generate result d
    SessionM.note .info "Showing PDF"
    SessionM.request (.system ("start " ++ path))
  if o.outputConsole != "none" then printResult result o.outputConsole

def runCompiler (grammarFile toolFile : PathOption) : SessionM Unit :=
  match grammarFile, toolFile with
  | .standard g, .standard t => do
    SessionM.note .info ("Compiling grammar using syntax file: " ++ g ++ " and antlr jar: " ++ t)
    let _ ← SessionM.compileGrammar g "../bin" t
  | _, _ => throw .pathList

def runSuites (elements kinds : String) : SessionM Unit := do
  let valid := kinds != "erroneous"
  let erroneous := kinds != "valid"
  SessionM.note .info "Running requested tests"
  if elements != "interpreter" then Suite.grammar.run valid erroneous
  if elements != "grammar" then Suite.interpreter.run valid erroneous
  SessionM.note .info "Tests completed"

def execute : Command → SessionM Unit
  | absent => SessionM.print "Command not recognized\n"
  | run o => runProgram o
  | compile grammarFile toolFile => runCompiler grammarFile toolFile
  | test elements kinds => runSuites elements kinds

end Command

end SymScript
