import SymScript.CommandLine
import SymScript.Workload.Programs
import SymScript.Workload.Terms

/-!
# Work on drawings, conversions and the command line
-/

namespace SymScript.Workload

/-! ### Drawings -/

/-- A sum in a product in a sum, and so on down to a letter. -/
def tower : Nat → TermSpec
  | 0 => letter "x"
  | n + 1 => plus [times [whole (n + 1), tower n], raised (letter "x") (whole (n + 2))]

/-- A program of sixty instructions. -/
def straightLine : String :=
  "Main()\x7b " ++ String.join (List.replicate 59 "A=x ") ++ "return A \x7d"

def strokes : Except AlgebraError Drawing → Except SessionError Nat
  | .ok d => .ok d.strokes.length
  | .error e => .error (.algebra e)

/-- One leaf of every kind. -/
def leaves : List Ast := [.nat false "1", .id false "A", .sym false "x", .truth false true]

/-- Draws a program and, twice, a tower; tells the number of strokes and what the tower is. -/
def draw (n : Nat) : Except SessionError (List Finding) := do
  let program ← readProgram straightLine
  let common ← strokes (program.outline.draw [])
  let made := (do
    let r ← make (tower n)
    let d ← TermGraph.Edit.ofExcept ((← get).draw [] r)
    return (d.strokes.length, (← TermGraph.Edit.node r).payload, ← latexOf r) :
      TermGraph.Edit (Nat × String × Finding))
  match (made.run.run {}).1 with
  | .error e => throw (.algebra e)
  | .ok (count, payload, formula) =>
    let single ← leaves.mapM fun t => do return Finding.number (← strokes (t.outline.draw []))
    return [.number (common + 2 * count), .list single, .text payload, formula]

/-! ### Conversions -/

def sources : List String :=
  ["x+y+z+3", "(x+y)^3*(x-1)", "x^2-3*x*y/2", "2*x*y-4", "x^2+y^2+z^2+8"]

def opposite : String := "Main(N)\x7b return -1*N \x7d"

def stopAtFault (cause : Option String) : List Finding :=
  let work := SessionM.stopAtFault "Parser" opposite 1 1 "wrong" cause
  Finding.ofFailure (work.run.run { journal := some { threshold := .info } }).1

/-- Reads a program, stops at faults, and finds the opposites of expressions given as text. -/
def convert (n : Nat) : Except SessionError (List Finding) := do
  let program ← readProgram threeFunctions
  let functions ← load opposite
  let findings ← (List.range n).mapM fun i => do
    let argument ← expression (sources.getD (i % sources.length) "")
    latexOfTerm (← call functions "Main" [argument])
  return .number program.functions.length :: stopAtFault (some "wrong") ++ stopAtFault none ++
    findings ++ Finding.ofFailure (expression "")

/-! ### The command line -/

/-- The sum of `n` monomials with rising powers, as a program. -/
def risingPowers (n : Nat) : String :=
  "Main()\x7b return " ++
    String.intercalate "+" ((List.range n).map fun i =>
      toString (i + 1) ++ (if i = 0 then "" else "*x^" ++ toString i)) ++ " \x7d"

def runLines : List (List String) :=
  [["run", "p.lp"], ["run", "p.lp", "-oc", "raw"], ["run", "p.lp", "-oc", "both"],
    ["run", "p.lp", "-opdf", "none"], ["run", "p.lp", "-opdf", "onlyLatex"],
    ["run", "p.lp", "-opdf", "onlyGraph"], ["run", "p.lp", "-opdf", "onlyRaw", "-ll", "ERROR"]]

def testLines : List (List String) :=
  [["test"], ["test", "-e", "grammar"], ["test", "-e", "interpreter", "-tt", "valid"]]

def name : Command → String
  | .absent => ""
  | .run _ => "run"
  | .compile .. => "compile"
  | .test .. => "test"

def commandName (line : List String) : List Finding :=
  match Command.ofArguments line with
  | .ok c => [.text (name c)]
  | .error _ => []

/-- A session whose outside programs fail. -/
def alone : Session where
  journal := some { threshold := .info }
  outside := { failsToRender := true, failsToRun := true }

/-- A session with a place for documents. -/
def atDesk : Session where
  files := { folders := [["output", "temp"]] }
  journal := some { threshold := .info }

/-- Makes a document, reads command lines and calls outside programs, which fail. -/
def report (n : Nat) : Except SessionError (List Finding) := do
  let functions ← load (risingPowers n)
  let result ← call functions "Main" []
  let formula ← latexOfTerm result
  let powers ← match result.expr with
    | .ok e => pure (e.parts .power).length
    | .error e => throw (.algebra e)
  let rendered := ((Document.drawGraph (result.draw []) "g").run.run alone).1
  let listed := ((Command.runCompiler (.given ["a.g"]) (.standard "")).run.run alone).1
  let compiled ← ((SessionM.compileGrammar Command.standardGrammar "../bin"
    Command.standardTool).run.run alone).1
  let document := ((Document.generateSource result {}).run.run atDesk).2.lastWritten
  return [formula, .number powers] ++ Level.all.map (fun l => Finding.number l.rank) ++
    Finding.ofFailure rendered ++ runLines.flatMap commandName ++ commandName ["compile"] ++
    Finding.ofFailure listed ++ testLines.flatMap commandName ++
    [.truth compiled, .number (Text.lines document).length, formula]

end SymScript.Workload
