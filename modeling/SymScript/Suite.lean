import SymScript.Session

/-!
# Test suites

A suite lies in a folder with programs that are to succeed and programs that are to fail.
-/

namespace SymScript

inductive Suite where
  /-- Programs are read. -/
  | grammar
  /-- Programs are read and run; a run succeeds if it gives 1. -/
  | interpreter
deriving DecidableEq, Repr

namespace Suite

def title : Suite → String
  | grammar => "GRAMMAR"
  | interpreter => "INTERPRETER"

def folder : Suite → String
  | grammar => ".\\test\\grammar"
  | interpreter => ".\\test\\interpreter"

/-- More steps than a program of a suite takes. -/
def patience : Nat := 1000000000000

/-- Whether a program runs without fault and gives 1. -/
def givesOne (t : Ast) : Bool :=
  match FunctionDef.load t.functions with
  | .error _ => false
  | .ok functions =>
    match Machine.call patience functions "Main" [] with
    | .ok result => result.eq (.tree (.rational (.ofNat 1)))
    | .error _ => false

/-- Tests a program. A program that cannot be read fails in the one suite and stops the other, which
leaves the journal silent. -/
def testFile (s : Suite) (path : String) : SessionM Bool := do
  SessionM.silence true
  let text ← SessionM.ofExcept .file ((← get).files.readText path)
  let outcome ← match s, (Ast.ofText text).result with
    | .grammar, r => pure r.isOk
    | .interpreter, .ok t => pure (givesOne t)
    | .interpreter, .error f => throw (.ast f)
  SessionM.silence false
  return outcome

/-- The outcomes of the programs of a folder, which are to succeed or to fail. -/
def testFolder (s : Suite) (name : String) (expected : Bool) : SessionM (List (String × Bool)) := do
  let paths := (← get).files.filesBelow (s.folder ++ "\\" ++ name)
  paths.mapM fun path => do
    let outcome ← s.testFile path
    return (path, outcome == expected)

def report (s : Suite) (outcomes : List (String × Bool)) : String :=
  let failed := outcomes.filter fun o => !o.2
  let total := toString outcomes.length
  "RESULT OF " ++ s.title ++ " TESTS\nPassed tests: " ++
    toString (outcomes.length - failed.length) ++ "\\" ++ total ++ "\nNot passed tests: " ++
    toString failed.length ++ "\\" ++ total ++ " \n" ++
    String.join (failed.map fun o => "Test " ++ o.1 ++ " failed\n") ++ "\n"

/-- Runs a suite and prints its report. -/
def run (s : Suite) (valid erroneous : Bool) : SessionM Unit := do
  let good ← if valid then s.testFolder "valid" true else pure []
  let bad ← if erroneous then s.testFolder "erroneous" false else pure []
  SessionM.print (s.report (good ++ bad))

end Suite

end SymScript
