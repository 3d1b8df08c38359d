import SymScript.Ast.Outline
import SymScript.Workload
import SymScript.Suite

/-!
# Work on programs
-/

namespace SymScript.Workload

/-- Three functions, with one parameter, with two, and with none. -/
def threeFunctions : String :=
  "Fact(N)\x7b if N <= 1 \x7b return 1 \x7d else \x7b return N*Fact(N-1) \x7d \x7d\n" ++
  "Fold(P,Q)\x7b R=0 foreach V in P \x7b R=R+V^Q \x7d return R \x7d\n" ++
  "Main()\x7b A=Fact(4) repeat 2 \x7b A=A+x \x7d while A == 0 \x7b A=1 \x7d return Fold(A,2) \x7d\n"

def readProgram (text : String) : Except SessionError Ast :=
  match (Ast.ofText text).result with
  | .ok t => .ok t
  | .error f => .error (.ast f)

def load (text : String) : Except SessionError (List FunctionDef) := do
  match FunctionDef.load (← readProgram text).functions with
  | .ok functions => return functions
  | .error e => throw (.load e)

def call (functions : List FunctionDef) (name : String) (arguments : List Argument) :
    Except SessionError Term :=
  match Machine.call Suite.patience functions name arguments with
  | .ok t => .ok t
  | .error e => .error (.run e)

def latexOfTerm (t : Term) : Except SessionError Finding :=
  match t.latex with
  | .ok s => .ok (.text s)
  | .error e => .error (.algebra e)

/-- A number as an argument. -/
def numeral (n : Int) : Except SessionError Argument :=
  match Ast.mkNat (some (toString n)) with
  | .ok t => .ok (.node t)
  | .error f => .error (.ast f)

def expression (text : String) : Except SessionError Argument :=
  match Ast.expressionOfText text with
  | .ok t => .ok (.node t)
  | .error f => .error (.ast f)

def captions : Outline → List Finding
  | .node c _ => .text c.payload :: (c.parameters.map Finding.text).toList
  | .term .. => []

/-- The kind of a program, the number of its functions, and what they are. -/
def outlineFindings : Outline → List Finding
  | .node c children => .text c.payload :: .number children.length :: children.flatMap captions
  | .term .. => []

/-- Reads a program over and over. -/
def readMany (n : Nat) : Except SessionError (List Finding) := do
  let findings ← (List.range n).mapM fun _ => do
    return outlineFindings (← readProgram threeFunctions).outline
  return findings.flatten

def repeating : String :=
  "Main(N)\x7b A=5 repeat N \x7b A=A+2 \x7d B=2*x*y+3*x-2/y^2 return A+B+x*(x+y)+x^2 \x7d\n" ++
  "Next(A)\x7b return A+1 \x7d\n"

/-- Runs a program that repeats a step, and a small one. -/
def interpret (n : Int) : Except SessionError (List Finding) := do
  let functions ← load repeating
  let first ← call functions "Main" [← numeral n]
  let second ← call functions "Next" [← expression "x"]
  return [← latexOfTerm first, ← latexOfTerm second]

def looping : String :=
  "Main(N)\x7b I=0 S=0 while I < N \x7b I=I+1 S=S+I \x7d " ++
  "foreach V in x+y+z \x7b S=S+V \x7d " ++
  "if S == 0 \x7b return 0 \x7d else \x7b return (S+S/2+x^2-1)^2 \x7d \x7d\n"

/-- Runs a program with loops and a choice. -/
def loop (n : Int) : Except SessionError Finding := do
  let functions ← load looping
  latexOfTerm (← call functions "Main" [← numeral n])

/-- Programs with a mistake: one that cannot be loaded, some that complain, and some that give a
function of the library what it does not take. -/
def mistaken : List String := [
  "Main()\x7b return 1 \x7d Main()\x7b return 2 \x7d",
  "Main()\x7b return A \x7d",
  "Main()\x7b A=1 \x7d",
  "Main()\x7b return F(x) \x7d",
  "Main()\x7b return G() \x7d G(A)\x7b return A \x7d",
  "Main()\x7b return Expand(x,y) \x7d",
  "Main()\x7b return Substitute(x,y) \x7d",
  "Main()\x7b return Eval(x) \x7d",
  "Main()\x7b return Eval(x+y,1) \x7d",
  "Main()\x7b return SimplDerive(x) \x7d",
  "Main()\x7b return DerivePolynomial(x) \x7d",
  "Main()\x7b return DerivePolynomial(x^y,x) \x7d"]

/-- The order in which failures are told. -/
def rank : SessionError → Nat
  | .load _ => 0
  | .run (.reported ..) => 1
  | _ => 2

def runMistaken (text : String) : Except SessionError Term := do call (← load text) "Main" []

/-- Runs mistaken programs in turn, and one last of all, and tells the failures by rank. -/
def fail (n : Nat) : List Finding :=
  let texts := (List.range n).map fun i => mistaken.getD (i % mistaken.length) ""
  let failures := (texts ++ ["Main()\x7b return Expand() \x7d"]).filterMap fun t =>
    match runMistaken t with
    | .ok _ => none
    | .error e => some e
  (failures.mergeSort fun a b => decide (rank a ≤ rank b)).map .failure

end SymScript.Workload
