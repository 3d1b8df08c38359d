import SymScript.Ast
import SymScript.Text.Quoted

/-!
# Frames

A frame is one activation of a function: its variables, the work that is left, and the values that
have been computed. Errors that the language knows are reported with the memory of their frame.
-/

namespace SymScript

/-- What evaluation computes. -/
inductive Value where
  | term (t : Term)
  | truth (b : Bool)

namespace Value

/-- Every term counts as true. -/
def isTrue : Value → Bool
  | term _ => true
  | truth b => b

/-- A term differs from every truth value. -/
def differsFrom (v : Value) (b : Bool) : Bool :=
  match v with
  | term _ => true
  | truth a => a != b

/-- The place of a shape among the kinds of objects. -/
def family : Shape → String
  | .rational | .symbol => "src.expression.leaf."
  | _ => "src.expression.nodes."

/-- How a value is shown in the memory of a frame. -/
def shown : Value → String
  | term t => "<" ++ family t.shape ++ t.shape.word ++ " object>"
  | truth true => "True"
  | truth false => "False"

end Value

/-- The variables in the order of their first assignment. -/
abbrev Memory := List (String × Value)

namespace Memory

def find? (m : Memory) (name : String) : Option Value := List.lookup name m

def holds (m : Memory) (name : String) : Bool := (m.find? name).isSome

/-- An old variable keeps its place. -/
def set (m : Memory) (name : String) (v : Value) : Memory :=
  match m with
  | [] => [(name, v)]
  | (n, w) :: rest => if n == name then (n, v) :: rest else (n, w) :: set rest name v

def erase (m : Memory) (name : String) : Memory := List.filter (fun b => b.1 != name) m

def shown (m : Memory) : String :=
  "\x7b" ++ String.intercalate ", " (List.map (fun b => Text.quote b.1 ++ ": " ++ b.2.shown) m) ++
    "\x7d"

end Memory

/-- What is left to do in a frame. -/
inductive Work where
  /-- A node that has not been looked at. -/
  | visit (t : Ast)
  /-- A node whose parts have been evaluated. -/
  | resume (t : Ast)
  | bind (name : String) (t : Term)
  /-- Removes the variable of the loop that was entered last. -/
  | forget

structure Frame where
  /-- The function that is named if the frame ends without a result: the one called last. -/
  function : String
  memory : Memory := []
  /-- The next piece of work comes first. -/
  work : List Work := []
  /-- The value computed last comes first. -/
  values : List Value := []
  /-- The variable of the loop that was entered last and found it unbound. -/
  loopName : Option String := none
  /-- The outcome of the last test, before its negation. -/
  verdict : Option Value := none

/-- The errors that the language reports. -/
inductive Complaint where
  | notFound (function : String)
  | noOverload (function : String) (count : Nat) (alternatives : List (List String))
  | sameParameters (function : String)
  | notExpressions (function : String)
  | badRepeat
  | unbound (variableName : String)
  | noReturn (function : String)
  | unknownNode (kind : String)
deriving DecidableEq, Repr

def Complaint.message : Complaint → String
  | notFound f => "Function " ++ f ++ " not found."
  | noOverload f n alternatives =>
    "Function " ++ f ++ " with " ++ toString n ++
      " parameters not found.\nPossible alternatives are:" ++
      String.join (alternatives.map fun ps => "\n" ++ f ++ "(" ++ Text.quoteList ps ++ ")")
  | sameParameters f =>
    "Function " ++ f ++ " has multiple parameters with the same name. Ambiguity is not allowed."
  | notExpressions f => "Function " ++ f ++ " must be called with AST expressions as parameters."
  | badRepeat => "Repeat expression must be a positive integer number."
  | unbound x => "Variable " ++ x ++ " not found."
  | noReturn f => "Function " ++ f ++ " has no return statement."
  | unknownNode kind => "Node " ++ kind ++ " not recognized to be interpretated."

/-- Why a program stopped without a result. -/
inductive RunError where
  /-- A reported error, with the memory and the values of its frame. -/
  | reported (complaint : Complaint) (memory : Memory) (values : List Value)
  | algebra (e : AlgebraError)
  /-- A value was wanted and none was there. -/
  | noValue
  /-- A variable to remove is not there. -/
  | noBinding (name : String)
  /-- A truth value in the place of a term. -/
  | notTerm
  /-- A truth value in the place of a node. -/
  | notNode
  /-- A truth value compared with a term. -/
  | badComparison
  /-- A test with an unknown operator before any other test. -/
  | noVerdict
  /-- Digits that spell no number. -/
  | badDigits
  | endless

namespace RunError

def message : RunError → Option String
  | reported _ m vs =>
    some ("An error occurred during the interpretation of the program. " ++
      "Read logs for more info.\n" ++ "Function memory at the time of the error:\n" ++
      "ID_MEM: " ++ m.shown ++ "\nINSTR_STACK: []\nVALUE_STACK: [" ++
      String.intercalate ", " (vs.reverse.map Value.shown) ++ "]\n")
  | algebra e => e.message
  | noBinding name => some (Text.quote name)
  | notNode => some "Children must be of type GenericTreeNode"
  | _ => none

/-- What is written to the log. -/
def complaint? : RunError → Option Complaint
  | reported c _ _ => some c
  | _ => none

end RunError

namespace Frame

def complain {α : Type} (f : Frame) (c : Complaint) : Except RunError α :=
  .error (.reported c f.memory f.values)

def push (f : Frame) (v : Value) : Frame := { f with values := v :: f.values }

def pushTerm (f : Frame) (e : Expr) : Frame := f.push (.term (.tree e))

def todo (f : Frame) (ws : List Work) : Frame := { f with work := ws ++ f.work }

/-- Takes the value computed last. -/
def pop (f : Frame) : Except RunError (Value × Frame) :=
  match f.values with
  | [] => .error .noValue
  | v :: vs => .ok (v, { f with values := vs })

/-- Takes a number of values, the last one first. -/
def popMany (f : Frame) : Nat → Except RunError (List Value × Frame)
  | 0 => .ok ([], f)
  | n + 1 => do
    let (v, f) ← f.pop
    let (vs, f) ← f.popMany n
    return (v :: vs, f)

end Frame

end SymScript
