import SymScript.Decimal

/-!
# Plain values
-/

namespace SymScript

/-- A value that is no expression. -/
inductive Scalar where
  | text (s : String)
  | int (n : Int)
  | float (x : Float)
  | bool (b : Bool)
  | nothing

namespace Scalar

/-- What the value is called when an operation refuses it. -/
def kind : Scalar → String
  | text _ => "str"
  | int _ => "int"
  | float _ => "float"
  | bool _ => "bool"
  | nothing => "NoneType"

/-- The value as it is shown in a table. -/
def shown : Scalar → String
  | text s => s
  | int n => toString n
  | float x => Decimal.ofFloat x
  | bool true => "True"
  | bool false => "False"
  | nothing => "None"

/-- A truth value counts as the number 0 or 1. -/
def number? : Scalar → Option Int
  | int n => some n
  | bool b => some (if b then 1 else 0)
  | _ => none

protected def beq : Scalar → Scalar → Bool
  | text s, text t => s == t
  | float x, float y => x == y
  | nothing, nothing => true
  | a, b =>
    match a.number?, b.number? with
    | some m, some n => m == n
    | _, _ => false

instance : BEq Scalar := ⟨Scalar.beq⟩

/-- The order of texts and of numbers; other values have none. -/
def lt? : Scalar → Scalar → Option Bool
  | text s, text t => some (s < t)
  | a, b =>
    match a.number?, b.number? with
    | some m, some n => some (m < n)
    | _, _ => none

end Scalar

end SymScript
