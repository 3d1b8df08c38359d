/-!
# Classes of characters as tables of ranges
-/

namespace SymScript.Text

/-- Every `step`-th code point from `first` to `last`. -/
structure CodeRange where
  first : Nat
  last : Nat
  step : Nat
deriving DecidableEq, Repr

namespace CodeRange

def holds (r : CodeRange) (n : Nat) : Bool :=
  r.first ≤ n && n ≤ r.last && (n - r.first) % r.step == 0

/-- The first range that holds a character. -/
def find? (table : Array CodeRange) (c : Char) : Option CodeRange :=
  Array.find? (fun r => holds r c.toNat) table

def mem (table : Array CodeRange) (c : Char) : Bool := (find? table c).isSome

end CodeRange

end SymScript.Text
