import SymScript.AlgebraError
import SymScript.Binary64

/-!
# Signed fractions as they are written

A fraction keeps its numerator, its denominator and its sign apart, and need not be in lowest terms:
`6/2`, `3` and a negated `0` are different fractions. `reduce` gives the one in lowest terms.
Numbers of every size are read and written; a limit on the number of their digits is left out.
-/

namespace SymScript

structure Fraction where
  negated : Bool
  num : Nat
  den : Nat
  den_ne : den ≠ 0 := by decide
deriving DecidableEq, Repr

namespace Fraction

def ofNat (n : Nat) : Fraction := { negated := false, num := n, den := 1 }

instance : Inhabited Fraction := ⟨ofNat 0⟩

/-- The fraction of two integers, with one more change of sign when `flip` holds. The signs of the
integers become the sign of the fraction, also for a zero. -/
def ofInts? (n d : Int) (flip : Bool) : Option Fraction :=
  if h : d = 0 then none
  else some {
    negated := flip != (decide (n < 0) != decide (d < 0))
    num := n.natAbs
    den := d.natAbs
    den_ne := Int.natAbs_ne_zero.2 h }

def ofInt (n : Int) : Fraction := { negated := decide (n < 0), num := n.natAbs, den := 1 }

def isZero (q : Fraction) : Bool := q.num == 0

def isOne (q : Fraction) : Bool := q.num == q.den && !q.negated

def withSign (negated : Bool) (q : Fraction) : Fraction := { q with negated }

/-- The numerator with the sign of the fraction. -/
def signedNum (q : Fraction) : Int := if q.negated then -(q.num : Int) else q.num

/-- The number without its sign. -/
def digits (q : Fraction) : String :=
  if q.den = 1 then toString q.num else toString q.num ++ "/" ++ toString q.den

def name (q : Fraction) : String := (if q.negated then "-" else "") ++ q.digits

/-- Lowest terms; zero is not negated. -/
def reduce (q : Fraction) : Fraction :=
  let g := Nat.gcd q.num q.den
  { negated := q.negated && q.num / g != 0
    num := q.num / g
    den := q.den / g
    den_ne := Nat.ne_of_gt (Nat.div_pos
      (Nat.le_of_dvd (Nat.pos_of_ne_zero q.den_ne) (Nat.gcd_dvd_right _ _))
      (Nat.gcd_pos_of_pos_right _ (Nat.pos_of_ne_zero q.den_ne))) }

protected def mul (a b : Fraction) : Fraction :=
  { negated := a.negated != b.negated
    num := a.num * b.num
    den := a.den * b.den
    den_ne := Nat.mul_ne_zero a.den_ne b.den_ne }

instance : Mul Fraction := ⟨Fraction.mul⟩

/-- The sum over the least common denominator. -/
protected def add (a b : Fraction) : Fraction :=
  let common := Nat.lcm a.den b.den
  let n := a.signedNum * (common / a.den : Nat) + b.signedNum * (common / b.den : Nat)
  { negated := decide (n < 0)
    num := n.natAbs
    den := common
    den_ne := Nat.lcm_ne_zero a.den_ne b.den_ne }

instance : Add Fraction := ⟨Fraction.add⟩

/-- A power of fractions: its value cut to whole numerator and denominator, whether anything was cut
off, and whether the denominator is written although it is one. -/
structure Power where
  value : Fraction
  approximate : Bool
  spelled : Bool

/-- The magnitude of `a` to the power `b`, in double precision. The sign of `a` plays no part; a
negated exponent swaps numerator and denominator. -/
def pow (a b : Fraction) : Except AlgebraError Power :=
  match Binary64.power? a.num b.num b.den, Binary64.power? a.den b.num b.den with
  | some n, some d =>
    let (top, bottom) := if b.negated then (d, n) else (n, d)
    if h : bottom.whole = 0 then .error .zeroDenominator
    else .ok {
      value := { negated := false, num := top.whole, den := bottom.whole, den_ne := h }
      approximate := !(n.exact && d.exact)
      spelled := !(bottom.exact && bottom.whole == 1) }
  | _, _ => .error .overflow

/-- The name of a power's value. -/
def Power.digits (p : Power) : String :=
  if p.spelled then toString p.value.num ++ "/" ++ toString p.value.den else p.value.digits

end Fraction

end SymScript
