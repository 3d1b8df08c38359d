/-!
# Double precision readings of exact numbers

A finite double is a natural mantissa times a power of two. Quotients of naturals are rounded to the
nearest double with ties to the even mantissa, and a double is turned back into exact naturals, so
the only operation left to the hardware is the power of two doubles.
-/

namespace SymScript.Binary64

/-- The magnitude `mantissa * 2 ^ exponent`. -/
structure Scaled where
  mantissa : Nat
  exponent : Int
deriving DecidableEq, Repr

namespace Scaled

/-- `num / den` rounded down to a natural, a half going to the even neighbour. -/
def divEven (num den : Nat) : Nat :=
  let q := num / den
  let twice := 2 * (num % den)
  if twice < den then q
  else if den < twice then q + 1
  else q + q % 2

/-- `num / den * 2 ^ (-e)` as a pair of naturals. -/
def shifted (num den : Nat) (e : Int) : Nat × Nat :=
  if 0 ≤ e then (num, den * Nat.pow 2 e.toNat) else (num * Nat.pow 2 (-e).toNat, den)

/-- The double nearest to `num / den`, before any check of its size. -/
def ofQuotient (num den : Nat) : Scaled :=
  let e₀ : Int := (num.log2 : Int) - (den.log2 : Int) - 53
  let (n₀, d₀) := shifted num den e₀
  let e₁ := if Nat.pow 2 53 ≤ n₀ / d₀ then e₀ + 1 else e₀
  let e := max e₁ (-1074)
  let (n, d) := shifted num den e
  { mantissa := divEven n d, exponent := e }

/-- The magnitude is beyond the largest double. -/
def tooLarge (s : Scaled) : Bool :=
  s.mantissa != 0 && 1024 ≤ (s.mantissa.log2 : Int) + s.exponent

/-- The natural part. -/
def floor (s : Scaled) : Nat :=
  if 0 ≤ s.exponent then s.mantissa * Nat.pow 2 s.exponent.toNat
  else s.mantissa / Nat.pow 2 (-s.exponent).toNat

/-- There is nothing after the point. -/
def isWhole (s : Scaled) : Bool :=
  0 ≤ s.exponent || s.mantissa % Nat.pow 2 (-s.exponent).toNat == 0

/-- The magnitude as an exact quotient. -/
def toQuotient (s : Scaled) : Nat × Nat :=
  if 0 ≤ s.exponent then (s.mantissa * Nat.pow 2 s.exponent.toNat, 1)
  else (s.mantissa, Nat.pow 2 (-s.exponent).toNat)

/-- The double of a magnitude that is not too large and has at most 53 bits. -/
def toFloat (s : Scaled) : Float :=
  let bits : Nat :=
    if s.mantissa < Nat.pow 2 52 then s.mantissa
    else (s.exponent + 1074).toNat * Nat.pow 2 52 + s.mantissa
  Float.ofBits (UInt64.ofNat bits)

/-- The magnitude of a finite double. -/
def ofFloat (x : Float) : Scaled :=
  let bits : Nat := x.toBits.toNat
  let field : Nat := bits / Nat.pow 2 52 % Nat.pow 2 11
  let fraction : Nat := bits % Nat.pow 2 52
  if field = 0 then ⟨fraction, -1074⟩ else ⟨fraction + Nat.pow 2 52, (field : Int) - 1075⟩

end Scaled

/-- The double nearest to `num / den`, if it is not too large. -/
def ofQuotient? (num den : Nat) : Option Float :=
  let s := Scaled.ofQuotient num den
  if s.tooLarge then none else some s.toFloat

/-- A power of a natural, as far as a double holds it. -/
structure Power where
  whole : Nat
  exact : Bool
deriving DecidableEq, Repr

/-- `n` to the double nearest to `p / q`. A whole exponent whose power stays below `2 ^ 53` is
exact; any other power is the hardware's. There is none when an operand or the result is too
large. -/
def power? (n p q : Nat) : Option Power := do
  let e ← ofQuotient? p q
  let x ← ofQuotient? n 1
  if p % q = 0 && (n ≤ 1 || p / q < 53) && (n ≤ 1 || Nat.pow n (p / q) < Nat.pow 2 53) then
    let k := p / q
    return ⟨if n ≤ 1 then (if k = 0 then 1 else n) else Nat.pow n k, true⟩
  else
    let r := Float.pow x e
    if r.isInf then none
    else
      let s := Scaled.ofFloat r
      return ⟨s.floor, s.isWhole⟩

end SymScript.Binary64
