import SymScript.Binary64

/-!
# Decimal text of doubles

A double is written with the fewest digits that read back as the same double, or with a fixed number
of places. Reading a decimal rounds it to the nearest double.
-/

namespace SymScript.Decimal

open Binary64

/-- `digits * 10 ^ exponent`. -/
structure Digits where
  digits : Nat
  exponent : Int
deriving DecidableEq, Repr

/-- `10 ^ e` as a quotient. -/
def tenTo (e : Int) : Nat × Nat :=
  if 0 ≤ e then (Nat.pow 10 e.toNat, 1) else (1, Nat.pow 10 (-e).toNat)

namespace Digits

def toQuotient (d : Digits) : Nat × Nat :=
  let (n, m) := tenTo d.exponent
  (d.digits * n, m)

/-- The decimal reads back as the given magnitude. -/
def readsAs (d : Digits) (s : Scaled) : Bool :=
  let (n, m) := d.toQuotient
  let r := Scaled.ofQuotient n m
  r.toQuotient.1 * s.toQuotient.2 == s.toQuotient.1 * r.toQuotient.2

/-- Drops zeros at the end. -/
def trim : Nat → Digits → Digits
  | 0, d => d
  | fuel + 1, d =>
    if d.digits != 0 && d.digits % 10 == 0 then trim fuel ⟨d.digits / 10, d.exponent + 1⟩ else d

end Digits

/-- The position of the first digit of a positive quotient: `10 ^ k ≤ n / m < 10 ^ (k + 1)`. -/
def leading (n m : Nat) : Int :=
  let guess : Int := ((Nat.toDigits 10 n).length : Int) - ((Nat.toDigits 10 m).length : Int)
  let (p, q) := tenTo guess
  if p * m ≤ n * q then guess else guess - 1

/-- The nearest decimals below and above a quotient with the last digit at `10 ^ e`, nearer
first. -/
def neighbours (n m : Nat) (e : Int) : List Digits :=
  let (p, q) := tenTo e
  let num := n * q
  let den := m * p
  let low := num / den
  let twice := 2 * (num % den)
  if twice < den || (twice == den && low % 2 == 0) then [⟨low, e⟩, ⟨low + 1, e⟩]
  else [⟨low + 1, e⟩, ⟨low, e⟩]

/-- The first decimal that reads back, looking at ever finer grids. -/
def search (s : Scaled) (n m : Nat) : Nat → Int → Option Digits
  | 0, _ => none
  | fuel + 1, e =>
    match (neighbours n m e).find? (·.readsAs s) with
    | some d => some d
    | none => search s n m fuel (e - 1)

/-- The fewest digits that read back as a magnitude; among them the nearest. -/
def shortest (s : Scaled) : Digits :=
  let (n, m) := s.toQuotient
  if n = 0 then ⟨0, 0⟩
  else ((search s n m 18 (leading n m)).getD ⟨n / m, 0⟩).trim 400

def zeros (n : Nat) : String := String.ofList (List.replicate n '0')

/-- Puts a point so that `places` digits follow it. -/
def pointed (digits : Nat) (places : Nat) : String :=
  let text := toString digits
  let text := zeros (places + 1 - text.length) ++ text
  let cut := text.length - places
  let cs := text.toList
  if places = 0 then text
  else String.ofList (cs.take cut) ++ "." ++ String.ofList (cs.drop cut)

/-- Positional from `10 ^ (-4)` up to `10 ^ 16`, with at least one digit after the point; else a
mantissa and a signed exponent of at least two digits. -/
def Digits.text (d : Digits) : String :=
  let ds := toString d.digits
  let point : Int := (ds.length : Int) + d.exponent
  if d.digits = 0 then "0.0"
  else if -4 < point ∧ point ≤ 16 then
    if 0 ≤ d.exponent then ds ++ zeros d.exponent.toNat ++ ".0"
    else pointed d.digits (-d.exponent).toNat
  else
    let e := point - 1
    let head := if ds.length = 1 then ds
      else String.ofList (ds.toList.take 1) ++ "." ++ String.ofList (ds.toList.drop 1)
    let mag := toString e.natAbs
    let mag := if mag.length < 2 then "0" ++ mag else mag
    head ++ "e" ++ (if e < 0 then "-" else "+") ++ mag

def isNegative (x : Float) : Bool := Nat.pow 2 63 ≤ x.toBits.toNat

/-- The text of a double that reads back. -/
def ofFloat (x : Float) : String :=
  if x.isNaN then "nan"
  else
    let sign := if isNegative x then "-" else ""
    if x.isInf then sign ++ "inf" else sign ++ (shortest (Scaled.ofFloat x)).text

/-- A magnitude in units of `10 ^ (-places)`, a half going to the even neighbour. -/
def inUnits (s : Scaled) (places : Nat) : Nat :=
  let (n, m) := s.toQuotient
  Scaled.divEven (n * Nat.pow 10 places) m

/-- A double with a fixed number of places. -/
def fixed (x : Float) (places : Nat) : String :=
  (if isNegative x then "-" else "") ++ pointed (inUnits (Scaled.ofFloat x) places) places

/-- The double nearest to `digits * 10 ^ exponent`; infinite when it is too large. -/
def Digits.toFloat (d : Digits) : Float :=
  let (n, m) := d.toQuotient
  (ofQuotient? n m).getD (1.0 / 0.0)

/-- A double rounded to a number of places. -/
def round (x : Float) (places : Nat) : Float :=
  let y := Digits.toFloat ⟨inUnits (Scaled.ofFloat x) places, -(places : Int)⟩
  if isNegative x then -y else y

/-- A finite double rounded to a number of digits, a half going to the even neighbour. -/
def significant (x : Float) (count : Nat) : Float :=
  let (n, m) := (Scaled.ofFloat x).toQuotient
  if n = 0 then 0.0
  else match neighbours n m (leading n m - (count - 1)) with
    | d :: _ => if isNegative x then -d.toFloat else d.toFloat
    | [] => x

end SymScript.Decimal
