import SymScript.Expr

/-!
# Expansion

One step of expansion works on the children first, then distributes a product over sums, writes a
whole power as a product, or moves the sign of a sum to its addends. The step also changes its
receiver, whose children are replaced by what they expand to; `Expr.expandAll` repeats the step
until the result is the same as the changed receiver.
-/

namespace SymScript.Expr

/-- What a step gives, and what its receiver has become. -/
structure Expansion where
  result : Expr
  receiver : Expr
deriving DecidableEq

/-- The addends of a sum; any other expression is its only addend. The sign of the sum is
dropped. -/
def addends : Expr → List Expr
  | .sum _ es => es
  | e => [e]

/-- A sum of a list with at least one element. -/
def sumOrOnly : List Expr → Expr
  | [e] => e
  | es => mkSum false es

/-- The product of two expressions, distributed over their addends. -/
def distribute (a b : Expr) : Expr :=
  sumOrOnly (a.addends.flatMap fun x => b.addends.map fun y => mkProduct false [x, y])

def distributeAll : List Expr → Expr
  | [] => .ofNat 1
  | e :: es => es.foldl distribute e

/-- The factors of a whole power. -/
def unfold (base : Expr) (n : Nat) : Except AlgebraError Expr :=
  if n = 1 then .ok base else product? false (List.replicate n base)

/-- A power with a number as exponent, whose base has been expanded. -/
def expandPower (negated : Bool) (base : Expr) (q : Fraction) : Except AlgebraError Expr := do
  let b ← unfold base q.num
  let root : Fraction := { q with num := 1 }
  if root.isOne then return b.withSign negated else return mkPower negated b (.rational root)

/-- A sum whose addends have been expanded; `again` are the expansions of those. -/
def expandNegatedSum (es : List Expr) (again : List Expansion) : Expr :=
  mkSum false (List.zipWith (fun e x => x.result.withSign (!e.negated)) es again)

def expandProduct (negated : Bool) (es : List Expr) : Expr :=
  let r := distributeAll es
  r.withSign (r.negated != negated)

/-- One step, with a bound on the depth of its calls. -/
def expandWithin : Nat → Expr → Except AlgebraError Expansion
  | 0, _ => .error .endless
  | _ + 1, .rational q => .ok ⟨.rational q, .rational q⟩
  | _ + 1, .symbol s c => .ok ⟨.symbol s c, .symbol s c⟩
  | n + 1, .sum s es => do
    let cs := (← es.mapM (expandWithin n)).map Expansion.result
    if s then
      let again ← cs.mapM (expandWithin n)
      return ⟨expandNegatedSum cs again, .sum s (again.map Expansion.receiver)⟩
    else return ⟨mkSum false cs, .sum s cs⟩
  | n + 1, .product s es => do
    let cs := (← es.mapM (expandWithin n)).map Expansion.result
    return ⟨expandProduct s cs, .product s cs⟩
  | n + 1, .power s b (.rational q) => do
    let x ← expandWithin n b
    return ⟨← expandPower s x.result q, .power s x.receiver (.rational q)⟩
  | n + 1, .power s b e => do
    let x ← expandWithin n b
    let y ← expandWithin n e
    return ⟨mkPower s x.result y.result, .power s x.receiver y.receiver⟩

mutual

/-- The largest numerator among the numbers of an expression, and at least one. -/
def largestNum : Expr → Nat
  | .rational q => max 1 q.num
  | .symbol .. => 1
  | .sum _ es | .product _ es => largestNumAll es
  | .power _ b e => max (largestNum b) (largestNum e)

def largestNumAll : List Expr → Nat
  | [] => 1
  | e :: es => max (largestNum e) (largestNumAll es)

end

mutual

/-- A bound on the depth that an expression can come to, however often it is expanded. The depths of
factors add up, since their sums end up inside each other. An exponent may become a number only
later, but none that is not written in it. -/
def reach : Expr → Nat
  | .rational _ | .symbol .. => 1
  | .sum _ es => reachMax es + 1
  | .product _ es => reachSum es + (es.length - 2) + 1
  | .power _ b e => e.largestNum * (reach b + 1) + reach e + 1

def reachMax : List Expr → Nat
  | [] => 0
  | e :: es => max (reach e) (reachMax es)

def reachSum : List Expr → Nat
  | [] => 0
  | e :: es => reach e + reachSum es

end

def expand (e : Expr) : Except AlgebraError Expansion := expandWithin e.reach e

/-- Repeats the step, at most the given number of times. -/
def expandSteps : Nat → Expr → Except AlgebraError Expr
  | 0, _ => .error .endless
  | n + 1, e => do
    let x ← e.expand
    if x.receiver == x.result then return x.receiver else expandSteps n x.result

/-- Every node takes few steps to settle. -/
def expandAll (e : Expr) : Except AlgebraError Expr := expandSteps (4 * e.size) e

end SymScript.Expr
