import SymScript.Expr.Simplify

/-!
# Derivatives

Sums, products and powers are derived by the usual rules, each followed by a simplification. A
symbol has derivative one by itself, sign included, and zero by any other.
-/

namespace SymScript.Expr

/-- Every way to replace one member by its derivative, which goes to the front. -/
def productRule : List Expr → List Expr → List Expr → List (List Expr)
  | before, e :: es, d :: ds => (d :: (before.reverse ++ es)) :: productRule (e :: before) es ds
  | _, _, _ => []

/-- The exponent, lowered by one, over the base; times the exponent and the inner derivative. -/
def powerDerivative (base : Expr) (q : Fraction) (inner : Expr) : Expr :=
  mkProduct false [.rational q,
    mkPower false base (mkSum false [.rational q, .rational (.ofInt (-1))]), inner]

mutual

/-- The derivative by the symbol `x`. -/
def deriveBy (x : Expr) : Expr → Except AlgebraError Expr
  | .rational _ => .ok (.ofNat 0)
  | .symbol s c => .ok (if Expr.symbol s c == x then .ofNat 1 else .ofNat 0)
  | .sum s es => do
    let ds ← deriveAllBy x es
    simplify (mkSum s ds)
  | .product s es => do
    let ds ← deriveAllBy x es
    simplify (mkSum s ((productRule [] es ds).map (mkProduct false)))
  | .power _ b e =>
    match e with
    | .rational q => do
      let d ← deriveBy x b
      simplify (powerDerivative b q d)
    | _ => .error .freeExponent

def deriveAllBy (x : Expr) : List Expr → Except AlgebraError (List Expr)
  | [] => .ok []
  | e :: es => do
    let d ← deriveBy x e
    let ds ← deriveAllBy x es
    return d :: ds

end

/-- The derivative by an expression, which has to be a symbol. -/
def derive (e x : Expr) : Except AlgebraError Expr :=
  match x.shape with
  | .symbol => deriveBy x e
  | _ => .error .notSymbol

end SymScript.Expr
