import SymScript.Expr

/-!
# Simplification

A node is simplified after its children: numbers are added up, nested sums and products are opened,
like terms and equal bases are collected in the order in which they first appear, and powers of
powers are joined. The outcome is simplified again until it no longer changes.

Each rule is a function of its own and takes the simplifier `simp` that it uses on what it builds.
-/

namespace SymScript.Expr

/-- Joins a value to the entry of its key, or appends an entry. -/
def gather {β : Type} (join : β → β → β) (k : Expr) (v : β) : List (Expr × β) → List (Expr × β)
  | [] => [(k, v)]
  | (k', w) :: rest => if k' == k then (k', join w v) :: rest else (k', w) :: gather join k v rest

/-- The numbers of a non-empty list that holds nothing else. -/
def numbers? : List Expr → Option (Fraction × List Fraction)
  | [] => none
  | e :: es => do
    let q ← e.rational?
    let qs ← es.mapM rational?
    return (q, qs)

/-! ### Sums -/

/-- The factor of an addend and its coefficient. -/
def term (e : Expr) : Expr × Fraction :=
  let unit := (Fraction.ofNat 1).withSign e.negated
  match e.withSign false with
  | .product _ (.rational q :: [f]) => (f, unit * q)
  | .product _ (.rational q :: fs) => (mkProduct false fs, unit * q)
  | f => (f, unit)

/-- The addends of a sum, sorted out: those of nested sums, the total of the numbers, and the
coefficient of every other factor. -/
structure SumParts where
  nested : List Expr := []
  total : Fraction := .ofNat 0
  terms : List (Expr × Fraction) := []

def SumParts.put (p : SumParts) : Expr → SumParts
  | .sum s es => { p with nested := p.nested ++ if s then es.map flip else es }
  | .rational q => { p with total := p.total + q }
  | e => { p with terms := gather (· + ·) e.term.1 e.term.2 p.terms }

def SumParts.ofList (es : List Expr) : SumParts := es.foldl SumParts.put {}

/-- A factor with its coefficient as one addend. -/
def ofTerm (simp : Expr → Except AlgebraError Expr) (t : Expr × Fraction) :
    Except AlgebraError Expr :=
  if t.2.isOne then .ok t.1
  else if t.2.num == t.2.den then .ok t.1.flip
  else simp (mkProduct false [.rational t.2, t.1])

/-- A sum of a list that may be short. -/
def joinSum (negated : Bool) : List Expr → Expr
  | [] => .ofNat 0
  | [e] => e.withSign (negated != e.negated)
  | es => mkSum negated es

def collectSum (simp : Expr → Except AlgebraError Expr) (negated : Bool) (es : List Expr) :
    Except AlgebraError Expr := do
  let p := SumParts.ofList es
  let ts ← p.terms.mapM (ofTerm simp)
  return joinSum negated (p.nested ++ (if p.total.isZero then [] else [.rational p.total]) ++ ts)

/-- Simplifies a sum of simplified addends. -/
def finishSum (simp : Expr → Except AlgebraError Expr) (negated : Bool) (es : List Expr) :
    Except AlgebraError Expr :=
  match numbers? es with
  | some (q, qs) =>
    let r := qs.foldl (· + ·) q
    .ok (.rational (r.withSign (negated != r.negated)).reduce)
  | none => do
    let r ← collectSum simp negated es
    if r == .sum negated es then return r else simp r

/-! ### Products -/

/-- The factors of a product, sorted out: those of nested products, the product of the numbers, and
the exponents of every other base. -/
structure ProductParts where
  nested : List Expr := []
  coefficient : Fraction := .ofNat 1
  bases : List (Expr × List Expr) := []

def ProductParts.put (p : ProductParts) : Expr → ProductParts
  | .product _ es => { p with nested := p.nested ++ es }
  | .rational q => { p with coefficient := p.coefficient * q }
  | .power _ b e => { p with bases := gather (· ++ ·) b [e] p.bases }
  | e => { p with bases := gather (· ++ ·) e [.ofNat 1] p.bases }

def ProductParts.ofList (es : List Expr) : ProductParts := es.foldl ProductParts.put {}

/-- The sum of the exponents of one base. -/
def joinExponents (simp : Expr → Except AlgebraError Expr) : List Expr → Except AlgebraError Expr
  | [e] => .ok e
  | es => simp (mkSum false es)

/-- A base with its exponents as one factor. -/
def ofBase (simp : Expr → Except AlgebraError Expr) (b : Expr × List Expr) :
    Except AlgebraError Expr := do
  match ← joinExponents simp b.2 with
  | .rational q =>
    if q.isZero then return .ofNat 1
    else if q.isOne then return b.1
    else return mkPower false b.1 (.rational q)
  | e => return mkPower false b.1 e

/-- The sign of a product: every negated factor changes it. -/
def productSign (negated : Bool) (es : List Expr) : Bool :=
  es.foldl (fun s e => s != e.negated) negated

/-- A product of a list that may be short. -/
def joinProduct (negated : Bool) : List Expr → Expr
  | [e] => e.withSign negated
  | es => mkProduct negated es

def collectProduct (simp : Expr → Except AlgebraError Expr) (negated : Bool) (es : List Expr) :
    Except AlgebraError Expr := do
  let p := ProductParts.ofList es
  let bs ← p.bases.mapM (ofBase simp)
  let fs := p.nested ++ bs
  if fs.isEmpty then return .rational (p.coefficient.withSign negated)
  else if p.coefficient.isZero then return .ofNat 0
  else if p.coefficient.isOne then return joinProduct negated fs
  else return joinProduct negated (.rational p.coefficient :: fs)

/-- The factors without their signs, which have gone to the product. -/
def unsigned (es : List Expr) : List Expr := es.map (withSign false)

/-- Simplifies a product of simplified factors. -/
def finishProduct (simp : Expr → Except AlgebraError Expr) (negated : Bool) (es : List Expr) :
    Except AlgebraError Expr :=
  match numbers? es with
  | some (q, qs) =>
    let r := qs.foldl (· * ·) q
    .ok (.rational (r.withSign (negated != r.negated)).reduce)
  | none => do
    let r ← collectProduct simp (productSign negated es) (unsigned es)
    if r == .product negated (unsigned es) then return r else simp r

/-! ### Powers -/

/-- One, provided that the power is negated. -/
def signedOne (negated : Bool) : Except AlgebraError Expr :=
  if negated then .ok (.ofNat 1) else .error .zeroDenominator

/-- The rule that applies to a power whose value is not already a number. -/
inductive PowerRule where
  | zeroBase
  | oneBase
  | zeroExponent
  | oneExponent
  | nested (base exponent : Expr)
  | negatedBase
  | none
deriving DecidableEq

def powerRule (b e : Expr) : PowerRule :=
  if (b.rational?.any Fraction.isZero) then .zeroBase
  else if (b.rational?.any Fraction.isOne) then .oneBase
  else if (e.rational?.any Fraction.isZero) then .zeroExponent
  else if (e.rational?.any Fraction.isOne) then .oneExponent
  else match b with
    | .power _ b' e' => .nested b' e'
    | _ => if b.negated then .negatedBase else .none

/-- One application of the rule. -/
def rewritePower (simp : Expr → Except AlgebraError Expr) (negated : Bool) (b e : Expr) :
    Except AlgebraError Expr :=
  match powerRule b e with
  | .zeroBase => .ok (.ofNat 0)
  | .oneBase | .zeroExponent => signedOne negated
  | .oneExponent => .ok (b.withSign (negated != b.negated))
  | .nested b' e' => simp (mkPower negated b' (mkProduct false [e', e]))
  | .negatedBase => .ok (mkPower (!negated) (b.withSign false) e)
  | .none => .ok (mkPower negated b e)

/-- The power as a number, when it is one exactly. -/
def exactPower? (b e : Expr) : Except AlgebraError (Option Fraction) :=
  match b, e with
  | .rational p, .rational q => do
    let r ← p.pow q
    return if r.approximate then none else some r.value
  | _, _ => .ok none

/-- Simplifies a power of a simplified base and exponent. A base that gives its sign away always
counts as a change. -/
def finishPower (simp : Expr → Except AlgebraError Expr) (negated : Bool) (b e : Expr) :
    Except AlgebraError Expr := do
  match ← exactPower? b e with
  | some q => return .rational q
  | none =>
    let r ← rewritePower simp negated b e
    if powerRule b e != .negatedBase && r == .power negated b e then return r else simp r

/-! ### The simplifier -/

/-- Simplification with a bound on the depth of its calls. -/
def simplifyWithin : Nat → Expr → Except AlgebraError Expr
  | 0, _ => .error .endless
  | _ + 1, .rational q => .ok (.rational q.reduce)
  | _ + 1, .symbol s c => .ok (.symbol s c)
  | n + 1, .sum s es => do
    finishSum (simplifyWithin n) s (← es.mapM (simplifyWithin n))
  | n + 1, .product s es => do
    finishProduct (simplifyWithin n) s (← es.mapM (simplifyWithin n))
  | n + 1, .power s b e => do
    let b' ← simplifyWithin n b
    let e' ← simplifyWithin n e
    finishPower (simplifyWithin n) s b' e'

/-- A bound on the depth of the calls that simplifying an expression makes. -/
def simplifyBound (e : Expr) : Nat := (e.size + 8) * (e.size + 8)

def simplify (e : Expr) : Except AlgebraError Expr := simplifyWithin e.simplifyBound e

end SymScript.Expr
