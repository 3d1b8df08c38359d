import SymScript.Expr

/-!
# Formulas in LaTeX

A `Formula` is an expression ready to be written: it knows which sums stand in parentheses, and its
exponents have lost their signs, which turn a power into a fraction. `Formula.render` writes it.
-/

namespace SymScript

inductive Formula where
  | number (negated : Bool) (num den : Nat)
  | letter (negated : Bool) (letter : Char)
  | sum (negated grouped : Bool) (addends : List Formula)
  | product (negated : Bool) (factors : List Formula)
  | power (negated inverse : Bool) (base exponent : Formula)
deriving Repr

namespace Formula

def negated : Formula → Bool
  | number s _ _ | letter s _ | sum s _ _ | product s _ | power s _ _ _ => s

/-- The factor belongs below the line of a fraction. -/
def inBottom : Formula → Bool
  | power _ inverse _ _ => inverse
  | _ => false

def braced (text : String) : String := "\x7b" ++ text ++ "\x7d"

def fraction (top bottom : String) : String := "\\frac" ++ braced top ++ braced bottom

def minus (negated : Bool) : String := if negated then "-" else ""

def times (factors : List String) : String := String.intercalate "\\cdot " factors

/-- A base with its exponent: a root for the exponent `1/n`, the base alone for the exponent one. -/
def raised (base exponentText : String) : Formula → String
  | .number _ 1 1 => base
  | .number _ 1 2 => "\\sqrt" ++ braced base
  | .number _ 1 n => "\\sqrt[" ++ toString n ++ "]" ++ braced base
  | _ => base ++ "^" ++ braced exponentText

/-- Addends with a plus before each that has no minus. -/
def joinAddends : List (Bool × String) → String
  | [] => ""
  | (_, first) :: rest =>
    rest.foldl (fun text a => text ++ (if a.1 then "" else "+") ++ a.2) first

/-- Factors with those that belong below the line in a fraction. -/
def joinFactors (factors : List (Bool × String)) : String :=
  let top := times ((factors.filter fun f => !f.1).map Prod.snd)
  match (factors.filter Prod.fst).map Prod.snd with
  | [] => top
  | bottom => fraction top (times bottom)

mutual

/-- The text of a formula; below a line (`inLine`) a power does not become a fraction again. -/
def render (inLine : Bool) : Formula → String
  | number s n d => minus s ++ if d = 1 then toString n else fraction (toString n) (toString d)
  | letter s c => minus s ++ c.toString
  | sum s grouped fs =>
    let core := joinAddends (renderAddends fs)
    minus s ++ if s || grouped then "\\left(" ++ core ++ "\\right)" else core
  | product s fs => minus s ++ joinFactors (renderFactors fs)
  | power s inverse b e =>
    let text := raised (render false b) (render false e) e
    minus s ++ if inverse && !inLine then fraction "1" text else text

def renderAddends : List Formula → List (Bool × String)
  | [] => []
  | f :: fs => (f.negated, render false f) :: renderAddends fs

def renderFactors : List Formula → List (Bool × String)
  | [] => []
  | f :: fs => (f.inBottom, render f.inBottom f) :: renderFactors fs

end

end Formula

namespace Expr

mutual

/-- The expression with all its exponents in order. -/
def orderExponents : Expr → Expr
  | .rational q => .rational q
  | .symbol s c => .symbol s c
  | .sum s es => .sum s (orderExponentsAll es)
  | .product s es => .product s (orderExponentsAll es)
  | .power s b e => .power s (orderExponents b) (copy e)

def orderExponentsAll : List Expr → List Expr
  | [] => []
  | e :: es => orderExponents e :: orderExponentsAll es

end

/-- A sum in a product or a power stands in parentheses. -/
def groups : Option Shape → Bool
  | some .product | some .power => true
  | _ => false

mutual

/-- The formula of an expression below a parent; `bare` drops the sign. -/
def formulaIn (parent : Option Shape) (bare : Bool) : Expr → Formula
  | .rational q => .number (q.negated && !bare) q.num q.den
  | .symbol s c => .letter (s && !bare) c
  | .sum s es => .sum (s && !bare) (groups parent) (formulasIn .sum es)
  | .product s es => .product (s && !bare) (formulasIn .product es)
  | .power s b e =>
    .power (s && !bare) e.negated (formulaIn (some .power) false b) (formulaIn none true e)

def formulasIn (parent : Shape) : List Expr → List Formula
  | [] => []
  | e :: es => formulaIn (some parent) false e :: formulasIn parent es

end

def formula (e : Expr) : Formula := formulaIn none false e.orderExponents

def latex (e : Expr) : String := e.formula.render false

end Expr

end SymScript
