import SymScript.TermSpec
import SymScript.Workload

/-!
# Work on terms

Terms are made from descriptions, and simplified and expanded in place.
-/

namespace SymScript.Workload

open TermGraph

def whole (n : Int) : TermSpec := .rational n 1 false

def ratio (n d : Int) : TermSpec := .rational n d false

def letter (s : String) : TermSpec := .symbol (some s) false

def minusLetter (s : String) : TermSpec := .symbol (some s) true

def plus (es : List TermSpec) : TermSpec := .sum es false

def times (es : List TermSpec) : TermSpec := .product es false

def raised (b e : TermSpec) : TermSpec := .power b e false

def make (s : TermSpec) : Edit Ref := do
  match ← Edit.build [] s with
  | .term r => return r
  | _ => throw .noOperation

def latexOf (r : Ref) : Edit Finding := do return .text (← Edit.ofExcept ((← get).latex r))

/-- The simplified term, and the term expanded afterwards where it can be. -/
def twoForms (s : TermSpec) : Edit (List Finding) := do
  let r ← make s
  let simplified ← latexOf (← Edit.simplify r)
  let expanded ← tryCatch (do return [← latexOf (← Edit.expand r)]) fun _ => pure []
  return simplified :: expanded

/-- A number and a monomial for every position below `n`, in a negated sum. -/
def bigSum (n : Nat) : TermSpec :=
  let addends := (List.range n).flatMap fun (i : Nat) =>
    [TermSpec.rational i (i % 7 + 1) (i % 2 == 1),
      times [ratio (i + 1) (i % 3 + 1), raised (letter "x") (whole (i % 5 + 1)),
        raised (letter "y") (whole (i % 4 + 1))]]
  .sum addends true

/-- Terms that reach the rules of simplification. -/
def smallTerms : List TermSpec :=
  let x := letter "x"
  let y := letter "y"
  [times [raised x (whole 3), .power x (whole 4) true, y, plus [x, whole 1], plus [x, ratio 1 2]],
    times [whole 3, raised (plus [x, y]) (whole (-1))],
    times [whole 0, x],
    times [whole 2, whole 3],
    times [whole (-1), x, y],
    .power (whole 1) x true,
    raised (whole 0) x,
    .power x (whole 0) true,
    raised x (whole 1),
    raised (minusLetter "z") (whole 3),
    times [raised x (whole 5), raised x y, x, x],
    times [x, raised x (whole (-1))],
    plus [whole 1, .sum [x, y] true],
    plus [x, minusLetter "x"],
    .sum [x, y] true]

/-- Simplifies and expands a big sum and many small terms. -/
def simplify (n : Nat) : Edit (List Finding) := do
  let findings ← (bigSum n :: smallTerms).mapM twoForms
  return findings.flatten

/-- The product of `n` binomials. -/
def binomials (n : Nat) : TermSpec :=
  times ((List.range n).map fun (i : Nat) => plus [letter "x", whole (i + 1)])

/-- Powers and quotients as formulas, some of them expanded. -/
def formulas : Edit Finding := do
  let x := letter "x"
  let y := letter "y"
  let next := plus [x, whole 1]
  let expanded ← [raised next (whole 3), raised next (whole (-2)), raised x next].mapM fun s => do
    latexOf (← Edit.expand (← make s))
  let plain ← [raised x (ratio 1 2), raised x (ratio 1 3), raised x (whole (-1)),
      .power x (whole (-1)) true,
      times [whole 2, raised x (whole (-1)), raised y (whole (-2))]].mapM fun s => do
    latexOf (← make s)
  return .list (expanded ++ plain)

def substituted (s old new : TermSpec) : Edit Finding := do
  let r ← make s
  latexOf (← Edit.substitute (← make old) (← make new) r)

def derived (s : TermSpec) : Edit Finding := do
  let r ← make s
  latexOf (← Edit.derive r (← make (letter "x")))

/-- Expands a product of binomials, derives it, and does the same to small terms. -/
def expand (n : Nat) : Edit (List Finding) := do
  let x := letter "x"
  let product ← make (binomials n)
  let expanded ← Edit.expand product
  let shown ← latexOf expanded
  let derivative ← latexOf (← Edit.derive (← Edit.simplify expanded) (← make x))
  let cubic ← derived (plus [raised x (whole 3), x])
  let inNumber ← substituted (plus [x, whole 1]) x (whole 5)
  let inLetter ← substituted (plus [x, letter "y"]) (letter "y") (whole 7)
  let eight ← formulas
  let one ← derived x
  let quarter ← latexOf (← Edit.simplify (← make (raised (whole 2) (whole (-2)))))
  return [shown, derivative, cubic, inNumber, inLetter, eight, one, quarter]

/-- The findings of work that starts on an empty graph. -/
def onTerms (work : Edit (List Finding)) : Except SessionError (List Finding) :=
  match (work.run.run {}).1 with
  | .ok rs => .ok rs
  | .error e => .error (.algebra e)

end SymScript.Workload
