import SymScript.Expr.Functions
import SymScript.TermGraph.Edit

/-!
# Calls of library functions on terms with identity
-/

namespace SymScript.TermGraph.Edit

def eval (r q : Ref) : Edit Ref := do
  match (← node q).shape, (← expr r).onlySymbol? with
  | .rational, some x => substitute (← add x) q r
  | _, _ => throw .badOperands

def simplDerive (r x : Ref) : Edit Ref := do addResult ((← expr r).simplDerive (← expr x))

def derivePolynomial (r x : Ref) : Edit Ref := do
  if (← node x).shape == .symbol then
    let first ← expand r
    if (← expr first).onlySymbol? == some (← expr x) then
      simplDerive (← expand r) x
    else throw .badOperands
  else throw .badOperands

/-- Calls a library function; an argument that is no expression, or a wrong number of arguments, is
refused. -/
def call (f : LibraryFunction) (arguments : List (Option Ref)) : Edit Ref :=
  match f, arguments with
  | .expand, [some r] => expandAll r
  | .substitute, [some r, some old, some new] => substitute old new r
  | .eval, [some r, some q] => eval r q
  | .simplDerive, [some r, some x] => simplDerive r x
  | .derivePolynomial, [some r, some x] => derivePolynomial r x
  | _, _ => throw .badOperands

end SymScript.TermGraph.Edit
