import SymScript.Expr.Derive
import SymScript.Expr.Expand
import SymScript.Expr.Substitute

/-!
# The functions that every program can call
-/

namespace SymScript

inductive LibraryFunction where
  | expand
  | substitute
  | eval
  | simplDerive
  | derivePolynomial
deriving DecidableEq, Repr

namespace LibraryFunction

def name : LibraryFunction → String
  | expand => "Expand"
  | substitute => "Substitute"
  | eval => "Eval"
  | simplDerive => "SimplDerive"
  | derivePolynomial => "DerivePolynomial"

def all : List LibraryFunction := [expand, substitute, eval, simplDerive, derivePolynomial]

def ofName? (name : String) : Option LibraryFunction := all.find? (·.name == name)

end LibraryFunction

namespace Expr

/-- The only letter of an expression. -/
def onlySymbol? (e : Expr) : Option Expr :=
  match e.symbols with
  | [x] => some x
  | _ => none

/-- Puts a number for the only letter. -/
def eval (e q : Expr) : Except AlgebraError Expr :=
  match q, e.onlySymbol? with
  | .rational _, some x => .ok (substitute x q e)
  | _, _ => .error .badOperands

/-- Every outermost power has a number as exponent. -/
def hasNumberExponents (e : Expr) : Bool :=
  (e.parts .power).all fun p =>
    match p with
    | .power _ _ x => x.rational?.isSome
    | _ => true

/-- The simplified derivative by a symbol. -/
def simplDerive (e x : Expr) : Except AlgebraError Expr :=
  if x.shape == .symbol && e.hasNumberExponents then do (← e.derive x).simplify
  else .error .badOperands

/-- The derivative of an expression in one letter, expanded before. The expression is expanded once
to look for its letters, and once more as that has left it. -/
def derivePolynomial (e x : Expr) : Except AlgebraError Expr := do
  if x.shape == .symbol then
    let first ← e.expand
    if first.result.onlySymbol? == some x then
      let second ← first.receiver.expand
      second.result.simplDerive x
    else .error .badOperands
  else .error .badOperands

end Expr

end SymScript
