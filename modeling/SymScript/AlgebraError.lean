/-!
# What can go wrong with an expression

Each cause has at most one fixed text; a cause without a text is told by its kind alone.
-/

namespace SymScript

/-- The operations on numbers that refuse anything but numbers. -/
inductive NumberOp where
  | addition
  | multiplication
  | power
deriving DecidableEq, Repr

inductive AlgebraError where
  /-- A quotient by zero. -/
  | zeroDenominator
  /-- A number beyond the range of doubles. -/
  | overflow
  | missingAddends
  | fewAddends
  | missingFactors
  | fewFactors
  | missingBase
  | missingExponent
  | missingLetter
  | manyLetters
  | notLetter
  /-- A power whose exponent is no number has no derivative here. -/
  | freeExponent
  /-- Deriving by something that is no symbol. -/
  | notSymbol
  /-- A child that is no node of a tree. -/
  | notNode
  /-- An operand that is no number. -/
  | notNumber (op : NumberOp)
  /-- The order has no rank for a value of this kind. -/
  | unranked (kind : String)
  /-- The value has no such operation. -/
  | noOperation
  /-- The operation does not take these values. -/
  | badOperands
  /-- There is no child at the position. -/
  | noChild
  /-- The computation did not end within its bound. -/
  | endless
deriving DecidableEq, Repr

namespace AlgebraError

def message : AlgebraError → Option String
  | zeroDenominator => some "Denominator cannot be 0"
  | missingAddends => some "addends cannot be None"
  | fewAddends => some "addends must be at least two elements"
  | missingFactors => some "factors cannot be None"
  | fewFactors => some "factors must be at least two elements"
  | missingBase => some "base cannot be None"
  | missingExponent => some "exponent cannot be None"
  | missingLetter => some "char cannot be None"
  | manyLetters => some "char must be a single character"
  | notLetter => some "char must be a letter"
  | freeExponent => some "Cannot derive a power with a non rational exponent"
  | notSymbol => some "The symbol must be a Symbol isntance"
  | notNode => some "Children must be of type GenericTreeNode"
  | notNumber .addition => some "Addition is only supported between Rational objects"
  | notNumber .multiplication => some "Multiplication is only supported between Rational objects"
  | notNumber .power => some "Power is only supported between Rational objects"
  | unranked kind => some ("'" ++ kind ++ "'")
  | overflow | noOperation | badOperands | noChild | endless => none

end AlgebraError

end SymScript
