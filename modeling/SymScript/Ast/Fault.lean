import SymScript.AlgebraError
import SymScript.ParseTree.Parser

/-!
# Why a program tree cannot be made
-/

namespace SymScript

inductive AstFault where
  | missingName
  | emptyName
  | smallName
  | missingDigits
  | notDigits
  | missingLetter
  | manyLetters
  | notSmall
  | leftOperand
  | rightOperand
  | missingFunction
  /-- A child that is no node. -/
  | notNode
  /-- A value that has no sign to turn. -/
  | noSign (kind : String)
  /-- A value that takes no name, or has no value to read. -/
  | noName (kind : String)
  | unknownTerminal (code : Int)
  | unknownCondition (code : Int)
  /-- A node of a parse tree with too few children. -/
  | missingPart
  /-- A block without its braces. -/
  | openBlock
  /-- An operation that has not two operands and an operator. -/
  | badOperation
  | algebra (e : AlgebraError)
  | parse (stop : ParseStop)
deriving DecidableEq, Repr

namespace AstFault

def message : AstFault → Option String
  | missingName => some "varName cannot be None"
  | smallName => some "varName must start with an uppercase letter"
  | missingDigits => some "value cannot be None"
  | notDigits => some "value must be a number"
  | missingLetter => some "Name cannot be None"
  | manyLetters => some "Name must be a single character"
  | notSmall => some "Name must start with an uppercase letter"
  | leftOperand => some "Left operand must be of type BaseLuppNode or FunCall"
  | rightOperand => some "Right operand must be of type BaseLuppNode or FunCall"
  | missingFunction => some "funcName cannot be None"
  | notNode => some "Children must be of type GenericTreeNode"
  | unknownTerminal code => some ("Terminal not recognized: " ++ toString code)
  | unknownCondition code => some ("Condition not recognized: " ++ toString code)
  | algebra e => e.message
  | parse .unexpected => some "parse"
  | emptyName | noSign _ | noName _ | missingPart | openBlock | badOperation | parse _ => none

/-- The text of a fault where it is printed; more faults have one there than in an answer. -/
def printed (f : AstFault) : String :=
  match f with
  | noSign kind => "'" ++ kind ++ "' object has no attribute 'inverseNegation'"
  | noName kind => "'" ++ kind ++ "' object has no attribute 'value'"
  | emptyName => "string index out of range"
  | missingPart | parse .noToken | parse .noLine => "list index out of range"
  | openBlock => "not enough values to unpack (expected at least 2, got 0)"
  | f => f.message.getD ""

end AstFault

end SymScript
