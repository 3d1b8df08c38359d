import SymScript.Ast.OfParseTree

/-!
# Programs and expressions from text
-/

namespace SymScript.Ast

/-- A program read from a text, with the reports of wrong tokens. -/
structure FromText where
  result : Except AstFault Ast
  reports : List String := []

def ofParsed (p : Parsed) : Except AstFault Ast :=
  match p.result with
  | .ok t => ofParseTree t
  | .error stop => .error (.parse stop)

/-- Reads a program and reports wrong tokens. -/
def ofText (text : String) : FromText :=
  let parsed := ParseTree.ofText text true
  { result := ofParsed parsed, reports := parsed.reports }

/-- The functions of a program. -/
def functions : Ast → List Ast
  | .program fs => fs
  | _ => []

/-- The expression of the first assignment of the first function. -/
def firstExpression : Ast → Except AstFault Ast
  | .program (.function _ _ (.block (.assign _ e :: _)) :: _) => .ok e
  | _ => .error .missingPart

/-- The text around an expression that makes a program of it. -/
def frame (text : String) : String := "Main()\x7bA=" ++ text ++ "\x7d"

/-- Reads an expression: it is put into a program, which is parsed without a watch on wrong
tokens. -/
def expressionOfText (text : String) : Except AstFault Ast := do
  firstExpression (← ofParsed (ParseTree.ofText (frame text) false))

/-- What is printed when a text is no expression. -/
def conversionNote (text : String) (fault : AstFault) : String :=
  "Error while converting the string " ++ text ++ " to an AST expression: " ++ fault.printed ++ "\n"

end SymScript.Ast
