import SymScript.Expr

/-!
# Raw text of trees

A node without children is its payload; any other is its payload and its children in parentheses,
separated by single blanks.
-/

namespace SymScript.RawText

/-- Line breaks and tabs are written as two characters. -/
def escapeChar : Char → List Char
  | '\t' => ['\\', 't']
  | '\n' => ['\\', 'n']
  | '\r' => ['\\', 'r']
  | c => [c]

def escape (text : String) : String := String.ofList (text.toList.flatMap escapeChar)

def node (payload : String) : List String → String
  | [] => escape payload
  | children => "(" ++ escape payload ++ " " ++ String.intercalate " " children ++ ")"

end SymScript.RawText

namespace SymScript.Expr

mutual

def raw : Expr → String
  | .rational q => RawText.node q.digits []
  | .symbol _ c => RawText.node c.toString []
  | .sum _ es => RawText.node Shape.sum.mark (rawAll es)
  | .product _ es => RawText.node Shape.product.mark (rawAll es)
  | .power _ b e => RawText.node Shape.power.mark [raw b, raw e]

def rawAll : List Expr → List String
  | [] => []
  | e :: es => raw e :: rawAll es

end

end SymScript.Expr
