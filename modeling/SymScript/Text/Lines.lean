/-!
# Lines of a text
-/

namespace SymScript.Text

/-- Every character that ends a line: the usual ones, the vertical tab and the form feed, three
separators of records, and the line ends of the wider character set. -/
def isLineEnd (c : Char) : Bool :=
  [0x0a, 0x0d, 0x0b, 0x0c, 0x1c, 0x1d, 0x1e, 0x85, 0x2028, 0x2029].contains c.toNat

/-- The lines, given what has been read of the current one. A carriage return takes a following line
feed along, and nothing follows the last line end. -/
def linesFrom : List Char → List Char → List String
  | [], [] => []
  | line, [] => [String.ofList line.reverse]
  | line, '\r' :: '\n' :: cs => String.ofList line.reverse :: linesFrom [] cs
  | line, c :: cs =>
    if isLineEnd c then String.ofList line.reverse :: linesFrom [] cs else linesFrom (c :: line) cs

def lines (text : String) : List String := linesFrom [] text.toList

/-- Every line end becomes a line feed. -/
def unifyEnds : List Char → List Char
  | [] => []
  | '\r' :: '\n' :: cs => '\n' :: unifyEnds cs
  | '\r' :: cs => '\n' :: unifyEnds cs
  | c :: cs => c :: unifyEnds cs

def spaces (n : Nat) : String := String.ofList (List.replicate n ' ')

/-- Fills up with blanks on the right. -/
def padRight (width : Nat) (text : String) : String := text ++ spaces (width - text.length)

/-- Fills up with blanks on the left. -/
def padLeft (width : Nat) (text : String) : String := spaces (width - text.length) ++ text

end SymScript.Text
