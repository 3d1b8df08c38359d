import SymScript.Token

/-!
# Cutting a text into tokens

At every place the longest match of one alternative is taken: a run of blanks, a run of letters, a
run of digits, or an operator. A character where none of them matches is passed over; it does not
count for the columns of what follows.
-/

namespace SymScript.Token

def isBlank (c : Char) : Bool := c = ' ' || c = '\t' || c = '\r' || c = '\n'

/-- The number of characters that the leading match takes; zero if there is none. -/
def matchLength : List Char → Nat
  | [] => 0
  | c :: cs =>
    if isBlank c then 1 + (cs.takeWhile isBlank).length
    else if c.isAlpha then 1 + (cs.takeWhile Char.isAlpha).length
    else if c.isDigit then 1 + (cs.takeWhile Char.isDigit).length
    else match c, cs with
      | '<', '=' :: _ | '>', '=' :: _ | '=', '=' :: _ => 2
      | _, _ => if "()\x7b\x7d=+-*/^<>!,".toList.contains c then 1 else 0

/-- The kind of a run of letters. -/
def wordKind (word : String) : TokenKind :=
  match word with
  | "true" => .true
  | "false" => .false
  | "and" => .and
  | "or" => .or
  | "foreach" => .foreach
  | "in" => .in
  | "if" => .if
  | "else" => .else
  | "return" => .return
  | "while" => .while
  | "repeat" => .repeat
  | _ => if (word.toList.headD 'a').isUpper then .id else .sym

def operatorKind (text : String) : TokenKind :=
  match text with
  | "(" => .leftParen
  | ")" => .rightParen
  | "\x7b" => .leftBrace
  | "\x7d" => .rightBrace
  | "=" => .assign
  | "+" => .plus
  | "-" => .minus
  | "*" => .times
  | "/" => .divide
  | "^" => .caret
  | "<=" => .leq
  | "<" => .lt
  | "==" => .eq
  | ">" => .gt
  | ">=" => .geq
  | "!" => .not
  | _ => .comma

/-- The token of a match that is not blank. A symbol keeps only its first letter. -/
def ofMatch (m : List Char) (line column : Nat) : Token :=
  let text := String.ofList m
  match m with
  | [] => { kind := .eof, text := "", line, column }
  | c :: _ =>
    if c.isAlpha then
      match wordKind text with
      | .sym => { kind := .sym, text := c.toString, line, column }
      | kind => { kind, text, line, column }
    else if c.isDigit then { kind := .nat, text, line, column }
    else { kind := operatorKind text, text, line, column }

/-- The line after a match. -/
def lineAfter (m : List Char) (line : Nat) : Nat := line + m.count '\n'

/-- The column after a match: counted on, or from the last line break in it. -/
def columnAfter (m : List Char) (column : Nat) : Nat :=
  if m.contains '\n' then (m.reverse.takeWhile (· != '\n')).length else column + m.length

def endOf (line column : Nat) : Token := { kind := .eof, text := "<EOF>", line, column }

/-- The tokens of what is left of a text, from a given place on. -/
def scan (line column : Nat) : List Char → List Token
  | [] => [endOf line column]
  | c :: cs =>
    match matchLength (c :: cs) with
    | 0 => scan line column cs
    | n + 1 =>
      let m := c :: cs.take n
      let rest := scan (lineAfter m line) (columnAfter m column) (cs.drop n)
      if isBlank c then rest else ofMatch m line column :: rest
termination_by cs => cs.length
decreasing_by all_goals simp; try omega

def tokens (text : String) : List Token := scan 1 0 text.toList

end SymScript.Token
