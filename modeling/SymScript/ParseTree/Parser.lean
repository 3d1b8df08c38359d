import SymScript.ParseTree
import SymScript.Text.Lines
import SymScript.Token.Lexer

/-!
# The parser

A parser by recursive descent. With a `watch` on the source a token of the wrong kind is reported
and stops the parse; without one it is taken as if it were right. Every call passes on less fuel,
and the fuel is computed from the number of tokens.
-/

namespace SymScript

/-- Why a parse stopped. -/
inductive ParseStop where
  /-- A token of the wrong kind, which has been reported. -/
  | unexpected
  /-- A token was wanted after the last one. -/
  | noToken
  /-- A wrong token on a line that the source does not have. -/
  | noLine
  | endless
deriving DecidableEq, Repr

/-- What is left to read, and the reports so far. -/
structure Reading where
  rest : List Token
  reports : List String := []
deriving DecidableEq, Repr

/-- The lines of the source, if wrong tokens are to be reported. -/
abbrev Watch := Option (List String)

abbrev Parse := ExceptT ParseStop (StateM Reading)

/-- The report of a fault that `source` found at a place of a text, whose line is shown with a mark
below the column. -/
def faultReport (source line : String) (lineNumber column : Int) (message : String) : String :=
  "Detected by " ++ source ++ " - At line " ++ toString lineNumber ++ ", column " ++
    toString column ++ " in " ++ source ++ ":\n" ++ line ++ "\n" ++
    Text.spaces (column - 1).toNat ++ "^\n" ++ message

namespace Parse

/-- The kind of the token that is `k` places ahead; nothing but the end comes after the last one. -/
def ahead (k : Nat) : Parse TokenKind := do
  return (((← get).rest[k]?).map Token.kind).getD .eof

def peek : Parse TokenKind := ahead 0

/-- Takes the next token, whatever it is. -/
def take : Parse ParseTree := do
  match (← get).rest with
  | [] => throw .noToken
  | t :: ts =>
    modify fun r => { r with rest := ts }
    return .leaf t

def report (text : String) : Parse Unit :=
  modify fun r => { r with reports := r.reports ++ [text] }

/-- Takes the next token, which should be of the given kind. -/
def eat (watch : Watch) (kind : TokenKind) : Parse ParseTree := do
  match (← get).rest, watch with
  | t :: _, some lines =>
    if t.kind = kind then take
    else match lines[t.line - 1]? with
      | none => throw .noLine
      | some line =>
        report (faultReport "Parser" line t.line t.column
          ("expected " ++ toString kind.code ++ " got " ++ t.text))
        throw .unexpected
  | _, _ => take

/-! ### Expressions -/

mutual

/-- Sums and differences, from the left. -/
def expression (watch : Watch) : Nat → Parse ParseTree
  | 0 => throw .endless
  | n + 1 => do addends watch n (← term watch n)

def addends (watch : Watch) : Nat → ParseTree → Parse ParseTree
  | 0, _ => throw .endless
  | n + 1, left => do
    if (← peek).isSign then
      let operator ← take
      let right ← term watch n
      addends watch n (.node .expression [left, operator, right])
    else return left

/-- Products and quotients, from the left. -/
def term (watch : Watch) : Nat → Parse ParseTree
  | 0 => throw .endless
  | n + 1 => do factors watch n (← power watch n)

def factors (watch : Watch) : Nat → ParseTree → Parse ParseTree
  | 0, _ => throw .endless
  | n + 1, left => do
    if (← peek).isFactorOperator then
      let operator ← take
      let right ← power watch n
      factors watch n (.node .expression [left, operator, right])
    else return left

/-- Powers, from the right. -/
def power (watch : Watch) : Nat → Parse ParseTree
  | 0 => throw .endless
  | n + 1 => do
    let base ← unary watch n
    if (← peek) = .caret then
      let operator ← take
      let exponent ← power watch n
      return .node .expression [base, operator, exponent]
    else return base

/-- A signed expression, one in parentheses, a call, or any single token. -/
def unary (watch : Watch) : Nat → Parse ParseTree
  | 0 => throw .endless
  | n + 1 => do
    let kind ← peek
    if kind.isSign then
      let sign ← take
      let inner ← unary watch n
      return .node .expression [sign, inner]
    else if kind = .leftParen then
      let opening ← take
      let inner ← expression watch n
      let closing ← eat watch .rightParen
      return .node .expression [opening, inner, closing]
    else if kind = .id && (← ahead 1) = .leftParen then
      return .node .expression [← call watch n]
    else return .node .expression [← take]

def call (watch : Watch) : Nat → Parse ParseTree
  | 0 => throw .endless
  | n + 1 => do
    let name ← eat watch .id
    let opening ← eat watch .leftParen
    if (← peek) = .rightParen then
      let closing ← eat watch .rightParen
      return .node .call [name, opening, closing]
    else
      let first ← expression watch n
      let rest ← arguments watch n
      let closing ← eat watch .rightParen
      return .node .call [name, opening, .node .expressionList (first :: rest), closing]

def arguments (watch : Watch) : Nat → Parse (List ParseTree)
  | 0 => throw .endless
  | n + 1 => do
    if (← peek) = .comma then
      let comma ← eat watch .comma
      let next ← expression watch n
      let rest ← arguments watch n
      return comma :: next :: rest
    else return []

end

/-! ### Conditions -/

/-- Runs a parse that may decline; if it declines or stops, reading goes back to where it was, and
only the reports stay. Running out of fuel is not a stop that the source can cause, and is passed
on. -/
def attempt (p : Parse (Option ParseTree)) : Parse (Option ParseTree) := do
  let start := (← get).rest
  let result ← tryCatch p fun
    | .endless => throw .endless
    | _ => return none
  if result.isNone then modify fun r => { r with rest := start }
  return result

/-- Two expressions with any token between them. -/
def comparison (watch : Watch) (n : Nat) : Parse ParseTree := do
  let left ← expression watch n
  let operator ← take
  let right ← expression watch n
  return .node .condition [.node .comparison [left, operator, right]]

mutual

/-- Disjunctions, from the left. -/
def condition (watch : Watch) : Nat → Parse ParseTree
  | 0 => throw .endless
  | n + 1 => do disjuncts watch n (← conjunction watch n)

def disjuncts (watch : Watch) : Nat → ParseTree → Parse ParseTree
  | 0, _ => throw .endless
  | n + 1, left => do
    if (← peek) = .or then
      let operator ← take
      let right ← conjunction watch n
      disjuncts watch n (.node .condition [left, operator, right])
    else return left

/-- Conjunctions, from the left. -/
def conjunction (watch : Watch) : Nat → Parse ParseTree
  | 0 => throw .endless
  | n + 1 => do conjuncts watch n (← simpleCondition watch n)

def conjuncts (watch : Watch) : Nat → ParseTree → Parse ParseTree
  | 0, _ => throw .endless
  | n + 1, left => do
    if (← peek) = .and then
      let operator ← take
      let right ← simpleCondition watch n
      conjuncts watch n (.node .condition [left, operator, right])
    else return left

/-- A negation, a truth value, a condition in parentheses, or a comparison. -/
def simpleCondition (watch : Watch) : Nat → Parse ParseTree
  | 0 => throw .endless
  | n + 1 => do
    let kind ← peek
    if kind = .not then
      let operator ← take
      let inner ← simpleCondition watch n
      return .node .condition [operator, inner]
    else if kind = .true || kind = .false then return .node .condition [← take]
    else if kind = .leftParen then
      match ← attempt (groupedCondition watch n) with
      | some t => return t
      | none => comparison watch n
    else comparison watch n

/-- A condition in parentheses. It declines, and the parenthesis is then read as an expression, when
no closing parenthesis follows the condition or nothing that can follow a condition comes after
that. -/
def groupedCondition (watch : Watch) : Nat → Parse (Option ParseTree)
  | 0 => throw .endless
  | n + 1 => do
    let opening ← take
    let inner ← condition watch n
    if (← peek) = .rightParen then
      let closing ← take
      if (← peek).followsCondition then return some (.node .condition [opening, inner, closing])
      else return none
    else return none

end

/-! ### Instructions and functions -/

mutual

def block (watch : Watch) : Nat → Parse ParseTree
  | 0 => throw .endless
  | n + 1 => do
    let opening ← eat watch .leftBrace
    let inner ← instructions watch n
    let closing ← eat watch .rightBrace
    return .node .block (opening :: inner ++ [closing])

def instructions (watch : Watch) : Nat → Parse (List ParseTree)
  | 0 => throw .endless
  | n + 1 => do
    if (← peek) = .rightBrace then return []
    else
      let first ← instruction watch n
      let rest ← instructions watch n
      return first :: rest

def instruction (watch : Watch) : Nat → Parse ParseTree
  | 0 => throw .endless
  | n + 1 => do
    match ← peek with
    | .foreach => do
      let keyword ← take
      let name ← eat watch .id
      let inWord ← eat watch .in
      let source ← expression watch n
      let body ← block watch n
      return .node .instruction [keyword, name, inWord, source, body]
    | .if => do
      let keyword ← take
      let test ← condition watch n
      let body ← block watch n
      if (← peek) = .else then
        let elseWord ← take
        let other ← block watch n
        return .node .instruction [keyword, test, body, elseWord, other]
      else return .node .instruction [keyword, test, body]
    | .return => do
      let keyword ← take
      let value ← expression watch n
      return .node .instruction [keyword, value]
    | .while => do
      let keyword ← take
      let test ← condition watch n
      let body ← block watch n
      return .node .instruction [keyword, test, body]
    | .repeat => do
      let keyword ← take
      let count ← expression watch n
      let body ← block watch n
      return .node .instruction [keyword, count, body]
    | _ => do
      let name ← eat watch .id
      let sign ← eat watch .assign
      let value ← expression watch n
      return .node .instruction [name, sign, value]

end

def parameters (watch : Watch) : Nat → Parse (List ParseTree)
  | 0 => throw .endless
  | n + 1 => do
    if (← peek) = .comma then
      let comma ← eat watch .comma
      let name ← eat watch .id
      let rest ← parameters watch n
      return comma :: name :: rest
    else return []

/-- The parameters in parentheses. -/
def signature (watch : Watch) (n : Nat) : Parse (List ParseTree) := do
  let opening ← eat watch .leftParen
  if (← peek) = .id then
    let first ← eat watch .id
    let rest ← parameters watch n
    let closing ← eat watch .rightParen
    return [opening, .node .parameterList (first :: rest), closing]
  else return [opening, ← eat watch .rightParen]

def function (watch : Watch) (n : Nat) : Parse ParseTree := do
  let name ← eat watch .id
  let inner ← signature watch n
  let body ← block watch n
  return .node .function (name :: inner ++ [body])

def functions (watch : Watch) : Nat → Parse (List ParseTree)
  | 0 => throw .endless
  | n + 1 => do
    if (← peek) = .id then
      let first ← function watch n
      let rest ← functions watch n
      return first :: rest
    else return []

def program (watch : Watch) (n : Nat) : Parse ParseTree := do
  let inner ← functions watch n
  let last ← eat watch .eof
  return .node .program (inner ++ [last])

end Parse

/-- The outcome of a parse with its reports. -/
structure Parsed where
  result : Except ParseStop ParseTree
  reports : List String

namespace ParseTree

/-- More than the depth of the calls that the parse of a list of tokens makes. -/
def fuelFor (tokens : List Token) : Nat := 8 * tokens.length + 16

/-- Parses a program; `watched` reports wrong tokens. -/
def ofText (text : String) (watched : Bool) : Parsed :=
  let tokens := Token.tokens text
  let watch := if watched then some (Text.lines text) else none
  let (result, reading) := ((Parse.program watch (fuelFor tokens)).run).run { rest := tokens }
  { result, reports := reading.reports }

end ParseTree

end SymScript
