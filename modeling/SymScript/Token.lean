/-!
# Tokens

A token has a kind, a text and the place where it starts.
-/

namespace SymScript

inductive TokenKind where
  | leftParen | rightParen | leftBrace | rightBrace
  | assign
  | plus | minus | times | divide | caret
  | leq | lt | eq | gt | geq
  | true | false
  | and | or | not
  | comma
  | id | nat | sym
  | foreach | in | if | else | return | while | repeat
  | eof
  /-- A kind that no token of a text has. -/
  | other (code : Int)
deriving DecidableEq, Repr

namespace TokenKind

/-- The number of a kind. -/
def code : TokenKind → Int
  | leftParen => 1
  | rightParen => 2
  | leftBrace => 3
  | rightBrace => 4
  | assign => 5
  | plus => 6
  | minus => 7
  | times => 8
  | divide => 9
  | caret => 10
  | leq => 11
  | lt => 12
  | eq => 13
  | gt => 14
  | geq => 15
  | true => 16
  | false => 17
  | and => 18
  | or => 19
  | not => 20
  | comma => 21
  | id => 22
  | nat => 23
  | sym => 24
  | foreach => 30
  | «in» => 31
  | «if» => 32
  | «else» => 33
  | «return» => 34
  | «while» => 35
  | «repeat» => 36
  | eof => -1
  | other n => n

/-- The kinds of tokens that a text can have. -/
def all : List TokenKind :=
  [leftParen, rightParen, leftBrace, rightBrace, assign, plus, minus, times, divide, caret, leq, lt,
    eq, gt, geq, true, false, and, or, not, comma, id, nat, sym, foreach, «in», «if», «else»,
    «return», «while», «repeat», eof]

def ofCode (n : Int) : TokenKind := (all.find? (·.code == n)).getD (other n)

def isSign : TokenKind → Bool
  | plus | minus => Bool.true
  | _ => Bool.false

def isFactorOperator : TokenKind → Bool
  | times | divide => Bool.true
  | _ => Bool.false

/-- What a condition in parentheses may stand in front of: a connective, a block, or the end of
another parenthesis. -/
def followsCondition : TokenKind → Bool
  | and | or | leftBrace | rightParen => Bool.true
  | _ => Bool.false

end TokenKind

structure Token where
  kind : TokenKind
  text : String
  line : Nat
  column : Nat
deriving DecidableEq, Repr

end SymScript
