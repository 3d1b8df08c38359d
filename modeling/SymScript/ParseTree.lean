import SymScript.Token

/-!
# Parse trees
-/

namespace SymScript

/-- The rules of the grammar that make a node. -/
inductive Rule where
  | program
  | function
  | parameterList
  | block
  | instruction
  | expression
  | condition
  | comparison
  | call
  | expressionList
deriving DecidableEq, Repr

inductive ParseTree where
  | leaf (token : Token)
  | node (rule : Rule) (children : List ParseTree)
deriving Repr

namespace ParseTree

instance : Inhabited ParseTree := ⟨.node .program []⟩

mutual

/-- The tokens of a tree from left to right. -/
def terminals : ParseTree → List Token
  | leaf t => [t]
  | node _ cs => terminalsAll cs

def terminalsAll : List ParseTree → List Token
  | [] => []
  | t :: ts => terminals t ++ terminalsAll ts

end

/-- The texts of all tokens, joined. -/
def text (t : ParseTree) : String := String.join (t.terminals.map Token.text)

end ParseTree

end SymScript
