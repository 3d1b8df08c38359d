import SymScript.Term

/-!
# Programs as trees

The nodes of a program: expressions, conditions, instructions, functions. The sign of an expression
and the negation of a condition are flags of their nodes. A term may stand for an expression that is
already computed.
-/

namespace SymScript

inductive Operator where
  | sum | sub | mul | div | pow
  | leq | less | eq | greater | geq
  | and | or
  /-- A node in the place of an operator, with its name. -/
  | other (name : String)
deriving DecidableEq, Repr

namespace Operator

def name : Operator → String
  | sum => "SUM"
  | sub => "SUB"
  | mul => "MUL"
  | div => "DIV"
  | pow => "POW"
  | leq => "LEQ"
  | less => "LESS"
  | eq => "EQ"
  | greater => "GREATER"
  | geq => "GEQ"
  | and => "AND"
  | or => "OR"
  | other name => name

def sign : Operator → String
  | sum => "+"
  | sub => "-"
  | mul => "*"
  | div => "/"
  | pow => "^"
  | leq => "<="
  | less => "<"
  | eq => "=="
  | greater => ">"
  | geq => ">="
  | and => "and"
  | or => "or"
  | other name => name

def all : List Operator := [sum, sub, mul, div, pow, leq, less, eq, greater, geq, and, or]

def ofSign? (sign : String) : Option Operator := all.find? (·.sign == sign)

/-- The word for the family of an operator. -/
def family : Operator → String
  | sum | sub | mul | div | pow => "BinOpType"
  | _ => "BinCondType"

end Operator

inductive Ast where
  | nat (negated : Bool) (digits : String)
  | id (negated : Bool) (name : String)
  | sym (negated : Bool) (letter : String)
  | binary (negated : Bool) (op : Operator) (left right : Ast)
  | call (function : String) (arguments : List Ast)
  | compare (negated : Bool) (op : Operator) (left right : Ast)
  | truth (negated value : Bool)
  | block (instructions : List Ast)
  | assign (name : String) (value : Ast)
  | foreachLoop (name : String) (source body : Ast)
  | ifThen (test body : Ast)
  | ifElse (test body other : Ast)
  | repeatLoop (count body : Ast)
  | giveBack (value : Ast)
  | whileLoop (test body : Ast)
  | function (name : String) (parameters : List String) (body : Ast)
  | program (functions : List Ast)
  | term (t : Term)
  /-- A node that no rule of the language knows. -/
  | stranger (kind : String)

namespace Ast

instance : Inhabited Ast := ⟨.block []⟩

/-- The word for the kind of a node. -/
def kind : Ast → String
  | nat .. => "NAT"
  | id .. => "ID"
  | sym .. => "SYM"
  | binary .. => "BinOp"
  | call .. => "FuncCall"
  | compare .. => "BinCond"
  | truth .. => "TrueFalse"
  | block _ => "InstrBlock"
  | assign .. => "Assignment"
  | foreachLoop .. => "Foreach"
  | ifThen .. | ifElse .. => "IfElse"
  | repeatLoop .. => "Repeat"
  | giveBack _ => "Return"
  | whileLoop .. => "While"
  | function .. => "Function"
  | program _ => "Program"
  | term t => t.shape.word
  | stranger kind => kind

/-- An expression of the language, or a call. -/
def isOperand : Ast → Bool
  | nat .. | id .. | sym .. | binary .. | call .. => true
  | _ => false

/-- The node with the opposite sign, if it has a sign. -/
def flip? : Ast → Option Ast
  | nat s d => some (nat (!s) d)
  | id s n => some (id (!s) n)
  | sym s l => some (sym (!s) l)
  | binary s op a b => some (binary (!s) op a b)
  | compare s op a b => some (compare (!s) op a b)
  | truth s v => some (truth (!s) v)
  | _ => none

/-- The name of a node that stands in no special place. -/
def label : Ast → String
  | nat .. => "NAT_EXPR"
  | id .. => "ID_EXPR"
  | sym .. => "SYM_EXPR"
  | binary .. => "BIN_OP_EXPR"
  | call .. => "FUN_CALL"
  | compare .. => "BIN_COND"
  | truth .. => "T/F_COND"
  | block _ => "INSTR_BLOCK"
  | assign .. => "ASSIGNMENT_INSTR"
  | foreachLoop .. => "FOREACH_INSTR"
  | ifThen .. | ifElse .. => "IFELSE_INSTR"
  | repeatLoop .. => "REPEAT_INSTR"
  | giveBack _ => "RETURN_INSTR"
  | whileLoop .. => "WHILE_INSTR"
  | function .. => "FUNCTION"
  | program _ => "PROGRAM"
  | term t => t.shape.title
  | stranger kind => kind

end Ast

end SymScript
