import SymScript.Ast.Build

/-!
# From parse trees to programs
-/

namespace SymScript

/-- What a node of a parse tree stands for: a node, a list, or an operator. -/
inductive Meaning where
  | node (t : Ast)
  | list (ms : List Meaning)
  | operator (op : Operator)

namespace Meaning

instance : Inhabited Meaning := ⟨.list []⟩

def kind : Meaning → String
  | node t => t.kind
  | list _ => "list"
  | operator op => op.family

def child : Meaning → Except AstFault Ast
  | node t => .ok t
  | _ => .error .notNode

def operand (fault : AstFault) : Meaning → Except AstFault Ast
  | node t => if t.isOperand then .ok t else .error fault
  | _ => .error fault

/-- The node that a place of a choice takes. -/
def named (m : Meaning) : Except AstFault Ast :=
  match m with
  | node t => .ok t
  | m => .error (.noName m.kind)

def flip (m : Meaning) : Except AstFault Meaning :=
  match m with
  | node t =>
    match t.flip? with
    | some u => .ok (.node u)
    | none => .error (.noSign t.kind)
  | m => .error (.noSign m.kind)

/-- The text of a leaf or of an operator, as a name. -/
def value (m : Meaning) : Except AstFault String :=
  match m with
  | node (.nat _ d) => .ok d
  | node (.id _ n) => .ok n
  | node (.sym _ l) => .ok l
  | node (.truth _ b) => .ok (if b then "true" else "false")
  | operator op => .ok op.sign
  | m => .error (.noName m.kind)

/-- Whatever stands in the place of an operator. -/
def asOperator (m : Meaning) : Except AstFault Operator :=
  match m with
  | operator op => .ok op
  | node t => .ok (.other t.label)
  | m => .error (.noName m.kind)

def values : Meaning → Except AstFault (List String)
  | list ms => ms.mapM value
  | _ => .error .badOperation

/-- The arguments of a call; a single node stands for a list of one. -/
def arguments : Meaning → Except AstFault (List Ast)
  | list ms => ms.mapM child
  | m => do return [← m.child]

end Meaning

namespace Ast

open Meaning

def terminal (t : Token) : Except AstFault Meaning :=
  match t.kind with
  | .id => .node <$> mkId (some t.text)
  | .nat => .node <$> mkNat (some t.text)
  | .sym => .node <$> mkSym (some t.text)
  | .plus => .ok (.operator .sum)
  | .minus => .ok (.operator .sub)
  | .times => .ok (.operator .mul)
  | .divide => .ok (.operator .div)
  | .caret => .ok (.operator .pow)
  | .leq => .ok (.operator .leq)
  | .lt => .ok (.operator .less)
  | .eq => .ok (.operator .eq)
  | .gt => .ok (.operator .greater)
  | .geq => .ok (.operator .geq)
  | .and => .ok (.operator .and)
  | .or => .ok (.operator .or)
  | .true => .ok (.node (.truth false true))
  | .false => .ok (.node (.truth false false))
  | k => .error (.unknownTerminal k.code)

/-- The meaning of a child that has to be there. -/
def part (ms : List (Except AstFault Meaning)) (i : Nat) : Except AstFault Meaning :=
  match ms[i]? with
  | some m => m
  | none => .error .missingPart

/-- Two operands around an operator. -/
def binaryOf : List Meaning → Except AstFault Ast
  | [a, op, b] => do
    let left ← a.operand .leftOperand
    let right ← b.operand .rightOperand
    return .binary false (← op.asOperator) left right
  | _ => .error .badOperation

/-- Two sides around a comparison or a connective. -/
def compareOf : List Meaning → Except AstFault Ast
  | [a, op, b] => do
    let left ← a.child
    let right ← b.child
    return .compare false (← op.asOperator) left right
  | _ => .error .badOperation

/-- The tree of a function, given the meanings of its parts. -/
def functionOf (ms : List (Except AstFault Meaning)) : Except AstFault Ast := do
  let name ← part ms 0
  if ms.length = 4 then
    let body ← part ms 3
    return .function (← name.value) [] (← body.child)
  else
    let parameters ← part ms 2
    let body ← part ms 4
    return .function (← name.value) (← parameters.values) (← body.child)

/-- The tree of an instruction that starts with the given word. -/
def instructionOf (word : String) (ms : List (Except AstFault Meaning)) : Except AstFault Ast :=
  match word with
  | "foreach" => do
    let name ← part ms 1
    let source ← part ms 3
    let body ← part ms 4
    return .foreachLoop (← name.value) (← source.child) (← body.child)
  | "if" => do
    if ms.length = 5 then
      let other ← part ms 4
      let test ← part ms 1
      let body ← part ms 2
      return .ifElse (← test.named) (← body.named) (← other.named)
    else
      let test ← part ms 1
      let body ← part ms 2
      return .ifThen (← test.named) (← body.named)
  | "return" => do
    let value ← part ms 1
    return .giveBack (← value.child)
  | "while" => do
    let test ← part ms 1
    let body ← part ms 2
    return .whileLoop (← test.child) (← body.child)
  | "repeat" => do
    let count ← part ms 1
    let body ← part ms 2
    return .repeatLoop (← count.child) (← body.child)
  | _ => do
    let name ← part ms 0
    let value ← part ms 2
    return .assign (← name.value) (← value.child)

/-- The meaning of an expression node whose first child is a token. -/
def expressionOf (first : Token) (ms : List (Except AstFault Meaning)) : Except AstFault Meaning :=
  match first.kind with
  | .minus => do (← part ms 1).flip
  | .leftParen | .plus => part ms 1
  | _ => part ms 0

/-- The meaning of a condition node whose first child is a token. -/
def conditionOf (first : Token) (ms : List (Except AstFault Meaning)) : Except AstFault Meaning :=
  match first.kind with
  | .true | .false => part ms 0
  | .not => do (← part ms 1).flip
  | .leftParen => part ms 1
  | k => .error (.unknownCondition k.code)

def callOf (ms : List (Except AstFault Meaning)) : Except AstFault Ast := do
  let name ← part ms 0
  if ms.length = 3 then return .call (← name.value) []
  else
    let args ← part ms 2
    let args ← args.arguments
    return .call (← name.value) args

/-- The first child of a node that starts with a token. -/
def firstToken : List ParseTree → Except AstFault Token
  | .leaf t :: _ => .ok t
  | .node .. :: _ => .error (.noName "context")
  | [] => .error .missingPart

def isRule (r : Rule) : Option ParseTree → Bool
  | some (.node s _) => r = s
  | _ => false

/-- The members at even places. -/
def evens {α : Type} : List α → List α
  | [] => []
  | [x] => [x]
  | x :: _ :: xs => x :: evens xs

/-- The members of a parameter list, without the commas. -/
def parametersOf : List ParseTree → List (Except AstFault Meaning) → Except AstFault (List Meaning)
  | .leaf t :: ts, m :: ms => do
    if t.kind = .comma then parametersOf ts ms
    else
      let first ← m
      return first :: (← parametersOf ts ms)
  | .node .. :: _, _ => .error (.noName "context")
  | _, _ => .ok []

/-- The meaning of a node of a parse tree, given those of its children. -/
def meaningOf (rule : Rule) (children : List ParseTree) (ms : List (Except AstFault Meaning)) :
    Except AstFault Meaning :=
  match rule with
  | .program => do
    let fs ← ms.dropLast.mapM fun m => m
    return .node (.program (← fs.mapM Meaning.child))
  | .function => .node <$> functionOf ms
  | .parameterList => .list <$> parametersOf children ms
  | .block => do
    if ms.length < 2 then .error .openBlock
    else
      let is ← (ms.drop 1).dropLast.mapM fun m => m
      return .node (.block (← is.mapM Meaning.child))
  | .instruction =>
    match children with
    | [] => .error .missingPart
    | first :: _ => .node <$> instructionOf first.text ms
  | .expression =>
    if isRule .expression children.head? then do
      let parts ← ms.mapM fun m => m
      .node <$> binaryOf parts
    else if isRule .call children.head? then part ms 0
    else do expressionOf (← firstToken children) ms
  | .condition =>
    if isRule .condition children.head? then do
      let parts ← ms.mapM fun m => m
      .node <$> compareOf parts
    else if isRule .comparison children.head? then part ms 0
    else do conditionOf (← firstToken children) ms
  | .comparison => do
    let a ← part ms 0
    let op ← part ms 1
    let b ← part ms 2
    .node <$> compareOf [a, op, b]
  | .call => .node <$> callOf ms
  | .expressionList => do return .list (← (evens ms).mapM fun m => m)

mutual

/-- The meaning of a parse tree. -/
def meaning : ParseTree → Except AstFault Meaning
  | .leaf t => terminal t
  | .node rule cs => meaningOf rule cs (meanings cs)

def meanings : List ParseTree → List (Except AstFault Meaning)
  | [] => []
  | t :: ts => meaning t :: meanings ts

end

/-- The program of a parse tree. -/
def ofParseTree (t : ParseTree) : Except AstFault Ast := do (← meaning t).child

end Ast

end SymScript
