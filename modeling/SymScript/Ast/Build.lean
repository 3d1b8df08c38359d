import SymScript.Ast
import SymScript.Ast.Fault
import SymScript.TermSpec
import SymScript.Text.Numeral

/-!
# Making the nodes of a program

The checks that every node makes of its parts, and descriptions of nodes from which they are made:
parts from left to right, then the node.
-/

namespace SymScript

namespace Ast

/-- A name starts with a capital letter. -/
def mkId (name : Option String) : Except AstFault Ast :=
  match name with
  | none => .error .missingName
  | some n =>
    match n.toList with
    | [] => .error .emptyName
    | c :: _ => if Text.isCapital c then .ok (.id false n) else .error .smallName

def mkNat (digits : Option String) : Except AstFault Ast :=
  match digits with
  | none => .error .missingDigits
  | some d => if Text.isNumeric d then .ok (.nat false d) else .error .notDigits

/-- A symbol is one small letter. -/
def mkSym (letter : Option String) : Except AstFault Ast :=
  match letter with
  | none => .error .missingLetter
  | some l =>
    match l.toList with
    | [c] => if Text.isSmall c then .ok (.sym false l) else .error .notSmall
    | _ => .error .manyLetters

end Ast

/-- What is put in the place of a node: a node or a plain value. -/
inductive Part where
  | node (t : Ast)
  | plain (s : Scalar)

namespace Part

def kind : Part → String
  | node t => t.kind
  | plain s => s.kind

/-- The part as a child, which has to be a node. -/
def child : Part → Except AstFault Ast
  | node t => .ok t
  | plain _ => .error .notNode

/-- The part as an operand. -/
def operand (fault : AstFault) : Part → Except AstFault Ast
  | node t => if t.isOperand then .ok t else .error fault
  | plain _ => .error fault

/-- The part with the opposite sign. -/
def flip (p : Part) : Except AstFault Part :=
  match p with
  | node t =>
    match t.flip? with
    | some u => .ok (.node u)
    | none => .error (.noSign t.kind)
  | plain s => .error (.noSign s.kind)

/-- The part under a name that its place gives it; a plain value takes none. -/
def named : Part → Except AstFault Ast
  | node t => .ok t
  | plain s => .error (.noName s.kind)

end Part

inductive AstSpec where
  | nat (digits : Option String)
  | id (name : Option String)
  | sym (letter : Option String)
  | binary (left : AstSpec) (op : Operator) (right : AstSpec)
  | call (function : Option String) (arguments : List AstSpec)
  | compare (left : AstSpec) (op : Operator) (right : AstSpec)
  | truth (value : Bool)
  | block (instructions : List AstSpec)
  | assign (name : Option String) (value : AstSpec)
  | foreachLoop (name : Option String) (source : AstSpec) (body : List AstSpec)
  | ifThen (test : AstSpec) (body : List AstSpec)
  | ifElse (test : AstSpec) (body other : List AstSpec)
  | repeatLoop (count : AstSpec) (body : List AstSpec)
  | giveBack (value : AstSpec)
  | whileLoop (test : AstSpec) (body : List AstSpec)
  | function (name : Option String) (parameters : List (Option String)) (body : List AstSpec)
  | term (t : TermSpec)
  | stranger (kind : String)
  | plain (s : Scalar)
  /-- A node whose sign is turned once it is made. -/
  | flipped (s : AstSpec)

namespace AstSpec

instance : Inhabited AstSpec := ⟨.plain .nothing⟩

/-- The name of a variable or a function. -/
def nameOf (name : Option String) : Except AstFault String := do
  let _ ← Ast.mkId name
  return name.getD ""

/-- A term with a graph of its own. -/
def buildTerm (s : TermSpec) : Except AstFault Part :=
  match ((TermGraph.Edit.build [] s).run).run {} with
  | (.ok (.term r), g) => .ok (.node (.term (.graph g r)))
  | (.ok (.plain v), _) => .ok (.plain v)
  | (.ok (.pair ..), _) => .ok (.plain .nothing)
  | (.error e, _) => .error (.algebra e)

mutual

def build : AstSpec → Except AstFault Part
  | nat d => .node <$> Ast.mkNat d
  | id n => .node <$> Ast.mkId n
  | sym l => .node <$> Ast.mkSym l
  | binary a op b => do
    let left ← build a
    let right ← build b
    let left ← left.operand .leftOperand
    let right ← right.operand .rightOperand
    return .node (.binary false op left right)
  | call f args => do
    match f with
    | none => do
      let _ ← buildAll args
      .error .missingFunction
    | some _ => do
      let name ← nameOf f
      let parts ← buildAll args
      return .node (.call name (← parts.mapM Part.child))
  | compare a op b => do
    let left ← build a
    let right ← build b
    return .node (.compare false op (← left.child) (← right.child))
  | truth v => .ok (.node (.truth false v))
  | block is => do return .node (.block (← (← buildAll is).mapM Part.child))
  | assign n v => do
    let name ← nameOf n
    let value ← build v
    return .node (.assign name (← value.child))
  | foreachLoop n source body => do
    let name ← nameOf n
    let source ← build source
    let is ← (← buildAll body).mapM Part.child
    return .node (.foreachLoop name (← source.child) (.block is))
  | ifThen test body => do
    let test ← build test
    let is ← (← buildAll body).mapM Part.child
    return .node (.ifThen (← test.named) (.block is))
  | ifElse test body other => do
    let test ← build test
    let is ← (← buildAll body).mapM Part.child
    let js ← (← buildAll other).mapM Part.child
    return .node (.ifElse (← test.named) (.block is) (.block js))
  | repeatLoop count body => do
    let count ← build count
    let is ← (← buildAll body).mapM Part.child
    return .node (.repeatLoop (← count.child) (.block is))
  | giveBack v => do
    let value ← build v
    return .node (.giveBack (← value.child))
  | whileLoop test body => do
    let test ← build test
    let is ← (← buildAll body).mapM Part.child
    return .node (.whileLoop (← test.child) (.block is))
  | function n ps body => do
    let name ← nameOf n
    let parameters ← ps.mapM nameOf
    let is ← (← buildAll body).mapM Part.child
    return .node (.function name parameters (.block is))
  | term t => buildTerm t
  | stranger kind => .ok (.node (.stranger kind))
  | plain s => .ok (.plain s)
  | flipped s => do (← build s).flip

def buildAll : List AstSpec → Except AstFault (List Part)
  | [] => .ok []
  | s :: ss => do
    let p ← build s
    let ps ← buildAll ss
    return p :: ps

end

/-- A program of functions that are made and added one after the other. -/
def buildProgram : List AstSpec → Except AstFault (List Ast)
  | [] => .ok []
  | s :: ss => do
    let f ← (← build s).child
    let fs ← buildProgram ss
    return f :: fs

end AstSpec

end SymScript
