import SymScript.Ast.Build
import SymScript.Machine.Frame

/-!
# The machine that runs programs

A state is a stack of frames. A step does the next piece of work of the topmost frame; a call puts a
frame on top, and a return takes it off and hands its value to the frame below.
-/

namespace SymScript

/-- A function of a program. -/
structure FunctionDef where
  name : String
  parameters : List String
  body : Ast

/-- What a function is called with. -/
inductive Argument where
  | value (v : Value)
  | node (t : Ast)
  | plain (s : Scalar)

namespace Argument

def term? : Argument → Option Term
  | value (.term t) | node (.term t) => some t
  | _ => none

def isExpression : Argument → Bool
  | value (.term _) | node (.term _) => true
  | node t => t.isOperand
  | _ => false

/-- The work that gives a parameter its value. -/
def assignTo (name : String) : Argument → Work
  | value (.term t) | node (.term t) => .bind name t
  | node t => .visit (.assign name t)
  | value (.truth b) => .visit (.assign name (.truth false b))
  | plain _ => .visit (.assign name (.block []))

end Argument

namespace Machine

abbrev State := Frame × List Frame

inductive StepResult where
  | next (s : State)
  | returned (e : Expr)

def ofAlgebra {α : Type} : Except AlgebraError α → Except RunError α
  | .ok a => .ok a
  | .error e => .error (.algebra e)

/-! ### Calls -/

/-- What a call leads to: a new frame, or at once the value of a library function. -/
inductive Entry where
  | frame (f : Frame)
  | value (t : Term)

def hasRepeats : List String → Bool
  | [] => false
  | x :: xs => xs.contains x || hasRepeats xs

/-- The frame of an activation. Parameters are assigned before the body, the last one first. -/
def activation (f : FunctionDef) (arguments : List Argument) : Frame :=
  { function := f.name
    work := (List.zipWith Argument.assignTo f.parameters arguments).reverse ++ [.visit f.body] }

/-- Selects a function by name and number of arguments. -/
def enter (functions : List FunctionDef) (name : String) (arguments : List Argument) :
    Except RunError Entry :=
  let start : Frame := { function := name }
  match functions.filter (·.name == name) with
  | [] =>
    match LibraryFunction.ofName? name with
    | some f => .value <$> ofAlgebra (Term.call f (arguments.map Argument.term?))
    | none => start.complain (.notFound name)
  | overloads =>
    match overloads.find? (·.parameters.length == arguments.length) with
    | none =>
      start.complain
        (.noOverload name arguments.length (overloads.map FunctionDef.parameters))
    | some f =>
      if hasRepeats f.parameters then start.complain (.sameParameters name)
      else if arguments.all Argument.isExpression then .ok (.frame (activation f arguments))
      else start.complain (.notExpressions name)

/-! ### Operators -/

def termOf : Value → Except RunError Expr
  | .term t => ofAlgebra t.expr
  | .truth _ => .error .notTerm

/-- The value of an arithmetic operator; any other gives none. -/
def arithmetic (negated : Bool) (op : Operator) (left right : Value) :
    Except RunError (Option Expr) :=
  let run := fun (make : Expr → Expr → Expr) => do
    let a ← termOf left
    let b ← termOf right
    some <$> ofAlgebra (make a b).simplify
  match op with
  | .sum => run fun a b => Expr.mkSum negated [a, b]
  | .sub => run fun a b => Expr.mkSum negated [a, b.flip]
  | .mul => run fun a b => Expr.mkProduct negated [a, b]
  | .div => run fun a b =>
    Expr.mkProduct negated [a, Expr.mkPower false b (.rational (.ofInt (-1)))]
  | .pow => run fun a b => Expr.mkPower negated a b
  | _ => .ok none

def same : Value → Value → Bool
  | .term a, .term b => a.eq b
  | .truth a, .truth b => a == b
  | _, _ => false

def before : Value → Value → Except RunError Bool
  | .term a, .term b => .ok (a.lt b)
  | .term _, .truth _ => .error (.algebra (.unranked "bool"))
  | .truth _, .term _ => .error .badComparison
  | .truth a, .truth b => .ok (!a && b)

/-- The outcome of a test; an operator that is no test repeats the last verdict. -/
def test (last : Option Value) (op : Operator) (left right : Value) : Except RunError Value :=
  match op with
  | .eq => .ok (.truth (same left right))
  | .greater => .truth <$> before right left
  | .geq => do return .truth ((← before right left) || same right left)
  | .less => .truth <$> before left right
  | .leq => do return .truth ((← before left right) || same left right)
  | .and => .ok (if left.isTrue then right else left)
  | .or => .ok (if left.isTrue then left else right)
  | _ =>
    match last with
    | some v => .ok v
    | none => .error .noVerdict

/-- How often a value says to repeat. -/
def repetitions? : Value → Option Nat
  | .term t =>
    match t.expr with
    | .ok (.rational q) => if q.den == 1 && !q.negated then some q.num else none
    | _ => none
  | .truth _ => none

/-- The terms that a loop runs over: the members of a sum or a product, or the value alone. -/
def range : Value → Except RunError (List Term)
  | .term t => .ok (t.members.getD [t])
  | .truth _ => .error .notNode

/-! ### Steps -/

/-- Looks at a node for the first time. -/
def visit (f : Frame) : Ast → Except RunError Frame
  | .block is => .ok (f.todo (is.map .visit))
  | .assign name (.term t) => .ok { f with memory := f.memory.set name (.term t) }
  | .assign name e => .ok (f.todo [.visit e, .resume (.assign name e)])
  | .foreachLoop name source body =>
    let enterLoop := [.visit source, .resume (.foreachLoop name source body)]
    match f.memory.find? name with
    | some (.term t) => .ok (f.todo (enterLoop ++ [.bind name t]))
    | some (.truth _) => .error .notNode
    | none => .ok { f.todo (enterLoop ++ [.forget]) with loopName := some name }
  | .ifThen test body => .ok (f.todo [.visit test, .resume (.ifThen test body)])
  | .ifElse test body other => .ok (f.todo [.visit test, .resume (.ifElse test body other)])
  | .repeatLoop count body => .ok (f.todo [.visit count, .resume (.repeatLoop count body)])
  | .giveBack e => .ok (f.todo [.visit e, .resume (.giveBack e)])
  | .whileLoop test body => .ok (f.todo [.visit test, .resume (.whileLoop test body)])
  | .nat negated digits =>
    match Text.natural? digits with
    | some n => .ok (f.pushTerm (.rational ((Fraction.ofNat n).withSign negated).reduce))
    | none => .error .badDigits
  | .sym negated letter =>
    match letter.toList with
    | [c] =>
      if Text.isLetter c then .ok (f.pushTerm (.symbol negated c))
      else .error (.algebra .notLetter)
    | _ => .error (.algebra .manyLetters)
  | .id _ name =>
    match f.memory.find? name with
    | some (.term t) => do return f.pushTerm (← ofAlgebra t.fresh)
    | some (.truth _) => .error .notTerm
    | none => f.complain (.unbound name)
  | .binary s op a b => .ok (f.todo [.visit b, .visit a, .resume (.binary s op a b)])
  | .compare s op a b => .ok (f.todo [.visit b, .visit a, .resume (.compare s op a b)])
  | .truth negated value =>
    .ok ({ f with verdict := some (.truth value) }.push (.truth (value != negated)))
  | .call name args => .ok (f.todo ((args.map .visit).reverse ++ [.resume (.call name args)]))
  | t => f.complain (.unknownNode t.kind)

/-- Goes on with a node, other than a call and a return, whose parts have been evaluated. -/
def resume (f : Frame) : Ast → Except RunError Frame
  | .assign name _ => do
    let (v, f) ← f.pop
    return { f with memory := f.memory.set name v }
  | .foreachLoop name _ body => do
    let (v, f) ← f.pop
    let ts ← range v
    return f.todo (ts.reverse.flatMap fun t => [.bind name t, .visit body])
  | .ifThen _ body => do
    let (v, f) ← f.pop
    return if v.isTrue then f.todo [.visit body] else f
  | .ifElse _ body other => do
    let (v, f) ← f.pop
    return f.todo [.visit (if v.isTrue then body else other)]
  | .repeatLoop _ body => do
    let (v, f) ← f.pop
    match repetitions? v with
    | some n => return f.todo (List.replicate n (.visit body))
    | none => f.complain .badRepeat
  | .whileLoop test body => do
    let (v, f) ← f.pop
    return if v.isTrue then f.todo [.visit body, .visit (.whileLoop test body)] else f
  | .binary negated op _ _ => do
    let (left, f) ← f.pop
    let (right, f) ← f.pop
    match ← arithmetic negated op left right with
    | some e => return f.pushTerm e
    | none => return f
  | .compare negated op _ _ => do
    let (left, f) ← f.pop
    let (right, f) ← f.pop
    let v ← test f.verdict op left right
    return { f with verdict := some v }.push (.truth (v.differsFrom negated))
  | t => f.complain (.unknownNode t.kind)

/-- Leaves the topmost frame with a value. -/
def leave (e : Expr) : List Frame → StepResult
  | [] => .returned e
  | f :: rest => .next (f.pushTerm e, rest)

/-- One step. -/
def step (functions : List FunctionDef) : State → Except RunError StepResult
  | (f, callers) =>
    match f.work with
    | [] => f.complain (.noReturn f.function)
    | w :: ws =>
      let f := { f with work := ws }
      match w with
      | .visit t => do return .next (← visit f t, callers)
      | .resume (.giveBack _) => do
        match ← f.pop with
        | (.term t, _) => return leave (← ofAlgebra t.simplify) callers
        | (.truth _, _) => .error .notTerm
      | .resume (.call name args) => do
        let (vs, f) ← f.popMany args.length
        let f := { f with function := name }
        match ← enter functions name (vs.map .value) with
        | .frame g => return .next (g, f :: callers)
        | .value t => return .next (f.push (.term t), callers)
      | .resume t => do return .next (← resume f t, callers)
      | .bind name t => .ok (.next ({ f with memory := f.memory.set name (.term t) }, callers))
      | .forget =>
        match f.loopName with
        | some name =>
          if f.memory.holds name then
            .ok (.next ({ f with memory := f.memory.erase name }, callers))
          else .error (.noBinding name)
        | none => .error (.noBinding "")

/-- Takes at most the given number of steps. -/
def run (functions : List FunctionDef) : Nat → State → Except RunError Expr
  | 0, _ => .error .endless
  | n + 1, s =>
    match step functions s with
    | .ok (.next s) => run functions n s
    | .ok (.returned e) => .ok e
    | .error e => .error e

/-- Calls a function, with a bound on the number of steps. -/
def call (fuel : Nat) (functions : List FunctionDef) (name : String) (arguments : List Argument) :
    Except RunError Term := do
  match ← enter functions name arguments with
  | .frame f => .tree <$> run functions fuel (f, [])
  | .value t => return t

end Machine

/-- Why a program cannot be run at all. -/
inductive LoadError where
  /-- A function has the name of a library function. -/
  | libraryName (name : String)
  /-- Two functions with one name and the same number of parameters. -/
  | duplicate (name : String)
  /-- A part of the program that is no function. -/
  | notFunction
deriving DecidableEq, Repr

namespace LoadError

/-- What is written to the log. -/
def complaint? : LoadError → Option String
  | libraryName name =>
    some ("Function " ++ name ++ " has the same name of a Luppolo Library Function. Not allowed.")
  | duplicate name => some ("Function " ++ name ++ " defined multiple times.")
  | notFunction => none

def message : LoadError → Option String
  | notFunction => none
  | _ =>
    some "An error occurred during the initialization of the interpreter. Read logs for more info."

end LoadError

namespace FunctionDef

def ofAst? : Ast → Option FunctionDef
  | .function name parameters body => some { name, parameters, body }
  | _ => none

/-- Functions of one name and one number of parameters. -/
def clashes (f g : FunctionDef) : Bool :=
  f.name == g.name && f.parameters.length == g.parameters.length

/-- Checks the functions one after the other, `all` being all the nodes of the program. -/
def check (all : List Ast) : List Ast → Except LoadError Unit
  | [] => .ok ()
  | t :: ts =>
    match ofAst? t with
    | none => .error .notFunction
    | some f =>
      if (LibraryFunction.ofName? f.name).isSome then .error (.libraryName f.name)
      else match all.mapM ofAst? with
        | none => .error .notFunction
        | some fs => if 1 < fs.countP (clashes f) then .error (.duplicate f.name) else check all ts

/-- The functions of a program that can be run. -/
def load (nodes : List Ast) : Except LoadError (List FunctionDef) := do
  check nodes nodes
  return nodes.filterMap ofAst?

end FunctionDef

end SymScript
