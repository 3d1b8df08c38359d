import SymScript.Machine

/-!
# What programs mean

A recursive reading of programs.  Expressions have terms as values, conditions have truth values,
and instructions change the variables of their activation or end it with a result.  Every rule is a
function that takes the evaluators for what a node is made of; `evaluator` closes the rules with a
bound on the depth, and runs out of it on a program that does not end.

The rule for the end of a loop that found its variable unbound is a parameter, `Exit`.
-/

namespace SymScript

deriving instance DecidableEq for TermGraph
deriving instance DecidableEq for Term

instance decidableEqExcept {ε α : Type} [DecidableEq ε] [DecidableEq α] : DecidableEq (Except ε α)
  | .ok a, .ok b => decidable_of_iff (a = b) (by rw [Except.ok.injEq])
  | .error a, .error b => decidable_of_iff (a = b) (by rw [Except.error.injEq])
  | .ok _, .error _ | .error _, .ok _ => isFalse nofun

namespace Semantics

/-! ### Grammar -/

def isArithmetic : Operator → Bool
  | .sum | .sub | .mul | .div | .pow => true
  | _ => false

def isComparison : Operator → Bool
  | .leq | .less | .eq | .greater | .geq => true
  | _ => false

def isConnective : Operator → Bool
  | .and | .or => true
  | _ => false

mutual

/-- Numbers, letters, variables, arithmetic and calls. -/
def IsExpression : Ast → Prop
  | .nat .. | .sym .. | .id .. => True
  | .binary _ op a b => isArithmetic op = true ∧ IsExpression a ∧ IsExpression b
  | .call _ as => AreExpressions as
  | _ => False

def AreExpressions : List Ast → Prop
  | [] => True
  | a :: as => IsExpression a ∧ AreExpressions as

end

/-- Truth values, comparisons of expressions and connectives of conditions. -/
def IsCondition : Ast → Prop
  | .truth .. => True
  | .compare _ op a b => (isComparison op = true ∧ IsExpression a ∧ IsExpression b) ∨
      (isConnective op = true ∧ IsCondition a ∧ IsCondition b)
  | _ => False

mutual

def IsInstruction : Ast → Prop
  | .block is => AreInstructions is
  | .assign _ e => IsExpression e
  | .foreachLoop _ e i => IsExpression e ∧ IsInstruction i
  | .ifThen c i => IsCondition c ∧ IsInstruction i
  | .ifElse c i j => IsCondition c ∧ IsInstruction i ∧ IsInstruction j
  | .repeatLoop e i => IsExpression e ∧ IsInstruction i
  | .giveBack e => IsExpression e
  | .whileLoop c i => IsCondition c ∧ IsInstruction i
  | _ => False

def AreInstructions : List Ast → Prop
  | [] => True
  | i :: is => IsInstruction i ∧ AreInstructions is

end

theorem areExpressions_iff {as : List Ast} : AreExpressions as ↔ ∀ a ∈ as, IsExpression a := by
  induction as with
  | nil => exact iff_of_true trivial (List.forall_mem_nil _)
  | cons a as ih => exact (and_congr_right fun _ => ih).trans List.forall_mem_cons.symm

theorem areInstructions_iff {is : List Ast} : AreInstructions is ↔ ∀ i ∈ is, IsInstruction i := by
  induction is with
  | nil => exact iff_of_true trivial (List.forall_mem_nil _)
  | cons i is ih => exact (and_congr_right fun _ => ih).trans List.forall_mem_cons.symm

/-- What a call from outside may pass: a value, or an expression. -/
def IsArgument : Argument → Prop
  | .node (.term _) => True
  | .node t => IsExpression t
  | _ => True

/-! ### Outcomes -/

/-- Why an activation has no result. -/
inductive Failure where
  /-- No function has the name and the number of arguments. -/
  | notFound (function : String)
  | sameParameters (function : String)
  | notExpressions (function : String)
  | badRepeat
  | unbound (variableName : String)
  | noReturn
  | algebra (e : AlgebraError)
  | badDigits
  /-- A variable to remove is not there. -/
  | nothingToRemove (variableName : String)
  /-- A loop has ended after another one that was entered in it. -/
  | tangled
  /-- The node has no place in the grammar. -/
  | ungrammatical
  /-- The bound on the depth was too small. -/
  | endless
deriving DecidableEq

abbrev Outcome (α : Type) := Except Failure α

def ofAlgebra {α : Type} : Except AlgebraError α → Outcome α
  | .ok a => .ok a
  | .error e => .error (.algebra e)

/-- The variables of an activation. -/
def Store := String → Option Term

namespace Store

def empty : Store := fun _ => none

def set (σ : Store) (x : String) (t : Term) : Store := fun y => if y = x then some t else σ y

def erase (σ : Store) (x : String) : Store := fun y => if y = x then none else σ y

end Store

structure Activation where
  store : Store := .empty
  /-- The variable of the loop that was entered last and found it unbound. -/
  loop : Option String := none

namespace Activation

def set (a : Activation) (x : String) (t : Term) : Activation := { a with store := a.store.set x t }

def erase (a : Activation) (x : String) : Activation := { a with store := a.store.erase x }

end Activation

/-- How an instruction ends. -/
inductive Flow where
  | next (a : Activation)
  | returned (e : Expr)

/-! ### The end of a loop -/

/-- The variable to remove at the end of a loop, from the variable of this loop and from the one of
the loop that was entered last. -/
abbrev Exit := String → Option String → Outcome String

/-- Every loop removes its own variable. -/
def ownVariable : Exit := fun x _ => .ok x

/-- Every loop removes the variable of the loop that was entered last. -/
def lastEntered : Exit := fun _ last =>
  match last with
  | some y => .ok y
  | none => .error (.nothingToRemove "")

/-- Loops remove variables only where the two agree. -/
def agreeing : Exit := fun x last => if last = some x then .ok x else .error .tangled

/-- Gives the variable of a loop its old value back, or removes it. -/
def leaveLoop (exit : Exit) (x : String) (old : Option Term) (a : Activation) :
    Outcome Activation :=
  match old with
  | some t => .ok (a.set x t)
  | none => do
    let y ← exit x a.loop
    if (a.store y).isSome then .ok (a.erase y) else .error (.nothingToRemove y)

/-! ### Operators -/

/-- The node that an operator makes of its operands. -/
def combine? (negated : Bool) (op : Operator) (a b : Expr) : Option Expr :=
  match op with
  | .sum => some (Expr.mkSum negated [a, b])
  | .sub => some (Expr.mkSum negated [a, b.flip])
  | .mul => some (Expr.mkProduct negated [a, b])
  | .div => some (Expr.mkProduct negated [a, Expr.mkPower false b (.rational (.ofInt (-1)))])
  | .pow => some (Expr.mkPower negated a b)
  | _ => none

/-- The sum, difference, product, quotient or power of two terms, simplified. -/
def operate (negated : Bool) (op : Operator) (left right : Term) : Outcome Term := do
  let a ← ofAlgebra left.expr
  let b ← ofAlgebra right.expr
  match combine? negated op a b with
  | some e => Term.tree <$> ofAlgebra e.simplify
  | none => .error .ungrammatical

def compareTerms (op : Operator) (left right : Term) : Bool :=
  match op with
  | .eq => left.eq right
  | .less => left.lt right
  | .leq => left.lt right || left.eq right
  | .greater => right.lt left
  | .geq => right.lt left || right.eq left
  | _ => false

def connect (op : Operator) (left right : Bool) : Bool :=
  match op with
  | .and => left && right
  | .or => left || right
  | _ => false

/-- The whole number that a term is. -/
def count? (t : Term) : Option Nat :=
  match t.expr with
  | .ok (.rational q) => if q.den = 1 ∧ q.negated = false then some q.num else none
  | _ => none

/-! ### Rules -/

/-- The evaluators that the rules use for what a node is made of. -/
structure Evaluator where
  expression : Store → Ast → Outcome Term
  condition : Store → Ast → Outcome Bool
  instruction : Activation → Ast → Outcome Flow

/-- Runs something on each element in turn, until an element ends the activation. -/
def iterate {α : Type} (run : Activation → α → Outcome Flow) : Activation → List α → Outcome Flow
  | a, [] => .ok (.next a)
  | a, x :: xs => do
    match ← run a x with
    | .next a => iterate run a xs
    | .returned e => .ok (.returned e)

/-- Gives a parameter its value; an expression is evaluated where the function runs. -/
def assignArgument (E : Evaluator) (a : Activation) : String × Argument → Outcome Activation
  | (x, .value (.term t)) | (x, .node (.term t)) => .ok (a.set x t)
  | (x, .node e) => do return a.set x (← E.expression a.store e)
  | _ => .error .ungrammatical

/-- Runs a function in an activation of its own; the last parameter is assigned first. -/
def activate (E : Evaluator) (f : FunctionDef) (arguments : List Argument) : Outcome Expr := do
  let a ← (f.parameters.zip arguments).reverse.foldlM (assignArgument E) {}
  match ← E.instruction a f.body with
  | .returned e => .ok e
  | .next _ => .error .noReturn

/-- Calls the function with the name and the number of arguments, or else a library function. -/
def apply (functions : List FunctionDef) (E : Evaluator) (name : String)
    (arguments : List Argument) : Outcome Term :=
  match functions.find? fun f => f.name == name && f.parameters.length == arguments.length with
  | some f =>
    if ¬ f.parameters.Nodup then .error (.sameParameters name)
    else if ¬ arguments.all Argument.isExpression then .error (.notExpressions name)
    else .tree <$> activate E f arguments
  | none =>
    match LibraryFunction.ofName? name with
    | some l => ofAlgebra (Term.call l (arguments.map Argument.term?))
    | none => .error (.notFound name)

section Rules

variable (functions : List FunctionDef) (exit : Exit) (E : Evaluator)

/-- Operands are evaluated from right to left, arguments from the last to the first. -/
def expression (σ : Store) : Ast → Outcome Term
  | .nat negated digits =>
    match Text.natural? digits with
    | some n => .ok (.tree (.rational ((Fraction.ofNat n).withSign negated).reduce))
    | none => .error .badDigits
  | .sym negated letter =>
    match letter.toList with
    | [c] =>
      if Text.isLetter c then .ok (.tree (.symbol negated c)) else .error (.algebra .notLetter)
    | _ => .error (.algebra .manyLetters)
  | .id _ x =>
    match σ x with
    | some t => .tree <$> ofAlgebra t.fresh
    | none => .error (.unbound x)
  | .binary negated op left right => do
    let r ← E.expression σ right
    let l ← E.expression σ left
    operate negated op l r
  | .call name arguments => do
    let ts ← arguments.reverse.mapM (E.expression σ)
    apply functions E name (ts.reverse.map fun t => .value (.term t))
  | _ => .error .ungrammatical

def condition (σ : Store) : Ast → Outcome Bool
  | .truth negated value => .ok (value != negated)
  | .compare negated op left right =>
    if isConnective op then do
      let q ← E.condition σ right
      let p ← E.condition σ left
      return connect op p q != negated
    else do
      let r ← E.expression σ right
      let l ← E.expression σ left
      return compareTerms op l r != negated
  | _ => .error .ungrammatical

def instruction (a : Activation) : Ast → Outcome Flow
  | .block is => iterate E.instruction a is
  | .assign x e => do return .next (a.set x (← E.expression a.store e))
  | .ifThen c i => do if ← E.condition a.store c then E.instruction a i else return .next a
  | .ifElse c i j => do if ← E.condition a.store c then E.instruction a i else E.instruction a j
  | .repeatLoop e i => do
    match count? (← E.expression a.store e) with
    | some n => iterate E.instruction a (List.replicate n i)
    | none => .error .badRepeat
  | .whileLoop c i => do
    if ← E.condition a.store c then iterate E.instruction a [i, .whileLoop c i] else return .next a
  | .foreachLoop x e i => do
    let t ← E.expression a.store e
    let old := a.store x
    let a := if old.isSome then a else { a with loop := some x }
    match ← iterate (fun a t => E.instruction (a.set x t) i) a (t.members.getD [t]).reverse with
    | .next a => .next <$> leaveLoop exit x old a
    | .returned e => .ok (.returned e)
  | .giveBack e => do return .returned (← ofAlgebra (← E.expression a.store e).simplify)
  | _ => .error .ungrammatical

end Rules

/-- The evaluators for programs, with a bound on their depth. -/
def evaluator (functions : List FunctionDef) (exit : Exit) : Nat → Evaluator
  | 0 => ⟨fun _ _ => .error .endless, fun _ _ => .error .endless, fun _ _ => .error .endless⟩
  | n + 1 =>
    let E := evaluator functions exit n
    ⟨expression functions E, condition E, instruction exit E⟩

/-- What a call of a function means. -/
def call (functions : List FunctionDef) (exit : Exit) (bound : Nat) (name : String)
    (arguments : List Argument) : Outcome Term :=
  apply functions (evaluator functions exit bound) name arguments

end Semantics

end SymScript
