import SymScript.Drawing
import SymScript.TermGraph.Functions
import SymScript.TermSpec
import SymScript.TermView

/-!
# A workbench for terms

Registers hold terms and plain values; a step applies one operation to what a register holds, and
may store its result. Registers share terms: a step that changes a term is seen through all of them.
-/

namespace SymScript

/-- What a step does to its receiver. -/
inductive Action where
  | new
  | simplify
  | expand
  | substitute
  | derive
  | isZero
  | isOne
  | parts
  | payload
  | child
  | childCount
  | attach
  | copy (negated : Option Bool)
  | lt
  | eq
  | number (op : NumberOp)
  | latex
  | raw
  | parent
  | call (function : String)
  | draw (attributes : Attributes)

structure Step where
  action : Action
  on : Option String := none
  arguments : List TermSpec := []
  target : Option String := none

/-- What an operation gives. -/
inductive Outcome where
  | datum (d : Datum)
  /-- A set of expressions. -/
  | found (es : List Expr)
  | drawing (d : Drawing)

structure Workbench where
  graph : TermGraph := {}
  registers : List (String × Datum) := []

/-- A value to look at. -/
inductive DatumView where
  | term (t : TermView)
  | plain (s : Scalar)
  | pair (first second : DatumView)

inductive OutcomeView where
  | datum (d : DatumView)
  | found (es : List TermView)
  | drawing (d : Drawing)

inductive StepAnswer where
  /-- The step names a register that holds nothing. -/
  | noRegister
  /-- The outcome, and the receiver after the step. -/
  | done (outcome : Except AlgebraError OutcomeView) (receiver : Option DatumView)

namespace TermGraph.Edit

def yes (b : Bool) : Outcome := .datum (.plain (.bool b))

def text (s : String) : Outcome := .datum (.plain (.text s))

def giving (r : Ref) : Outcome := .datum (.term r)

def read {α : Type} (f : TermGraph → Except AlgebraError α) : Edit α := do ofExcept (f (← get))

/-- Equality of any two values; a term equals no plain value. -/
def same : Datum → Datum → Edit Bool
  | .term a, .term b => return (← get).eq a b
  | .plain a, .plain b => return a == b
  | .pair a b, .pair c d => do
    if ← same a c then same b d else return false
  | _, _ => return false

def before : Datum → Datum → Edit Bool
  | .term a, .term b => return (← get).lt a b
  | .term _, d => throw (.unranked d.kind)
  | .plain a, .plain b =>
    match a.lt? b with
    | some r => return r
    | none => throw .badOperands
  | _, _ => throw .badOperands

/-- The child at a position; positions below zero count from the end. -/
def childAt (cs : List Ref) (i : Int) : Edit Ref :=
  let place := if i < 0 then i + cs.length else i
  match (if place < 0 then none else cs[place.toNat]?) with
  | some r => return r
  | none => throw .noChild

def addPowerOf (a b : Fraction) : Edit Outcome := do
  let p ← ofExcept (a.pow b)
  let r ← modifyGet fun g => g.push {
    head := .rational p.value.num p.value.den, negated := false, name := p.digits }
  return .datum (.pair (.term r) (.plain (.bool p.approximate)))

def numberOp (op : NumberOp) (r : Ref) (d : Datum) : Edit Outcome := do
  match ← expr r, d with
  | .rational a, .term s =>
    match ← expr s with
    | .rational b =>
      match op with
      | .addition => giving <$> add (.rational (a + b))
      | .multiplication => giving <$> add (.rational (a * b))
      | .power => addPowerOf a b
    | _ => throw (.notNumber op)
  | .rational _, _ => throw (.notNumber op)
  | _, _ => throw .badOperands

def isNumber (n : TermNode) : Bool := n.shape == .rational

def partsNamed (word : String) (e : Expr) : List Expr :=
  match [Shape.rational, .symbol, .sum, .product, .power].find? (·.word == word) with
  | some k => e.parts k
  | none => []

/-- Applies an action to a term. -/
def applyTo (r : Ref) (action : Action) (arguments : List Datum) : Edit Outcome := do
  let n ← node r
  match action, arguments with
  | .simplify, [] => giving <$> simplify r
  | .expand, [] => giving <$> expand r
  | .substitute, [old, new] =>
    match old, new with
    | .term old, .term new => giving <$> substitute old new r
    | _, _ => return giving r
  | .derive, .term x :: _ => giving <$> derive r x
  | .derive, _ :: _ => throw .notSymbol
  | .derive, [] => throw .noChild
  | .isZero, _ =>
    if isNumber n then return yes ((← expr r).rational?.any Fraction.isZero)
    else throw .noOperation
  | .isOne, _ =>
    if isNumber n then return yes ((← expr r).rational?.any Fraction.isOne) else throw .noOperation
  | .parts, [.plain (.text word)] => return .found (partsNamed word (← expr r))
  | .parts, [_] => return .found []
  | .payload, [] => return text n.payload
  | .child, [.plain s] =>
    match s.number? with
    | some i => giving <$> childAt n.children i
    | none => throw .badOperands
  | .childCount, [] => return .datum (.plain (.int n.children.length))
  | .attach, [.term c] => do
    attach r c
    return .datum (.plain .nothing)
  | .attach, [_] => throw .notNode
  | .copy negated, _ => giving <$> copy r negated
  | .lt, d :: _ => yes <$> before (.term r) d
  | .eq, d :: _ => yes <$> same (.term r) d
  | .number op, d :: _ => numberOp op r d
  | .latex, _ => text <$> read fun g => g.latex r
  | .raw, _ => text <$> read fun g => g.raw r
  | .parent, _ =>
    match n.parent with
    | some (_, name) => return text name
    | none => return .datum (.plain .nothing)
  | .draw attributes, _ => .drawing <$> read fun g => g.draw attributes r
  | _, _ => throw .badOperands

/-- Applies an action to a value that is no term. -/
def applyToPlain (d : Datum) (action : Action) (arguments : List Datum) : Edit Outcome :=
  match action, arguments with
  | .lt, x :: _ => yes <$> before d x
  | .eq, x :: _ => yes <$> same d x
  | .number _, _ => throw .badOperands
  | _, _ => throw .noOperation

/-- Applies an action, with or without a receiver. -/
def apply (receiver : Option Datum) (action : Action) (arguments : List Datum) : Edit Outcome :=
  match action, receiver, arguments with
  | .new, _, d :: _ => return .datum d
  | .call name, _, ds =>
    match LibraryFunction.ofName? name with
    | some f => giving <$> call f (ds.map Datum.term?)
    | none => throw (.unranked name)
  | action, some (.term r), ds => applyTo r action ds
  | action, some d, ds => applyToPlain d action ds
  | _, none, _ => throw .noOperation

end TermGraph.Edit

namespace Workbench

open TermGraph

def viewDatum (g : TermGraph) : Datum → Except AlgebraError DatumView
  | .term r => do return .term (← g.view r)
  | .plain s => .ok (.plain s)
  | .pair a b => do return .pair (← viewDatum g a) (← viewDatum g b)

def viewOutcome (g : TermGraph) : Outcome → Except AlgebraError OutcomeView
  | .datum d => do return .datum (← viewDatum g d)
  | .found es => .ok (.found (es.map Expr.view))
  | .drawing d => .ok (.drawing d)

/-- Puts a value into a register. -/
def store (name : String) (d : Datum) : List (String × Datum) → List (String × Datum)
  | [] => [(name, d)]
  | (n, x) :: rest => if n == name then (n, d) :: rest else (n, x) :: store name d rest

def holds (w : Workbench) (name : String) : Bool := (w.registers.lookup name).isSome

/-- The registers that a step reads. -/
def reads (s : Step) : List String := s.on.toList ++ TermSpec.registersAll s.arguments

/-- Sets of expressions and drawings are not stored. -/
def storeOutcome (w : Workbench) (target : Option String) : Outcome → Workbench
  | .datum d =>
    match target with
    | some name => { w with registers := store name d w.registers }
    | none => w
  | _ => w

def step (w : Workbench) (s : Step) : Workbench × StepAnswer :=
  if (reads s).all w.holds then
    let receiver := s.on.bind fun name => w.registers.lookup name
    let run : Edit Outcome := do
      let ds ← Edit.buildAll w.registers s.arguments
      Edit.apply receiver s.action ds
    let (result, g) := (run.run).run w.graph
    let w := { w with graph := g }
    let after := receiver.bind fun d => (viewDatum g d).toOption
    match result with
    | .ok o => (w.storeOutcome s.target o, .done (viewOutcome g o) after)
    | .error x => (w, .done (.error x) after)
  else (w, .noRegister)

/-- Takes the steps one after the other on an empty workbench. -/
def run (steps : List Step) : List StepAnswer :=
  let next := fun (acc : Workbench × List StepAnswer) (s : Step) =>
    let (w, a) := acc.1.step s
    (w, a :: acc.2)
  (steps.foldl next ({}, [])).2.reverse

end Workbench

end SymScript
