import SymScript.TermGraph
import SymScript.Expr.Simplify
import SymScript.Expr.Expand
import SymScript.Expr.Derive
import SymScript.Expr.Substitute

/-!
# Operations that change their receiver

Simplifying, expanding and substituting replace the children of every node that they visit; what
they build from the new children is fresh and follows the rules for plain expressions. A failed
operation leaves the changes made before the failure.
-/

namespace SymScript.TermGraph

/-- A computation on a term graph whose changes outlive a failure. -/
abbrev Edit := ExceptT AlgebraError (StateM TermGraph)

namespace Edit

def node (r : Ref) : Edit TermNode := return (← get).node r

def expr (r : Ref) : Edit Expr := do
  match (← get).expr r with
  | .ok e => return e
  | .error x => throw x

def exprs (rs : List Ref) : Edit (List Expr) := rs.mapM expr

def add (e : Expr) : Edit Ref := modifyGet fun g => g.add e

def setChildren (r : Ref) (cs : List Ref) : Edit Unit := modify fun g => g.setChildren r cs

def ofExcept {α : Type} : Except AlgebraError α → Edit α
  | .ok a => return a
  | .error x => throw x

/-- Fresh nodes for the outcome of a plain computation. -/
def addResult (r : Except AlgebraError Expr) : Edit Ref := do add (← ofExcept r)

/-! ### Simplifying -/

def simplifySum (r : Ref) (es : List Expr) : Edit Ref := do
  addResult (Expr.finishSum Expr.simplify (← node r).negated es)

/-- The factors of a product that is not a number lose their signs. -/
def simplifyProduct (r : Ref) (es : List Expr) : Edit Ref := do
  if (Expr.numbers? es).isNone then
    setChildren r (← (Expr.unsigned es).mapM add)
  addResult (Expr.finishProduct Expr.simplify (← node r).negated es)

/-- A power takes over the sign of its base. -/
def simplifyPower (r : Ref) (b e : Expr) : Edit Ref := do
  let negated := (← node r).negated
  let exact ← ofExcept (Expr.exactPower? b e)
  if exact.isNone && Expr.powerRule b e == .negatedBase then
    modify fun g => g.update r fun n => { n with negated := !n.negated }
  addResult (Expr.finishPower Expr.simplify negated b e)

def simplifyWithin : Nat → Ref → Edit Ref
  | 0, _ => throw .endless
  | fuel + 1, r => do
    let n ← node r
    match n.head with
    | .rational .. => addResult (← expr r).simplify
    | .symbol _ => return r
    | .sum => do
      let cs ← n.children.mapM (simplifyWithin fuel)
      setChildren r cs
      simplifySum r (← exprs cs)
    | .product => do
      let cs ← n.children.mapM (simplifyWithin fuel)
      setChildren r cs
      simplifyProduct r (← exprs cs)
    | .power => do
      let cs ← n.children.mapM (simplifyWithin fuel)
      setChildren r cs
      match ← exprs cs with
      | b :: e :: _ => simplifyPower r b e
      | _ => throw .noChild

def simplify (r : Ref) : Edit Ref := do simplifyWithin (← get).depthBound r

/-! ### Expanding -/

mutual

/-- Fresh nodes for the receiver of an expansion: the children that it got have no parent. -/
def addExpandedBelow (parent : Option (Shape × String)) : Expr → TermGraph → Ref × TermGraph
  | .sum s es, g =>
    let (children, g) := if s then addExpandedAllBelow none es g else addAllBelow none es g
    g.push { head := .sum, negated := s, name := (Expr.sum s []).name, children, parent }
  | .product s es, g =>
    let (children, g) := addAllBelow none es g
    g.push { head := .product, negated := s, name := (Expr.product s []).name, children, parent }
  | .power s b e, g =>
    let name := (Expr.power s b e).name
    let (r, g) := addExpandedBelow (some (.power, name)) b g
    let (t, g) := addExpandedBelow (some (.power, name)) e g
    g.push { head := .power, negated := s, name, children := [r, t], parent }
  | e, g => addBelow parent e g

def addExpandedAllBelow (parent : Option (Shape × String)) :
    List Expr → TermGraph → List Ref × TermGraph
  | [], g => ([], g)
  | e :: es, g =>
    let (r, g) := addExpandedBelow parent e g
    let (rs, g) := addExpandedAllBelow parent es g
    (r :: rs, g)

end

def addExpanded (e : Expr) : Edit Ref := modifyGet (addExpandedBelow none e)

/-- A negated sum expands its addends once more and passes its sign on to them. -/
def expandSum (r : Ref) (es : List Expr) : Edit Ref := do
  if (← node r).negated then
    let again ← es.mapM fun e => ofExcept e.expand
    setChildren r (← again.mapM fun x => addExpanded x.receiver)
    add (Expr.expandNegatedSum es again)
  else add (Expr.mkSum false es)

def expandWithin : Nat → Ref → Edit Ref
  | 0, _ => throw .endless
  | fuel + 1, r => do
    let n ← node r
    match n.head with
    | .rational .. | .symbol _ => add (← expr r).copy
    | .sum => do
      let cs ← n.children.mapM (expandWithin fuel)
      setChildren r cs
      expandSum r (← exprs cs)
    | .product => do
      let cs ← n.children.mapM (expandWithin fuel)
      setChildren r cs
      add (Expr.expandProduct n.negated (← exprs cs))
    | .power => do
      match n.children with
      | b :: e :: _ =>
        match ← expr e with
        | .rational q => do
          let x ← expandWithin fuel b
          addResult (Expr.expandPower n.negated (← expr x) q)
        | _ => do
          let x ← expandWithin fuel b
          let y ← expandWithin fuel e
          add (Expr.mkPower n.negated (← expr x) (← expr y))
      | _ => throw .noChild

def expand (r : Ref) : Edit Ref := do expandWithin (← get).depthBound r

/-- Expands until the result is the same as the changed receiver, and gives that receiver. -/
def expandAll (r : Ref) : Edit Ref := do
  let x ← expand r
  if (← get).eq r x then return r
  else addExpanded (← ofExcept (← expr x).expandAll)

/-! ### Substituting and deriving -/

def substituteWithin (old new : Ref) : Nat → Ref → Edit Ref
  | 0, _ => throw .endless
  | fuel + 1, r => do
    let cs ← (← node r).children.mapM (substituteWithin old new fuel)
    setChildren r cs
    return if (← get).eq r old then new else r

/-- Replaces every part equal to `old` by the node `new`, which all places then share. -/
def substitute (old new r : Ref) : Edit Ref := do
  substituteWithin old new (← get).depthBound r

def derive (r x : Ref) : Edit Ref := do addResult ((← expr r).derive (← expr x))

/-! ### Children -/

/-- A copy below a node, in order, with another sign if one is given. -/
def copy (r : Ref) (negated : Option Bool) : Edit Ref := do
  let e ← expr r
  add (match negated with
    | some s => e.withSign s
    | none => e.copy)

/-- Attaches a node as the last child. -/
def attach (r c : Ref) : Edit Unit := do
  let n ← node r
  modify fun g => g.update c fun m => { m with parent := some (n.shape, n.name) }
  modify fun g => g.update r fun m => { m with children := m.children ++ [c] }

end Edit

end SymScript.TermGraph
