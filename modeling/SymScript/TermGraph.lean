import SymScript.Expr.Latex
import SymScript.RawText

/-!
# Expressions with identity

In a term graph a node is a place that several parents may share and that operations change. A node
keeps the name it got when it was made, and the parent it was last attached to; neither follows from
its place. `TermGraph.expr` reads the plain expression below a node, and `TermGraph.add` makes fresh
nodes for one.
-/

namespace SymScript

/-- A place in a term graph. -/
abbrev Ref := Nat

inductive TermHead where
  | rational (num den : Nat)
  | symbol (letter : Char)
  | sum
  | product
  | power
deriving DecidableEq, Repr

def TermHead.shape : TermHead → Shape
  | rational .. => .rational
  | symbol _ => .symbol
  | sum => .sum
  | product => .product
  | power => .power

structure TermNode where
  head : TermHead
  negated : Bool
  name : String
  children : List Ref := []
  /-- The shape and the name of the parent. -/
  parent : Option (Shape × String) := none
deriving DecidableEq, Repr

namespace TermNode

instance : Inhabited TermNode := ⟨{ head := .rational 0 1, negated := false, name := "0" }⟩

def shape (n : TermNode) : Shape := n.head.shape

/-- The name without the minus of a negated leaf; the mark of a compound node. -/
def payload (n : TermNode) : String :=
  match n.head with
  | .rational .. => if n.negated then String.ofList (n.name.toList.drop 1) else n.name
  | .symbol c => c.toString
  | h => h.shape.mark

end TermNode

structure TermGraph where
  nodes : Array TermNode := #[]

namespace TermGraph

def node (g : TermGraph) (r : Ref) : TermNode := g.nodes.getD r default

def push (g : TermGraph) (n : TermNode) : Ref × TermGraph := (g.nodes.size, ⟨g.nodes.push n⟩)

def update (g : TermGraph) (r : Ref) (f : TermNode → TermNode) : TermGraph :=
  ⟨g.nodes.modify r f⟩

def setChildren (g : TermGraph) (r : Ref) (cs : List Ref) : TermGraph :=
  g.update r fun n => { n with children := cs }

/-- Longer than any path without a repeated node. -/
def depthBound (g : TermGraph) : Nat := g.nodes.size + 1

/-! ### Reading and making expressions -/

/-- The expression of a node whose children are read; a leaf has none. -/
def assemble (n : TermNode) (es : List Expr) : Expr :=
  match n.head, es with
  | .rational p d, _ =>
    if h : d = 0 then .ofNat p
    else .rational { negated := n.negated, num := p, den := d, den_ne := h }
  | .symbol c, _ => .symbol n.negated c
  | .sum, es => .sum n.negated es
  | .product, es => .product n.negated es
  | .power, b :: e :: _ => .power n.negated b e
  | .power, es => .product n.negated es

def exprWithin (g : TermGraph) : Nat → Ref → Except AlgebraError Expr
  | 0, _ => .error .endless
  | fuel + 1, r => do
    let n := g.node r
    return assemble n (← n.children.mapM (g.exprWithin fuel))

/-- The expression below a node, in the order of its children. -/
def expr (g : TermGraph) (r : Ref) : Except AlgebraError Expr := g.exprWithin g.depthBound r

def headOf : Expr → TermHead
  | .rational q => .rational q.num q.den
  | .symbol _ c => .symbol c
  | .sum .. => .sum
  | .product .. => .product
  | .power .. => .power

mutual

/-- Fresh nodes for an expression below a parent. -/
def addBelow (parent : Option (Shape × String)) : Expr → TermGraph → Ref × TermGraph
  | .rational q, g =>
    g.push { head := headOf (.rational q), negated := q.negated, name := q.name, parent }
  | .symbol s c, g =>
    g.push { head := .symbol c, negated := s, name := (Expr.symbol s c).name, parent }
  | .sum s es, g =>
    let name := (Expr.sum s []).name
    let (children, g) := addAllBelow (some (.sum, name)) es g
    g.push { head := .sum, negated := s, name, children, parent }
  | .product s es, g =>
    let name := (Expr.product s []).name
    let (children, g) := addAllBelow (some (.product, name)) es g
    g.push { head := .product, negated := s, name, children, parent }
  | .power s b e, g =>
    let name := (Expr.power s b e).name
    let (r, g) := addBelow (some (.power, name)) b g
    let (t, g) := addBelow (some (.power, name)) e g
    g.push { head := .power, negated := s, name, children := [r, t], parent }

def addAllBelow (parent : Option (Shape × String)) : List Expr → TermGraph → List Ref × TermGraph
  | [], g => ([], g)
  | e :: es, g =>
    let (r, g) := addBelow parent e g
    let (rs, g) := addAllBelow parent es g
    (r :: rs, g)

end

/-- Fresh nodes for an expression, without a parent. -/
def add (g : TermGraph) (e : Expr) : Ref × TermGraph := addBelow none e g

/-! ### Equality and order -/

/-- Equality of shape, name, sign and children in order. -/
def eqWithin (g : TermGraph) : Nat → Ref → Ref → Bool
  | 0, _, _ => false
  | fuel + 1, a, b =>
    a == b ||
    let m := g.node a
    let n := g.node b
    m.shape == n.shape && m.name == n.name && m.negated == n.negated &&
      m.children.length == n.children.length &&
      (m.children.zip n.children).all fun p => g.eqWithin fuel p.1 p.2

def eq (g : TermGraph) (a b : Ref) : Bool := g.eqWithin g.depthBound a b

/-- The first place where two lists differ. -/
def firstDifference (same : Ref → Ref → Bool) : List Ref → List Ref → Option (Ref × Ref)
  | a :: as, b :: bs => if same a b then firstDifference same as bs else some (a, b)
  | _, _ => none

/-- The order of children: by rank, by children where there are some, else by name. -/
def ltWithin (g : TermGraph) : Nat → Ref → Ref → Bool
  | 0, _, _ => false
  | fuel + 1, a, b =>
    let m := g.node a
    let n := g.node b
    if m.shape != n.shape then m.shape.rank < n.shape.rank
    else if m.children.isEmpty then m.name < n.name
    else match firstDifference g.eq m.children n.children with
      | some (x, y) => g.ltWithin fuel x y
      | none => m.children.length < n.children.length

def lt (g : TermGraph) (a b : Ref) : Bool := g.ltWithin g.depthBound a b

/-! ### Text -/

def rawWithin (g : TermGraph) : Nat → Ref → Except AlgebraError String
  | 0, _ => .error .endless
  | fuel + 1, r => do
    let n := g.node r
    return RawText.node n.payload (← n.children.mapM (g.rawWithin fuel))

def raw (g : TermGraph) (r : Ref) : Except AlgebraError String := g.rawWithin g.depthBound r

/-- The formula of a node: a sum stands in parentheses when its parent is a product or a power, and
an exponent is written as a fresh copy. -/
def formulaWithin (g : TermGraph) : Nat → Ref → Except AlgebraError Formula
  | 0, _ => .error .endless
  | fuel + 1, r =>
    let n := g.node r
    match n.head, n.children with
    | .rational p d, _ => .ok (.number n.negated p d)
    | .symbol c, _ => .ok (.letter n.negated c)
    | .sum, cs => do
      return .sum n.negated (Expr.groups (n.parent.map Prod.fst))
        (← cs.mapM (g.formulaWithin fuel))
    | .product, cs => do return .product n.negated (← cs.mapM (g.formulaWithin fuel))
    | .power, b :: e :: _ => do
      let base ← g.formulaWithin fuel b
      let exponent ← g.expr e
      return .power n.negated (g.node e).negated base (exponent.withSign false).formula
    | .power, _ => .error .noChild

def latex (g : TermGraph) (r : Ref) : Except AlgebraError String := do
  return (← g.formulaWithin g.depthBound r).render false

end TermGraph

end SymScript
