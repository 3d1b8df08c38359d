import SymScript.Drawing
import SymScript.TermGraph.Functions
import SymScript.TermView

/-!
# Terms

A term is a plain expression, or a node of a term graph where sharing, names and parents may matter.
-/

namespace SymScript

namespace TermGraph

/-- The nodes of a second graph after those of the first. -/
def append (g h : TermGraph) : TermGraph :=
  let offset := g.nodes.size
  ⟨g.nodes ++ h.nodes.map fun n => { n with children := n.children.map (· + offset) }⟩

end TermGraph

inductive Term where
  | tree (e : Expr)
  | graph (g : TermGraph) (r : Ref)

namespace Term

instance : Inhabited Term := ⟨.tree default⟩

def expr : Term → Except AlgebraError Expr
  | tree e => .ok e
  | graph g r => g.expr r

def shape : Term → Shape
  | tree e => e.shape
  | graph g r => (g.node r).shape

def view : Term → Except AlgebraError TermView
  | tree e => .ok e.view
  | graph g r => g.view r

def raw : Term → Except AlgebraError String
  | tree e => .ok e.raw
  | graph g r => g.raw r

def latex : Term → Except AlgebraError String
  | tree e => .ok e.latex
  | graph g r => g.latex r

/-- The term as a node of a graph. -/
def load (t : Term) (g : TermGraph) : Ref × TermGraph :=
  match t with
  | tree e => g.add e
  | graph h r => (g.nodes.size + r, g.append h)

def loadAll : List Term → TermGraph → List Ref × TermGraph
  | [], g => ([], g)
  | t :: ts, g =>
    let (r, g) := t.load g
    let (rs, g) := loadAll ts g
    (r :: rs, g)

def draw (t : Term) (attributes : Attributes) : Except AlgebraError Drawing :=
  let (r, g) := t.load {}
  g.draw attributes r

/-- The children of a sum or a product. -/
def members : Term → Option (List Term)
  | tree (.sum _ es) | tree (.product _ es) => some (es.map tree)
  | tree _ => none
  | graph g r =>
    match (g.node r).head with
    | .sum | .product => some ((g.node r).children.map (graph g))
    | _ => none

def eq : Term → Term → Bool
  | tree a, tree b => a == b
  | a, b =>
    let (r, g) := a.load {}
    let (s, g) := b.load g
    g.eq r s

def lt : Term → Term → Bool
  | tree a, tree b => a.lt b
  | a, b =>
    let (r, g) := a.load {}
    let (s, g) := b.load g
    g.lt r s

def simplify : Term → Except AlgebraError Expr
  | tree e => e.simplify
  | graph g r =>
    match ((TermGraph.Edit.simplify r).run).run g with
    | (.ok s, h) => h.expr s
    | (.error x, _) => .error x

/-- The simplified term, with what it shares. -/
def simplified : Term → Except AlgebraError Term
  | tree e => tree <$> e.simplify
  | graph g r =>
    match ((TermGraph.Edit.simplify r).run).run g with
    | (.ok s, h) => .ok (.graph h s)
    | (.error x, _) => .error x

/-- A simplified copy. -/
def fresh (t : Term) : Except AlgebraError Expr := do (← t.expr).copy.simplify

/-- The plain expressions of a list that holds nothing else. -/
def trees? : List (Option Term) → Option (List Expr)
  | [] => some []
  | some (.tree e) :: ts => (trees? ts).map (e :: ·)
  | _ :: _ => none

/-- A library function on terms with identity. -/
def callOnGraph (f : LibraryFunction) (arguments : List (Option Term)) : Except AlgebraError Term :=
  let step := fun (acc : List (Option Ref) × TermGraph) (t : Option Term) =>
    match t with
    | some t =>
      let (r, g) := t.load acc.2
      (acc.1 ++ [some r], g)
    | none => (acc.1 ++ [none], acc.2)
  let (rs, g) := arguments.foldl step ([], {})
  match ((TermGraph.Edit.call f rs).run).run g with
  | (.ok r, h) => .ok (.graph h r)
  | (.error x, _) => .error x

/-- Calls a library function. Substituting shares the substitute between all its places; the other
functions give the same on plain expressions, and a derivative shares nothing. An argument that is
no term is refused. -/
def call (f : LibraryFunction) (arguments : List (Option Term)) : Except AlgebraError Term :=
  match f, trees? arguments with
  | .expand, some [e] => tree <$> e.expandAll
  | .eval, some [e, q] => tree <$> e.eval q
  | .simplDerive, some [e, x] => tree <$> e.simplDerive x
  | .derivePolynomial, some [e, x] => tree <$> e.derivePolynomial x
  | .simplDerive, _ | .derivePolynomial, _ => do return tree (← (← callOnGraph f arguments).expr)
  | f, _ => callOnGraph f arguments

end Term

end SymScript
