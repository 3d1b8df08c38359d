import SymScript.Scalar
import SymScript.TermGraph

/-!
# Drawings of trees

A drawing is a list of strokes, nodes and edges, in the order in which they are made. Nodes are
numbered by first appearance, so the root is node 0. Every node is a table with its name on top and
one line for every attribute.
-/

namespace SymScript

/-- The lines below the name of a node. -/
abbrev Attributes := List (Scalar × Scalar)

namespace Attributes

/-- Sets an attribute: a repeated key keeps its place and takes the new value. -/
def set (as : Attributes) (key value : Scalar) : Attributes :=
  match as with
  | [] => [(key, value)]
  | (k, v) :: rest => if k == key then (k, value) :: rest else (k, v) :: set rest key value

/-- Sets all the attributes of a list, one after the other. -/
def ofList (as : List (Scalar × Scalar)) : Attributes := as.foldl (fun t a => t.set a.1 a.2) []

end Attributes

inductive Stroke where
  | node (id : Nat) (name label : String)
  | edge (start stop : Nat)
deriving DecidableEq, Repr

structure Drawing where
  /-- The number of different nodes. -/
  size : Nat
  strokes : List Stroke
deriving DecidableEq, Repr

namespace Drawing

def line (a : Scalar × Scalar) : String :=
  "<tr><td><b>" ++ a.1.shown ++ "</b></td><td>" ++ a.2.shown ++ "</td></tr>"

def label (name : String) (attributes : Attributes) : String :=
  "<<table border=\"0\" cellborder=\"1\" cellspacing=\"0\"><tr><td colspan=\"2\"><b>" ++ name ++
    "</b></td></tr>" ++ String.join ((Attributes.ofList attributes).map line) ++ "</table>>"

def shift (n : Nat) : Stroke → Stroke
  | .node id name label => .node (n + id) name label
  | .edge a b => .edge (n + a) (n + b)

/-- Draws a further child below the root. -/
def hang (d child : Drawing) : Drawing :=
  { size := d.size + child.size
    strokes := d.strokes ++ child.strokes.map (shift d.size) ++ [.edge 0 d.size] }

/-- A root with the drawings of its children below it. -/
def above (name : String) (attributes : Attributes) (children : List Drawing) : Drawing :=
  children.foldl hang { size := 1, strokes := [.node 0 name (label name attributes)] }

/-- The names of the nodes, in the order in which they are drawn. -/
def nodeNames (d : Drawing) : List String :=
  d.strokes.filterMap fun s =>
    match s with
    | .node _ name _ => some name
    | .edge .. => none

/-- The place of a node in the list of those that have appeared, which it joins. -/
def numberOf (seen : List Nat) (id : Nat) : List Nat × Nat :=
  let seen := if seen.contains id then seen else seen ++ [id]
  (seen, seen.idxOf id)

/-- Numbers the nodes of a list of strokes by first appearance. -/
def ofStrokes (strokes : List Stroke) : Drawing :=
  let step := fun (acc : List Nat × List Stroke) (s : Stroke) =>
    match s with
    | .node id name label =>
      let (seen, n) := numberOf acc.1 id
      (seen, Stroke.node n name label :: acc.2)
    | .edge a b =>
      let (seen, m) := numberOf acc.1 a
      let (seen, n) := numberOf seen b
      (seen, Stroke.edge m n :: acc.2)
  let (seen, done) := strokes.foldl step ([], [])
  { size := seen.length, strokes := done.reverse }

end Drawing

namespace TermGraph

def strokesWithin (g : TermGraph) : Nat → Attributes → Ref → Except AlgebraError (List Stroke)
  | 0, _, _ => .error .endless
  | fuel + 1, attributes, r => do
    let n := g.node r
    let children ← n.children.mapM fun c => do
      return (← g.strokesWithin fuel [] c) ++ [Stroke.edge r c]
    return .node r n.name (Drawing.label n.name attributes) :: children.flatten

/-- The drawing of a term; a shared node is drawn at each of its places, under one number. -/
def draw (g : TermGraph) (attributes : Attributes) (r : Ref) : Except AlgebraError Drawing := do
  return Drawing.ofStrokes (← g.strokesWithin g.depthBound attributes r)

end TermGraph

end SymScript
