import SymScript.TermGraph

/-!
# Terms to look at

A view is a term read off a graph in full, with the name that every number carries.
-/

namespace SymScript

inductive TermView where
  | rational (negated : Bool) (num den : Nat) (name : String)
  | symbol (negated : Bool) (letter : Char)
  | compound (shape : Shape) (negated : Bool) (children : List TermView)
deriving Repr

namespace TermView

instance : Inhabited TermView := ⟨.symbol false 'x'⟩

def ofNode (n : TermNode) (children : List TermView) : TermView :=
  match n.head with
  | .rational p q => .rational n.negated p q n.name
  | .symbol c => .symbol n.negated c
  | h => .compound h.shape n.negated children

end TermView

namespace TermGraph

def viewWithin (g : TermGraph) : Nat → Ref → Except AlgebraError TermView
  | 0, _ => .error .endless
  | fuel + 1, r => do
    let n := g.node r
    return TermView.ofNode n (← n.children.mapM (g.viewWithin fuel))

def view (g : TermGraph) (r : Ref) : Except AlgebraError TermView := g.viewWithin g.depthBound r

end TermGraph

namespace Expr

mutual

def view : Expr → TermView
  | .rational q => .rational q.negated q.num q.den q.name
  | .symbol s c => .symbol s c
  | .sum s es => .compound .sum s (viewAll es)
  | .product s es => .compound .product s (viewAll es)
  | .power s b e => .compound .power s [view b, view e]

def viewAll : List Expr → List TermView
  | [] => []
  | e :: es => view e :: viewAll es

end

end Expr

end SymScript
