import SymScript.Expr

/-!
# Looking for parts and replacing them
-/

namespace SymScript.Expr

mutual

/-- Replaces every part equal to `old`, children before parents. -/
def substitute (old new : Expr) : Expr → Expr
  | .rational q => if Expr.rational q == old then new else .rational q
  | .symbol s c => if Expr.symbol s c == old then new else .symbol s c
  | .sum s es =>
    let e := Expr.sum s (substituteAll old new es)
    if e == old then new else e
  | .product s es =>
    let e := Expr.product s (substituteAll old new es)
    if e == old then new else e
  | .power s b x =>
    let e := Expr.power s (substitute old new b) (substitute old new x)
    if e == old then new else e

def substituteAll (old new : Expr) : List Expr → List Expr
  | [] => []
  | e :: es => substitute old new e :: substituteAll old new es

end

/-- Appends an expression that is not there yet. -/
def adjoin (es : List Expr) (e : Expr) : List Expr := if es.contains e then es else es ++ [e]

mutual

/-- The outermost parts of a shape, without their signs and each once, in order of appearance. -/
def parts (k : Shape) : Expr → List Expr
  | .rational q => if k = .rational then [withSign false (.rational q)] else []
  | .symbol s c => if k = .symbol then [withSign false (.symbol s c)] else []
  | .sum s es => if k = .sum then [withSign false (.sum s es)] else partsAll k es
  | .product s es => if k = .product then [withSign false (.product s es)] else partsAll k es
  | .power s b e =>
    if k = .power then [withSign false (.power s b e)]
    else (parts k e).foldl adjoin ((parts k b).foldl adjoin [])

def partsAll (k : Shape) : List Expr → List Expr
  | [] => []
  | e :: es => (partsAll k es).foldl adjoin (parts k e)

end

/-- The letters that occur, as unsigned symbols. -/
def symbols (e : Expr) : List Expr := e.parts .symbol

end SymScript.Expr
