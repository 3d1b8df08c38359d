import SymScript.Fraction

/-!
# Algebraic expressions

An expression is a signed number, a signed letter, or a signed sum, product or power. The sign is a
flag of its own on every node. Sums and products list their children in a fixed order, which
`Expr.copy` restores.
-/

namespace SymScript

inductive Expr where
  | rational (q : Fraction)
  | symbol (negated : Bool) (letter : Char)
  | sum (negated : Bool) (addends : List Expr)
  | product (negated : Bool) (factors : List Expr)
  | power (negated : Bool) (base exponent : Expr)
deriving Repr

/-- The five shapes of an expression. -/
inductive Shape where
  | rational
  | symbol
  | sum
  | product
  | power
deriving DecidableEq, Repr

namespace Shape

/-- The place of a shape in the order of children. -/
def rank : Shape → Nat
  | rational => 1
  | product => 2
  | power => 3
  | symbol => 4
  | sum => 5

/-- What an unsigned node of a compound shape is called. -/
def title : Shape → String
  | rational => "Rational"
  | symbol => "Symbol"
  | sum => "Add"
  | product => "Mul"
  | power => "Pow"

/-- The word for the shape itself. -/
def word : Shape → String
  | product => "Mult"
  | s => s.title

/-- The letter that stands for a compound node in raw text. -/
def mark : Shape → String
  | sum => "S"
  | product => "M"
  | power => "P"
  | s => s.title

end Shape

namespace Expr

instance : Inhabited Expr := ⟨.rational default⟩

def ofNat (n : Nat) : Expr := .rational (.ofNat n)

def shape : Expr → Shape
  | rational _ => .rational
  | symbol .. => .symbol
  | sum .. => .sum
  | product .. => .product
  | power .. => .power

def negated : Expr → Bool
  | rational q => q.negated
  | symbol s _ | sum s _ | product s _ | power s _ _ => s

/-- The same node with another sign. -/
def sign (s : Bool) : Expr → Expr
  | rational q => .rational (q.withSign s)
  | symbol _ c => .symbol s c
  | sum _ es => .sum s es
  | product _ es => .product s es
  | power _ b e => .power s b e

def children : Expr → List Expr
  | rational _ | symbol .. => []
  | sum _ es | product _ es => es
  | power _ b e => [b, e]

/-- The text that a node without children shows; the mark of its shape otherwise. -/
def payload : Expr → String
  | rational q => q.digits
  | symbol _ c => c.toString
  | e => e.shape.mark

/-- The name of a node: its title, with a minus when it is negated. -/
def name : Expr → String
  | rational q => q.name
  | symbol s c => (if s then "-" else "") ++ c.toString
  | e => (if e.negated then "-" else "") ++ e.shape.title

def rational? : Expr → Option Fraction
  | rational q => some q
  | _ => none

mutual

/-- The number of nodes. -/
def size : Expr → Nat
  | rational _ | symbol .. => 1
  | sum _ es | product _ es => sizeAll es + 1
  | power _ b e => size b + size e + 1

def sizeAll : List Expr → Nat
  | [] => 0
  | e :: es => size e + sizeAll es

end

mutual

/-- Equality of shape, sign and children in order. -/
def beq : Expr → Expr → Bool
  | rational q, rational r => q == r
  | symbol s c, symbol t d => s == t && c == d
  | sum s as, sum t bs => s == t && beqAll as bs
  | product s as, product t bs => s == t && beqAll as bs
  | power s a b, power t c d => s == t && beq a c && beq b d
  | _, _ => false

def beqAll : List Expr → List Expr → Bool
  | [], [] => true
  | a :: as, b :: bs => beq a b && beqAll as bs
  | _, _ => false

end

instance : BEq Expr := ⟨beq⟩

mutual

theorem eq_of_beq : ∀ {a b : Expr}, beq a b = true → a = b
  | rational q, rational r, h => by simp [beq] at h; rw [h]
  | symbol s c, symbol t d, h => by simp [beq] at h; rw [h.1, h.2]
  | sum s as, sum t bs, h => by
    simp [beq] at h
    rw [h.1, eq_of_beqAll h.2]
  | product s as, product t bs, h => by
    simp [beq] at h
    rw [h.1, eq_of_beqAll h.2]
  | power s a b, power t c d, h => by
    simp [beq] at h
    rw [h.1.1, eq_of_beq h.1.2, eq_of_beq h.2]
  | rational _, symbol .., h | rational _, sum .., h | rational _, product .., h
  | rational _, power .., h | symbol .., rational _, h | symbol .., sum .., h
  | symbol .., product .., h | symbol .., power .., h | sum .., rational _, h
  | sum .., symbol .., h | sum .., product .., h | sum .., power .., h
  | product .., rational _, h | product .., symbol .., h | product .., sum .., h
  | product .., power .., h | power .., rational _, h | power .., symbol .., h
  | power .., sum .., h | power .., product .., h => by simp [beq] at h

theorem eq_of_beqAll : ∀ {as bs : List Expr}, beqAll as bs = true → as = bs
  | [], [], _ => rfl
  | a :: as, b :: bs, h => by
    simp [beqAll] at h
    rw [eq_of_beq h.1, eq_of_beqAll h.2]
  | [], _ :: _, h | _ :: _, [], h => by simp [beqAll] at h

end

mutual

theorem beq_refl : ∀ e : Expr, beq e e = true
  | rational q => by simp [beq]
  | symbol s c => by simp [beq]
  | sum s es | product s es => by simp [beq, beqAll_refl es]
  | power s b e => by simp [beq, beq_refl b, beq_refl e]

theorem beqAll_refl : ∀ es : List Expr, beqAll es es = true
  | [] => rfl
  | e :: es => by simp [beqAll, beq_refl e, beqAll_refl es]

end

instance : LawfulBEq Expr where
  eq_of_beq := eq_of_beq
  rfl := beq_refl _

instance : DecidableEq Expr := fun a b =>
  if h : beq a b then .isTrue (eq_of_beq h) else .isFalse fun e => h (e ▸ beq_refl a)

mutual

/-- The order of children. Nodes of one shape compare by their names when they are leaves, and else
by their children; the sign of a compound node plays no part. Different shapes compare by rank. -/
def lt : Expr → Expr → Bool
  | rational q, rational r => q.name < r.name
  | symbol s c, symbol t d => (symbol s c).name < (symbol t d).name
  | sum _ as, sum _ bs | product _ as, product _ bs => ltAll as bs
  | power _ a b, power _ c d => if beq a c then !beq b d && lt b d else lt a c
  | a, b => a.shape.rank < b.shape.rank

/-- Lists compare at the first place where they differ; else the shorter one comes first. -/
def ltAll : List Expr → List Expr → Bool
  | _, [] => false
  | [], _ :: _ => true
  | a :: as, b :: bs => if beq a b then ltAll as bs else lt a b

end

/-- Looks for the place of an expression by halving, and puts it there: behind a member that it is
not smaller than, before one that it is smaller than. The bound is the number of members, and so
more than the number of halvings. -/
def insertWithin : Nat → Expr → List Expr → List Expr
  | 0, e, es => e :: es
  | n + 1, e, es =>
    match es.drop (es.length / 2) with
    | [] => es ++ [e]
    | m :: back =>
      let front := es.take (es.length / 2)
      if lt e m then insertWithin n e front ++ m :: back else front ++ m :: insertWithin n e back

def insert (es : List Expr) (e : Expr) : List Expr := insertWithin es.length e es

/-- How many members of a list carry on from the expression before them: each is smaller than the
one before it if the run goes down, and else none is. -/
def runLength (down : Bool) : Expr → List Expr → Nat
  | _, [] => 0
  | a, b :: es => if lt b a = down then runLength down b es + 1 else 0

/-- A stable sort by `lt`. The run at the front is taken as it is, or turned around if it goes down,
and the members behind it are inserted one by one. Longer lists are not split into runs that are
merged, which gives another outcome only for members that `lt` does not tell apart. Results about
expressions use of this function only that it is a sort in the sense of `IsSort`. -/
@[irreducible] def sort : List Expr → List Expr
  | [] => []
  | a :: es =>
    let down := es.head?.any (lt · a)
    let run := a :: es.take (runLength down a es)
    (es.drop (runLength down a es)).foldl insert (if down then run.reverse else run)

mutual

/-- The expression with the children of all sums and products in order. -/
def copy : Expr → Expr
  | rational q => .rational q
  | symbol s c => .symbol s c
  | sum s es => .sum s (sort (copyAll es))
  | product s es => .product s (sort (copyAll es))
  | power s b e => .power s (copy b) (copy e)

def copyAll : List Expr → List Expr
  | [] => []
  | e :: es => copy e :: copyAll es

end

/-- A copy with the given sign. -/
def withSign (s : Bool) (e : Expr) : Expr := (copy e).sign s

/-- A copy with the opposite sign. -/
def flip (e : Expr) : Expr := e.withSign (!e.negated)

def mkSum (negated : Bool) (es : List Expr) : Expr := .sum negated (sort (copyAll es))

def mkProduct (negated : Bool) (es : List Expr) : Expr := .product negated (sort (copyAll es))

def mkPower (negated : Bool) (base exponent : Expr) : Expr :=
  .power negated (copy base) (copy exponent)

/-- A product has at least two factors. -/
def product? (negated : Bool) (es : List Expr) : Except AlgebraError Expr :=
  if es.length < 2 then .error .fewFactors else .ok (mkProduct negated es)

end Expr

end SymScript
