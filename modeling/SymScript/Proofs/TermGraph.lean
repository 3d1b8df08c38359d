import Mathlib.Tactic.Tauto
import SymScript.Proofs.Depth
import SymScript.Term

/-!
# What edits of term graphs leave alone

An edit changes the nodes that it is given and what they point to, and makes fresh nodes.  A set of
nodes that no other node points into is an `Island`: an edit that starts outside an island leaves it
as it is and does not point into it either.  Fresh nodes are an island until something is made to
point to them.
-/

namespace SymScript.TermGraph

/-! ### Nodes -/

theorem node_eq (g : TermGraph) (i : Ref) : g.node i = g.nodes[i]?.getD default := by
  simp [node]

/-- Behind the last node there is nothing but the default node. -/
theorem node_of_size_le {g : TermGraph} {i : Ref} (h : g.nodes.size ≤ i) : g.node i = default := by
  rw [node_eq, Array.getElem?_eq_none h]
  rfl

/-- A place without a node has no children. -/
theorem children_of_size_le {g : TermGraph} {i : Ref} (h : g.nodes.size ≤ i) :
    (g.node i).children = [] := by
  rw [node_of_size_le h]
  rfl

@[simp] theorem fst_push (g : TermGraph) (n : TermNode) : (g.push n).1 = g.nodes.size := rfl

@[simp] theorem size_push (g : TermGraph) (n : TermNode) :
    (g.push n).2.nodes.size = g.nodes.size + 1 := by
  simp [push]

/-- A new node leaves the old ones as they are. -/
theorem node_push_of_lt {g : TermGraph} {i : Ref} (h : i < g.nodes.size) (n : TermNode) :
    (g.push n).2.node i = g.node i := by
  rw [node_eq, node_eq, push, Array.getElem?_push_lt h, Array.getElem?_eq_getElem h]

/-- A new node stands behind the old ones. -/
@[simp] theorem node_push_self (g : TermGraph) (n : TermNode) :
    (g.push n).2.node g.nodes.size = n := by
  simp [node_eq, push]

@[simp] theorem size_update (g : TermGraph) (r : Ref) (f : TermNode → TermNode) :
    (g.update r f).nodes.size = g.nodes.size := by
  simp [update]

/-- An update changes one node only. -/
theorem node_update_of_ne {g : TermGraph} {i r : Ref} (h : i ≠ r) (f : TermNode → TermNode) :
    (g.update r f).node i = g.node i := by
  simp [node_eq, update, Array.getElem?_modify, Ne.symm h]

/-- An update changes the node that it is made at. -/
theorem node_update_self {g : TermGraph} {r : Ref} (h : r < g.nodes.size)
    (f : TermNode → TermNode) : (g.update r f).node r = f (g.node r) := by
  simp [node_eq, update, Array.getElem?_modify, Array.getElem?_eq_getElem h]

/-- Getting other children changes no head. -/
theorem head_setChildren (g : TermGraph) (r i : Ref) (cs : List Ref) :
    ((g.setChildren r cs).node i).head = (g.node i).head := by
  rw [setChildren, update, node_eq, node_eq, Array.getElem?_modify]
  split
  · cases g.nodes[i]? <;> rfl
  · rfl

/-- The children of every node are nodes. -/
def Closed (g : TermGraph) : Prop := ∀ i, ∀ c ∈ (g.node i).children, c < g.nodes.size

/-- A graph without nodes is closed. -/
theorem closed_empty : Closed {} := by
  intro i c hc
  rw [children_of_size_le (Nat.zero_le i)] at hc
  cases hc

/-! ### Fresh nodes -/

/-- The second graph has the nodes of the first and more, which point only to one another. -/
structure Extends (g h : TermGraph) : Prop where
  size_le : g.nodes.size ≤ h.nodes.size
  node_eq : ∀ i < g.nodes.size, h.node i = g.node i
  fresh : ∀ i, g.nodes.size ≤ i → ∀ c ∈ (h.node i).children, g.nodes.size ≤ c ∧ c < h.nodes.size

/-- A place that the second graph has and the first has not. -/
def IsFresh (g h : TermGraph) (i : Ref) : Prop := g.nodes.size ≤ i ∧ i < h.nodes.size

namespace Extends

variable {g h k : TermGraph}

theorem refl (g : TermGraph) : Extends g g := by
  refine ⟨Nat.le_refl _, fun _ _ => rfl, fun i hi c hc => ?_⟩
  rw [children_of_size_le hi] at hc
  cases hc

/-- Extensions compose. -/
theorem trans (hgh : Extends g h) (hhk : Extends h k) : Extends g k where
  size_le := Nat.le_trans hgh.size_le hhk.size_le
  node_eq i hi := by
    rw [hhk.node_eq i (Nat.lt_of_lt_of_le hi hgh.size_le), hgh.node_eq i hi]
  fresh i hi c hc := by
    rcases Nat.lt_or_ge i h.nodes.size with hlt | hge
    · rw [hhk.node_eq i hlt] at hc
      obtain ⟨hle, hc⟩ := hgh.fresh i hi c hc
      exact ⟨hle, Nat.lt_of_lt_of_le hc hhk.size_le⟩
    · obtain ⟨hle, hc⟩ := hhk.fresh i hge c hc
      exact ⟨Nat.le_trans hgh.size_le hle, hc⟩

/-- A node whose children are fresh may be added to an extension. -/
theorem push (hgh : Extends g h) {n : TermNode} (hn : ∀ c ∈ n.children, IsFresh g h c) :
    Extends g (h.push n).2 where
  size_le := by
    rw [size_push]
    exact Nat.le_succ_of_le hgh.size_le
  node_eq i hi := by
    rw [node_push_of_lt (Nat.lt_of_lt_of_le hi hgh.size_le), hgh.node_eq i hi]
  fresh i hi c hc := by
    rw [size_push]
    rcases Nat.lt_trichotomy i h.nodes.size with hlt | rfl | hgt
    · rw [node_push_of_lt hlt] at hc
      exact ⟨(hgh.fresh i hi c hc).1, Nat.lt_succ_of_lt (hgh.fresh i hi c hc).2⟩
    · rw [node_push_self] at hc
      exact ⟨(hn c hc).1, Nat.lt_succ_of_lt (hn c hc).2⟩
    · rw [children_of_size_le (by rw [size_push]; exact hgt)] at hc
      cases hc

/-- The node that is added last is fresh. -/
theorem isFresh_push (hgh : Extends g h) (n : TermNode) : IsFresh g (h.push n).2 (h.push n).1 :=
  ⟨hgh.size_le, by simp⟩

/-- An extension of a closed graph is closed: fresh nodes point at fresh nodes. -/
theorem closed (hgh : Extends g h) (hg : Closed g) : Closed h := by
  intro i c hc
  rcases Nat.lt_or_ge i g.nodes.size with hlt | hge
  · rw [hgh.node_eq i hlt] at hc
    exact Nat.lt_of_lt_of_le (hg i c hc) hgh.size_le
  · exact (hgh.fresh i hge c hc).2

end Extends

/-- What is fresh stays fresh when more nodes are added. -/
theorem IsFresh.mono {g h k : TermGraph} {i : Ref} (hi : IsFresh g h i) (hhk : Extends h k) :
    IsFresh g k i :=
  ⟨hi.1, Nat.lt_of_lt_of_le hi.2 hhk.size_le⟩

/-- What is fresh since a later graph is fresh since an earlier one. -/
theorem IsFresh.of_extends {g h k : TermGraph} {i : Ref} (hi : IsFresh h k i) (hgh : Extends g h) :
    IsFresh g k i :=
  ⟨Nat.le_trans hgh.size_le hi.1, hi.2⟩

mutual

/-- Adding an expression makes fresh nodes and leaves the others alone. -/
theorem addBelow_extends (parent : Option (Shape × String)) : ∀ (e : Expr) (g : TermGraph),
    Extends g (addBelow parent e g).2 ∧ IsFresh g (addBelow parent e g).2 (addBelow parent e g).1
  | .rational _, g | .symbol .., g => by
    rw [addBelow]
    exact ⟨(Extends.refl g).push (List.forall_mem_nil _), (Extends.refl g).isFresh_push _⟩
  | .sum s es, g | .product s es, g => by
    rw [addBelow]
    obtain ⟨hext, hfresh⟩ := addAllBelow_extends (some (_, _)) es g
    exact ⟨hext.push hfresh, hext.isFresh_push _⟩
  | .power s b x, g => by
    rw [addBelow]
    obtain ⟨hb, hfb⟩ := addBelow_extends (some (.power, _)) b g
    obtain ⟨hx, hfx⟩ := addBelow_extends (some (.power, _)) x _
    have hext := hb.trans hx
    refine ⟨hext.push ?_, hext.isFresh_push _⟩
    exact List.forall_mem_cons.2 ⟨hfb.mono hx, List.forall_mem_singleton.2 (hfx.of_extends hb)⟩

theorem addAllBelow_extends (parent : Option (Shape × String)) : ∀ (es : List Expr) (g : TermGraph),
    Extends g (addAllBelow parent es g).2 ∧
      ∀ r ∈ (addAllBelow parent es g).1, IsFresh g (addAllBelow parent es g).2 r
  | [], g => ⟨.refl g, List.forall_mem_nil _⟩
  | e :: es, g => by
    rw [addAllBelow]
    obtain ⟨he, hfe⟩ := addBelow_extends parent e g
    obtain ⟨hes, hfes⟩ := addAllBelow_extends parent es _
    refine ⟨he.trans hes, List.forall_mem_cons.2 ⟨hfe.mono hes, ?_⟩⟩
    exact fun r hr => (hfes r hr).of_extends he

end

/-! ### Reading fresh nodes -/

mutual

/-- Adding an expression makes as many nodes as the expression has. -/
theorem size_addBelow (parent : Option (Shape × String)) : ∀ (e : Expr) (g : TermGraph),
    (addBelow parent e g).2.nodes.size = g.nodes.size + e.size
  | .rational _, g | .symbol .., g => by rw [addBelow, size_push, Expr.size]
  | .sum s es, g | .product s es, g => by
    rw [addBelow, size_push, size_addAllBelow, Expr.size]
    rfl
  | .power s b x, g => by
    rw [addBelow, size_push, size_addBelow, size_addBelow, Expr.size]
    omega

theorem size_addAllBelow (parent : Option (Shape × String)) : ∀ (es : List Expr) (g : TermGraph),
    (addAllBelow parent es g).2.nodes.size = g.nodes.size + Expr.sizeAll es
  | [], _ => rfl
  | e :: es, g => by
    rw [addAllBelow, size_addAllBelow, size_addBelow, Expr.sizeAll]
    omega

end

/-- Two graphs agree on the nodes that the second has made since it was `g`. -/
def AgreesSince (g h k : TermGraph) : Prop := ∀ i, IsFresh g h i → k.node i = h.node i

/-- Agreement on the nodes up to a new one holds without it. -/
theorem AgreesSince.of_push {g h k : TermGraph} {n : TermNode} (hk : AgreesSince g (h.push n).2 k) :
    AgreesSince g h k := by
  intro i hi
  rw [hk i ⟨hi.1, by rw [size_push]; exact Nat.lt_succ_of_lt hi.2⟩, node_push_of_lt hi.2]

/-- Graphs that agree on fresh nodes agree on the one that was added last. -/
theorem AgreesSince.node_push {g h k : TermGraph} {n : TermNode} (hgh : Extends g h)
    (hk : AgreesSince g (h.push n).2 k) : k.node h.nodes.size = n := by
  have hnode := hk _ (hgh.isFresh_push n)
  rwa [fst_push, node_push_self] at hnode

/-- Agreement on fresh nodes holds for the part of them that was made first. -/
theorem AgreesSince.left {g h j k : TermGraph} (hhj : Extends h j) (hk : AgreesSince g j k) :
    AgreesSince g h k := by
  intro i hi
  rw [hk i (hi.mono hhj), hhj.node_eq i hi.2]

/-- Agreement on fresh nodes holds for the part of them that was made last. -/
theorem AgreesSince.right {g h j k : TermGraph} (hgh : Extends g h) (hk : AgreesSince g j k) :
    AgreesSince h j k :=
  fun i hi => hk i (hi.of_extends hgh)

mutual

/-- The nodes made for an expression read as that expression, whatever the other nodes are. -/
theorem exprWithin_addBelow {parent : Option (Shape × String)} :
    ∀ (e : Expr) {g k : TermGraph} {n : Nat}, AgreesSince g (addBelow parent e g).2 k → e.size ≤ n →
      k.exprWithin n (addBelow parent e g).1 = .ok e
  | e, g, k, 0, _, hn => by
    cases e <;> simp [Expr.size] at hn
  | .rational q, g, k, n + 1, hk, _ => by
    rw [addBelow] at hk ⊢
    rw [fst_push, exprWithin, hk.node_push (.refl g)]
    simp [assemble, headOf, q.den_ne, pure, Except.pure, bind, Except.bind]
  | .symbol s c, g, k, n + 1, hk, _ => by
    rw [addBelow] at hk ⊢
    rw [fst_push, exprWithin, hk.node_push (.refl g)]
    rfl
  | .sum s es, g, k, n + 1, hk, hn | .product s es, g, k, n + 1, hk, hn => by
    rw [addBelow] at hk ⊢
    rw [Expr.size] at hn
    rw [fst_push, exprWithin, hk.node_push (addAllBelow_extends _ es g).1]
    dsimp only
    rw [mapM_exprWithin_addAllBelow es hk.of_push (Nat.le_of_succ_le_succ hn)]
    rfl
  | .power s b x, g, k, n + 1, hk, hn => by
    rw [addBelow] at hk ⊢
    rw [Expr.size] at hn
    have hb := (addBelow_extends (some (.power, (Expr.power s b x).name)) b g).1
    have hx := (addBelow_extends (some (.power, (Expr.power s b x).name)) x
      (addBelow (some (.power, (Expr.power s b x).name)) b g).2).1
    rw [fst_push, exprWithin, hk.node_push (hb.trans hx)]
    dsimp only
    rw [List.mapM_cons, exprWithin_addBelow b (hk.of_push.left hx) (by omega), List.mapM_cons,
      exprWithin_addBelow x (hk.of_push.right hb) (by omega)]
    rfl

/-- The nodes made for a list of expressions read as that list. -/
theorem mapM_exprWithin_addAllBelow {parent : Option (Shape × String)} :
    ∀ (es : List Expr) {g k : TermGraph} {n : Nat}, AgreesSince g (addAllBelow parent es g).2 k →
      Expr.sizeAll es ≤ n → (addAllBelow parent es g).1.mapM (k.exprWithin n) = .ok es
  | [], _, _, _, _, _ => rfl
  | e :: es, g, k, n, hk, hn => by
    rw [addAllBelow] at hk ⊢
    rw [Expr.sizeAll] at hn
    have he := (addBelow_extends parent e g).1
    have hes := (addAllBelow_extends parent es (addBelow parent e g).2).1
    dsimp only at hk ⊢
    rw [List.mapM_cons, exprWithin_addBelow e (hk.left hes) (by omega),
      mapM_exprWithin_addAllBelow es (hk.right he) (by omega)]
    rfl

end

/-- Reading what has been added gives it back. -/
theorem expr_add (g : TermGraph) (e : Expr) : (g.add e).2.expr (g.add e).1 = .ok e := by
  refine exprWithin_addBelow e (fun _ _ => rfl) ?_
  rw [depthBound, add, size_addBelow]
  omega

/-! ### Computations that succeed -/

namespace Edit

variable {α β : Type} {g h k : TermGraph} {r s : Ref}

/-- On the first graph the computation gives a value, and it leaves the second graph. -/
def Gives (x : Edit α) (g : TermGraph) (a : α) (h : TermGraph) : Prop := x.run.run g = (.ok a, h)

/-- Two computations in a row succeed with something in between. -/
theorem gives_bind {x : Edit α} {f : α → Edit β} {b : β} :
    Gives (x >>= f) g b k ↔ ∃ a h, Gives x g a h ∧ Gives (f a) h b k := by
  have hrun : (x >>= f).run.run g =
      match x.run.run g with
      | (a, h) => (ExceptT.bindCont f a).run h := rfl
  unfold Gives
  rw [hrun]
  constructor
  · intro hb
    rcases hx : x.run.run g with ⟨_ | a, h⟩ <;> rw [hx] at hb
    · cases hb
    · exact ⟨a, h, rfl, hb⟩
  · rintro ⟨a, h, hx, hb⟩
    rw [hx]
    exact hb

/-- What a computation gives is determined by its run. -/
theorem gives_of_run_eq {x : Edit α} {a b : α} (hx : x.run.run g = (.ok a, k)) :
    Gives x g b h ↔ a = b ∧ k = h := by
  rw [Gives, hx, Prod.mk.injEq, Except.ok.injEq]

theorem gives_pure {a b : α} : Gives (pure a) g b h ↔ a = b ∧ g = h := gives_of_run_eq rfl

/-- A failure gives nothing. -/
theorem not_gives_throw {e : AlgebraError} {a : α} : ¬ Gives (throw e) g a h := by
  rintro ⟨⟩

theorem gives_get {a : TermGraph} : Gives get g a h ↔ g = a ∧ g = h := gives_of_run_eq rfl

theorem gives_modify {f : TermGraph → TermGraph} {u : Unit} : Gives (modify f) g u h ↔ f g = h :=
  (gives_of_run_eq rfl).trans (and_iff_right rfl)

/-- Looking at a node changes nothing. -/
theorem gives_node {n : TermNode} : Gives (node r) g n h ↔ g.node r = n ∧ g = h :=
  gives_of_run_eq rfl

theorem gives_ofExcept {x : Except AlgebraError α} {a : α} :
    Gives (ofExcept x) g a h ↔ x = .ok a ∧ g = h := by
  cases x with
  | ok b => exact gives_pure.trans (by rw [Except.ok.injEq])
  | error e => exact iff_of_false not_gives_throw nofun

/-- Reading an expression off changes nothing. -/
theorem gives_expr {e : Expr} : Gives (expr r) g e h ↔ g.expr r = .ok e ∧ g = h := by
  rw [expr, gives_bind]
  constructor
  · rintro ⟨_, _, hget, hgives⟩
    obtain ⟨rfl, rfl⟩ := gives_get.1 hget
    cases hx : g.expr r with
    | ok d =>
      rw [hx] at hgives
      obtain ⟨rfl, rfl⟩ := gives_pure.1 hgives
      exact ⟨rfl, rfl⟩
    | error x =>
      rw [hx] at hgives
      exact absurd hgives not_gives_throw
  · rintro ⟨hx, rfl⟩
    refine ⟨g, g, gives_get.2 ⟨rfl, rfl⟩, ?_⟩
    rw [hx]
    exact gives_pure.2 ⟨rfl, rfl⟩

/-- Adding an expression gives the place of its root. -/
theorem gives_add {e : Expr} : Gives (add e) g r h ↔ (g.add e).1 = r ∧ (g.add e).2 = h :=
  gives_of_run_eq rfl

/-- Adding the result of an algebraic operation succeeds where the operation does. -/
theorem gives_addResult {x : Except AlgebraError Expr} :
    Gives (addResult x) g r h ↔ ∃ e, x = .ok e ∧ (g.add e).1 = r ∧ (g.add e).2 = h := by
  simp only [addResult, gives_bind, gives_ofExcept, gives_add]
  constructor
  · rintro ⟨e, _, ⟨hx, rfl⟩, hadd⟩
    exact ⟨e, hx, hadd⟩
  · rintro ⟨e, hx, hadd⟩
    exact ⟨e, g, ⟨hx, rfl⟩, hadd⟩

/-- Giving a node other children always succeeds. -/
theorem gives_setChildren {cs : List Ref} {u : Unit} :
    Gives (setChildren r cs) g u h ↔ g.setChildren r cs = h :=
  gives_modify

/-- Computations that leave the graph as it is. -/
theorem gives_mapM {f : α → Edit β} {P : α → β → Prop}
    (hf : ∀ {a b h}, Gives (f a) g b h → P a b ∧ g = h) {as : List α} {bs : List β}
    (hgives : Gives (as.mapM f) g bs h) : List.Forall₂ P as bs ∧ g = h := by
  induction as generalizing bs h with
  | nil =>
    obtain ⟨rfl, rfl⟩ := gives_pure.1 hgives
    exact ⟨.nil, rfl⟩
  | cons a as ih =>
    rw [List.mapM_cons] at hgives
    obtain ⟨b, k, hb, hgives⟩ := gives_bind.1 hgives
    obtain ⟨hP, rfl⟩ := hf hb
    obtain ⟨bs, k, hbs, hgives⟩ := gives_bind.1 hgives
    obtain ⟨hall, rfl⟩ := ih hbs
    obtain ⟨rfl, rfl⟩ := gives_pure.1 hgives
    exact ⟨.cons hP hall, rfl⟩

/-- The expressions of a list of places are read off one by one, and nothing changes. -/
theorem gives_exprs {rs : List Ref} {es : List Expr} (hgives : Gives (exprs rs) g es h) :
    List.Forall₂ (fun r e => g.expr r = .ok e) rs es ∧ g = h := by
  rw [exprs] at hgives
  refine gives_mapM (P := fun r e => g.expr r = .ok e) ?_ hgives
  exact fun hr => gives_expr.1 hr

/-- The children of a node are replaced and read. -/
theorem gives_replaceChildren {f : Ref → Edit Ref} {F : List Expr → Edit Ref} {rs : List Ref}
    (hgives : Gives (do
      let cs ← rs.mapM f
      setChildren r cs
      F (← exprs cs)) g s h) :
    ∃ cs k es, Gives (rs.mapM f) g cs k ∧
      List.Forall₂ (fun c e => (k.setChildren r cs).expr c = .ok e) cs es ∧
        Gives (F es) (k.setChildren r cs) s h := by
  obtain ⟨cs, k, hcs, hgives⟩ := gives_bind.1 hgives
  obtain ⟨_, _, hset, hgives⟩ := gives_bind.1 hgives
  obtain rfl := gives_setChildren.1 hset
  obtain ⟨es, _, hes, hgives⟩ := gives_bind.1 hgives
  obtain ⟨hread, rfl⟩ := gives_exprs hes
  exact ⟨cs, k, es, hcs, hread, hgives⟩

end Edit

/-! ### Islands -/

/-- Nodes that no other node points to. -/
structure Island (g : TermGraph) (I : Ref → Prop) : Prop where
  lt : ∀ i, I i → i < g.nodes.size
  closed : ∀ i, ∀ c ∈ (g.node i).children, I c → I i

/-- An island stays one when fresh nodes are added. -/
theorem Extends.island {g h : TermGraph} (hgh : Extends g h) {I : Ref → Prop} (hI : Island g I) :
    Island h I where
  lt i hi := Nat.lt_of_lt_of_le (hI.lt i hi) hgh.size_le
  closed i c hc hIc := by
    rcases Nat.lt_or_ge i g.nodes.size with hlt | hge
    · rw [hgh.node_eq i hlt] at hc
      exact hI.closed i c hc hIc
    · exact absurd (hI.lt c hIc) (Nat.not_lt.2 (hgh.fresh i hge c hc).1)

/-- Fresh nodes are an island. -/
theorem Extends.island_isFresh {g h : TermGraph} (hgh : Extends g h) (hg : Closed g) :
    Island h (IsFresh g h) where
  lt _ hi := hi.2
  closed i c hc hIc := by
    rcases Nat.lt_or_ge i g.nodes.size with hlt | hge
    · rw [hgh.node_eq i hlt] at hc
      exact absurd (hg i c hc) (Nat.not_lt.2 hIc.1)
    · refine ⟨hge, Nat.lt_of_not_le fun hle => ?_⟩
      rw [children_of_size_le hle] at hc
      cases hc

/-- What an edit of the nodes `R` of a graph `G` has come to: the nodes `known` are those that it
has come across.  It keeps the heads of all nodes and, of `G`, every island that holds no node of
`R`. -/
structure Touched (R : List Ref) (G : TermGraph) (known : List Ref) (g : TermGraph) : Prop where
  closed : Closed g
  size_le : G.nodes.size ≤ g.nodes.size
  head : ∀ i < G.nodes.size, (g.node i).head = (G.node i).head
  known_lt : ∀ c ∈ known, c < g.nodes.size
  island : ∀ I, Island G I → (∀ r ∈ R, ¬ I r) → Island g I
  node_eq : ∀ I, Island G I → (∀ r ∈ R, ¬ I r) → ∀ i, I i → g.node i = G.node i
  known_outside : ∀ I, Island G I → (∀ r ∈ R, ¬ I r) → ∀ c ∈ known, ¬ I c

namespace Touched

variable {R known : List Ref} {G g h : TermGraph} {r s : Ref}

/-- At the beginning nothing has been touched but the nodes that were given. -/
theorem start (hG : Closed G) (hR : ∀ r ∈ R, r < G.nodes.size) : Touched R G R G where
  closed := hG
  size_le := Nat.le_refl _
  head _ _ := rfl
  known_lt := hR
  island _ hI _ := hI
  node_eq _ _ _ _ _ := rfl
  known_outside _ _ hout := hout

/-- Fewer nodes may be called known. -/
theorem subset (ht : Touched R G known g) {known' : List Ref} (hsub : known' ⊆ known) :
    Touched R G known' g :=
  { ht with
    known_lt := fun c hc => ht.known_lt c (hsub hc)
    known_outside := fun I hI hout c hc => ht.known_outside I hI hout c (hsub hc) }

/-- The children of a node that has been come across. -/
theorem children (ht : Touched R G known g) (hr : r ∈ known) :
    Touched R G ((g.node r).children ++ known) g :=
  { ht with
    known_lt := fun c hc => (List.mem_append.1 hc).elim (ht.closed r c) (ht.known_lt c)
    known_outside := fun I hI hout c hc => by
      rcases List.mem_append.1 hc with hc | hc
      · exact fun hIc => ht.known_outside I hI hout r hr ((ht.island I hI hout).closed r c hc hIc)
      · exact ht.known_outside I hI hout c hc }

/-- Fresh nodes are known without touching any island. -/
theorem fresh (ht : Touched R G known g) (hgh : Extends g h) {ss : List Ref}
    (hss : ∀ s ∈ ss, IsFresh g h s) : Touched R G (ss ++ known) h where
  closed := hgh.closed ht.closed
  size_le := Nat.le_trans ht.size_le hgh.size_le
  head i hi := by rw [hgh.node_eq i (Nat.lt_of_lt_of_le hi ht.size_le), ht.head i hi]
  known_lt c hc := (List.mem_append.1 hc).elim (fun hc => (hss c hc).2)
    fun hc => Nat.lt_of_lt_of_le (ht.known_lt c hc) hgh.size_le
  island I hI hout := hgh.island (ht.island I hI hout)
  node_eq I hI hout i hi := by
    rw [hgh.node_eq i ((ht.island I hI hout).lt i hi), ht.node_eq I hI hout i hi]
  known_outside I hI hout c hc := by
    rcases List.mem_append.1 hc with hc | hc
    · exact fun hIc => absurd ((ht.island I hI hout).lt c hIc) (Nat.not_lt.2 (hss c hc).1)
    · exact ht.known_outside I hI hout c hc

/-- The root of an expression that was added is known. -/
theorem add (ht : Touched R G known g) (e : Expr) :
    Touched R G ((g.add e).1 :: known) (g.add e).2 :=
  ht.fresh (addBelow_extends none e g).1 (List.forall_mem_singleton.2 (addBelow_extends none e g).2)

/-- A node that has been come across may be made to point to others. -/
theorem update (ht : Touched R G known g) (hr : r ∈ known) {f : TermNode → TermNode}
    (hhead : ∀ n, (f n).head = n.head) (hchildren : (f (g.node r)).children ⊆ known) :
    Touched R G known (g.update r f) := by
  have hlt := ht.known_lt r hr
  have hnode (i : Ref) : i ≠ r ∧ (g.update r f).node i = g.node i ∨
      i = r ∧ (g.update r f).node i = f (g.node r) := by
    by_cases hi : i = r
    · subst hi
      exact .inr ⟨rfl, node_update_self hlt f⟩
    · exact .inl ⟨hi, node_update_of_ne hi f⟩
  refine ⟨?_, ?_, ?_, ?_, fun I hI hout => ⟨?_, ?_⟩, ?_, ht.known_outside⟩
  · intro i c hc
    rw [size_update]
    rcases hnode i with ⟨-, hi⟩ | ⟨rfl, hi⟩ <;> rw [hi] at hc
    · exact ht.closed i c hc
    · exact ht.known_lt c (hchildren hc)
  · rw [size_update]
    exact ht.size_le
  · intro i hi
    rcases hnode i with ⟨-, heq⟩ | ⟨rfl, heq⟩ <;> rw [heq]
    · exact ht.head i hi
    · rw [hhead, ht.head i hi]
  · rw [size_update]
    exact ht.known_lt
  · rw [size_update]
    exact (ht.island I hI hout).lt
  · intro i c hc hIc
    rcases hnode i with ⟨-, hi⟩ | ⟨rfl, hi⟩ <;> rw [hi] at hc
    · exact (ht.island I hI hout).closed i c hc hIc
    · exact absurd hIc (ht.known_outside I hI hout c (hchildren hc))
  · intro I hI hout i hi
    have hne : i ≠ r := by
      rintro rfl
      exact ht.known_outside I hI hout i hr hi
    rw [node_update_of_ne hne, ht.node_eq I hI hout i hi]

/-- A known node may get known nodes as children. -/
theorem setChildren (ht : Touched R G known g) (hr : r ∈ known) {cs : List Ref} (hcs : cs ⊆ known) :
    Touched R G known (g.setChildren r cs) :=
  ht.update hr (fun _ => rfl) hcs

/-- A computation for every member of a list, each with what the earlier ones made known. -/
theorem mapM {α : Type} {f : α → Edit Ref} {as : List α}
    (hf : ∀ a ∈ as, ∀ {known' g s h}, known ⊆ known' → Touched R G known' g →
      Edit.Gives (f a) g s h → Touched R G (s :: known') h)
    {known' : List Ref} (hsub : known ⊆ known') (ht : Touched R G known' g) {ss : List Ref}
    (hgives : Edit.Gives (as.mapM f) g ss h) : Touched R G (ss ++ known') h := by
  induction as generalizing known' g ss with
  | nil =>
    obtain ⟨rfl, rfl⟩ := Edit.gives_pure.1 hgives
    exact ht
  | cons a as ih =>
    rw [List.mapM_cons] at hgives
    obtain ⟨s, k, ha, hgives⟩ := Edit.gives_bind.1 hgives
    obtain ⟨ss, k', has, hgives⟩ := Edit.gives_bind.1 hgives
    obtain ⟨rfl, rfl⟩ := Edit.gives_pure.1 hgives
    obtain ⟨hfa, hfas⟩ := List.forall_mem_cons.1 hf
    have hs := hfa hsub ht ha
    refine (ih hfas (List.Subset.trans hsub (List.subset_cons_self s known')) hs has).subset ?_
    intro c hc
    simp only [List.cons_append, List.mem_cons, List.mem_append] at hc ⊢
    tauto

/-- The children of a node are replaced by what they have become. -/
theorem replaceChildren {f : Ref → Edit Ref}
    (hf : ∀ {known' g r s h}, known ⊆ known' → Touched R G known' g → r ∈ known' →
      Edit.Gives (f r) g s h → Touched R G (s :: known') h)
    (ht : Touched R G known g) (hr : r ∈ known) {cs : List Ref}
    (hcs : Edit.Gives ((g.node r).children.mapM f) g cs h) :
    Touched R G known (h.setChildren r cs) := by
  have hmap := mapM
    (fun c hc _ _ _ _ hsub ht hgives =>
      hf (List.Subset.trans (List.subset_append_right _ known) hsub) ht
        (hsub (List.mem_append_left _ hc)) hgives)
    (List.Subset.refl _) (ht.children hr) hcs
  have hsub : known ⊆ cs ++ ((g.node r).children ++ known) :=
    List.Subset.trans (List.subset_append_right _ _) (List.subset_append_right _ _)
  exact (hmap.setChildren (hsub hr) (List.subset_append_left _ _)).subset hsub

/-- A result that was added is known. -/
theorem addResult (ht : Touched R G known g) {x : Except AlgebraError Expr}
    (hgives : Edit.Gives (Edit.addResult x) g s h) : Touched R G (s :: known) h := by
  obtain ⟨e, -, rfl, rfl⟩ := Edit.gives_addResult.1 hgives
  exact ht.add e

end Touched

/-! ### Expanding, substituting and deriving -/

namespace Edit

variable {R known : List Ref} {G g h : TermGraph} {r s : Ref}

mutual

/-- Adding an expanded expression makes fresh nodes only. -/
theorem addExpandedBelow_extends (parent : Option (Shape × String)) : ∀ (e : Expr) (g : TermGraph),
    Extends g (addExpandedBelow parent e g).2 ∧
      IsFresh g (addExpandedBelow parent e g).2 (addExpandedBelow parent e g).1
  | .rational q, g => addBelow_extends parent (.rational q) g
  | .symbol s c, g => addBelow_extends parent (.symbol s c) g
  | .sum true es, g => by
    rw [addExpandedBelow]
    obtain ⟨hext, hfresh⟩ := addExpandedAllBelow_extends none es g
    exact ⟨hext.push hfresh, hext.isFresh_push _⟩
  | .sum false es, g | .product s es, g => by
    rw [addExpandedBelow]
    obtain ⟨hext, hfresh⟩ := addAllBelow_extends none es g
    exact ⟨hext.push hfresh, hext.isFresh_push _⟩
  | .power s b x, g => by
    rw [addExpandedBelow]
    obtain ⟨hb, hfb⟩ := addExpandedBelow_extends (some (.power, _)) b g
    obtain ⟨hx, hfx⟩ := addExpandedBelow_extends (some (.power, _)) x _
    have hext := hb.trans hx
    refine ⟨hext.push ?_, hext.isFresh_push _⟩
    exact List.forall_mem_cons.2 ⟨hfb.mono hx, List.forall_mem_singleton.2 (hfx.of_extends hb)⟩

theorem addExpandedAllBelow_extends (parent : Option (Shape × String)) :
    ∀ (es : List Expr) (g : TermGraph), Extends g (addExpandedAllBelow parent es g).2 ∧
      ∀ r ∈ (addExpandedAllBelow parent es g).1, IsFresh g (addExpandedAllBelow parent es g).2 r
  | [], g => ⟨.refl g, List.forall_mem_nil _⟩
  | e :: es, g => by
    rw [addExpandedAllBelow]
    obtain ⟨he, hfe⟩ := addExpandedBelow_extends parent e g
    obtain ⟨hes, hfes⟩ := addExpandedAllBelow_extends parent es _
    refine ⟨he.trans hes, List.forall_mem_cons.2 ⟨hfe.mono hes, ?_⟩⟩
    exact fun r hr => (hfes r hr).of_extends he

end

/-- Adding an expanded expression touches no island. -/
theorem addExpanded_touched (ht : Touched R G known g) {e : Expr}
    (hgives : Gives (addExpanded e) g s h) : Touched R G (s :: known) h := by
  obtain ⟨rfl, rfl⟩ := (gives_of_run_eq rfl).1 hgives
  obtain ⟨hext, hfresh⟩ := addExpandedBelow_extends none e g
  exact ht.fresh hext (List.forall_mem_singleton.2 hfresh)

theorem add_touched (ht : Touched R G known g) {e : Expr} (hgives : Gives (add e) g s h) :
    Touched R G (s :: known) h := by
  obtain ⟨rfl, rfl⟩ := gives_add.1 hgives
  exact ht.add e

/-- Expanding a sum touches known nodes only. -/
theorem expandSum_touched (ht : Touched R G known g) (hr : r ∈ known) {es : List Expr}
    (hgives : Gives (expandSum r es) g s h) : Touched R G (s :: known) h := by
  rw [expandSum] at hgives
  obtain ⟨n, k, hn, hgives⟩ := gives_bind.1 hgives
  obtain ⟨-, rfl⟩ := gives_node.1 hn
  split at hgives
  · obtain ⟨again, k, hagain, hgives⟩ := gives_bind.1 hgives
    obtain ⟨-, rfl⟩ := gives_mapM (P := fun e x => Expr.expand e = .ok x)
      (fun hx => gives_ofExcept.1 hx) hagain
    obtain ⟨cs, k, hcs, hgives⟩ := gives_bind.1 hgives
    obtain ⟨u, k', hset, hgives⟩ := gives_bind.1 hgives
    obtain rfl := gives_setChildren.1 hset
    have hmap := Touched.mapM (fun _ _ _ _ _ _ _ ht hgives => addExpanded_touched ht hgives)
      (List.Subset.refl known) ht hcs
    have hnew := hmap.setChildren (List.mem_append_right cs hr) (List.subset_append_left cs known)
    exact add_touched (hnew.subset (List.subset_append_right cs known)) hgives
  · exact add_touched ht hgives

/-- A step of an expansion touches known nodes only, by induction on the depth of its calls. -/
theorem expandWithin_touched {n : Nat} (ht : Touched R G known g) (hr : r ∈ known)
    (hgives : Gives (expandWithin n r) g s h) : Touched R G (s :: known) h := by
  induction n generalizing known g r s h with
  | zero => exact absurd hgives not_gives_throw
  | succ n ih =>
    rw [expandWithin] at hgives
    obtain ⟨m, k, hm, hgives⟩ := gives_bind.1 hgives
    obtain ⟨rfl, rfl⟩ := gives_node.1 hm
    split at hgives
    · obtain ⟨e, k, he, hgives⟩ := gives_bind.1 hgives
      obtain ⟨-, rfl⟩ := gives_expr.1 he
      exact add_touched ht hgives
    · obtain ⟨e, k, he, hgives⟩ := gives_bind.1 hgives
      obtain ⟨-, rfl⟩ := gives_expr.1 he
      exact add_touched ht hgives
    · obtain ⟨cs, k, es, hcs, -, hgives⟩ := gives_replaceChildren hgives
      exact expandSum_touched (.replaceChildren (fun _ => ih) ht hr hcs) hr hgives
    · obtain ⟨cs, k, es, hcs, -, hgives⟩ := gives_replaceChildren hgives
      exact add_touched (.replaceChildren (fun _ => ih) ht hr hcs) hgives
    · split at hgives
      · rename_i b x _ hchildren
        have hb : b ∈ (g.node r).children ++ known := by simp [hchildren]
        have hx : x ∈ (g.node r).children ++ known := by simp [hchildren]
        obtain ⟨e, k, he, hgives⟩ := gives_bind.1 hgives
        obtain ⟨-, rfl⟩ := gives_expr.1 he
        have hsub {c : Ref} : c :: known ⊆ c :: ((g.node r).children ++ known) :=
          List.cons_subset_cons c (List.subset_append_right _ _)
        split at hgives
        · obtain ⟨y, k, hy, hgives⟩ := gives_bind.1 hgives
          obtain ⟨e, k', he, hgives⟩ := gives_bind.1 hgives
          obtain ⟨-, rfl⟩ := gives_expr.1 he
          have hty := (ih (ht.children hr) hb hy).subset hsub
          exact (hty.addResult hgives).subset
            (List.cons_subset_cons s (List.subset_cons_self y known))
        · obtain ⟨y, k, hy, hgives⟩ := gives_bind.1 hgives
          obtain ⟨z, k', hz, hgives⟩ := gives_bind.1 hgives
          obtain ⟨e, k', he, hgives⟩ := gives_bind.1 hgives
          obtain ⟨-, rfl⟩ := gives_expr.1 he
          obtain ⟨e', k', he', hgives⟩ := gives_bind.1 hgives
          obtain ⟨-, rfl⟩ := gives_expr.1 he'
          have hty := ih (ht.children hr) hb hy
          have htz := ih hty (List.mem_cons_of_mem y hx) hz
          refine (add_touched htz hgives).subset (List.cons_subset_cons s ?_)
          exact List.Subset.trans (List.subset_append_right _ _)
            (List.Subset.trans (List.subset_cons_self y _) (List.subset_cons_self z _))
      · exact absurd hgives not_gives_throw

theorem expand_touched (ht : Touched R G known g) (hr : r ∈ known)
    (hgives : Gives (expand r) g s h) : Touched R G (s :: known) h := by
  obtain ⟨_, _, hget, hgives⟩ := gives_bind.1 hgives
  obtain ⟨-, rfl⟩ := gives_get.1 hget
  exact expandWithin_touched ht hr hgives

/-- The loop of an expansion touches known nodes only: every step is on the result of the one
before. -/
theorem expandAll_touched (ht : Touched R G known g) (hr : r ∈ known)
    (hgives : Gives (expandAll r) g s h) : Touched R G (s :: known) h := by
  rw [expandAll] at hgives
  obtain ⟨x, k, hx, hgives⟩ := gives_bind.1 hgives
  have htx := (expand_touched ht hr hx).subset (List.subset_cons_self x known)
  obtain ⟨_, _, hget, hgives⟩ := gives_bind.1 hgives
  obtain ⟨rfl, rfl⟩ := gives_get.1 hget
  split at hgives
  · obtain ⟨rfl, rfl⟩ := gives_pure.1 hgives
    exact htx.subset (List.cons_subset.2 ⟨hr, List.Subset.refl known⟩)
  · obtain ⟨e, _, he, hgives⟩ := gives_bind.1 hgives
    obtain ⟨-, rfl⟩ := gives_expr.1 he
    obtain ⟨e', _, he', hgives⟩ := gives_bind.1 hgives
    obtain ⟨-, rfl⟩ := gives_ofExcept.1 he'
    exact addExpanded_touched htx hgives

/-- A substitution touches known nodes only, if what is put in is known. -/
theorem substituteWithin_touched {old new : Ref} {n : Nat} (ht : Touched R G known g)
    (hnew : new ∈ known) (hr : r ∈ known) (hgives : Gives (substituteWithin old new n r) g s h) :
    Touched R G (s :: known) h := by
  induction n generalizing known g r s h with
  | zero => exact absurd hgives not_gives_throw
  | succ n ih =>
    rw [substituteWithin] at hgives
    obtain ⟨m, _, hm, hgives⟩ := gives_bind.1 hgives
    obtain ⟨rfl, rfl⟩ := gives_node.1 hm
    obtain ⟨cs, k, hcs, hgives⟩ := gives_bind.1 hgives
    obtain ⟨_, _, hset, hgives⟩ := gives_bind.1 hgives
    obtain rfl := gives_setChildren.1 hset
    obtain ⟨_, _, hget, hgives⟩ := gives_bind.1 hgives
    obtain ⟨rfl, rfl⟩ := gives_get.1 hget
    obtain ⟨rfl, rfl⟩ := gives_pure.1 hgives
    have hchildren := ht.replaceChildren (fun hsub ht hr => ih ht (hsub hnew) hr) hr hcs
    refine hchildren.subset (List.cons_subset.2 ⟨?_, List.Subset.refl known⟩)
    split
    · exact hnew
    · exact hr

theorem substitute_touched {old new : Ref} (ht : Touched R G known g) (hnew : new ∈ known)
    (hr : r ∈ known) (hgives : Gives (substitute old new r) g s h) :
    Touched R G (s :: known) h := by
  obtain ⟨_, _, hget, hgives⟩ := gives_bind.1 hgives
  obtain ⟨-, rfl⟩ := gives_get.1 hget
  exact substituteWithin_touched ht hnew hr hgives

/-- An evaluation is a substitution, and touches known nodes only. -/
theorem eval_touched {q : Ref} (ht : Touched R G known g) (hr : r ∈ known) (hq : q ∈ known)
    (hgives : Gives (eval r q) g s h) : Touched R G (s :: known) h := by
  rw [eval] at hgives
  obtain ⟨n, _, hn, hgives⟩ := gives_bind.1 hgives
  obtain ⟨-, rfl⟩ := gives_node.1 hn
  obtain ⟨e, _, he, hgives⟩ := gives_bind.1 hgives
  obtain ⟨-, rfl⟩ := gives_expr.1 he
  split at hgives
  · obtain ⟨x, k, hx, hgives⟩ := gives_bind.1 hgives
    have htx := (add_touched ht hx).subset (List.subset_cons_self x known)
    exact substitute_touched htx hq hr hgives
  · exact absurd hgives not_gives_throw

/-- The simplified derivative is made of fresh nodes. -/
theorem gives_simplDerive {x : Ref} (hgives : Gives (simplDerive r x) g s h) :
    ∃ a b e, Expr.simplDerive a b = .ok e ∧ (g.add e).1 = s ∧ (g.add e).2 = h := by
  rw [simplDerive] at hgives
  obtain ⟨a, _, ha, hgives⟩ := gives_bind.1 hgives
  obtain ⟨-, rfl⟩ := gives_expr.1 ha
  obtain ⟨b, _, hb, hgives⟩ := gives_bind.1 hgives
  obtain ⟨-, rfl⟩ := gives_expr.1 hb
  obtain ⟨e, he, hadd⟩ := gives_addResult.1 hgives
  exact ⟨a, b, e, he, hadd⟩

/-- What a polynomial is derived to is an expression that was added. -/
theorem gives_derivePolynomial {x : Ref} (hgives : Gives (derivePolynomial r x) g s h) :
    ∃ k a b e, Expr.simplDerive a b = .ok e ∧ (TermGraph.add k e).1 = s ∧
      (TermGraph.add k e).2 = h := by
  rw [derivePolynomial] at hgives
  obtain ⟨n, _, hn, hgives⟩ := gives_bind.1 hgives
  obtain ⟨-, rfl⟩ := gives_node.1 hn
  split at hgives
  · obtain ⟨y, k, hy, hgives⟩ := gives_bind.1 hgives
    obtain ⟨a, _, ha, hgives⟩ := gives_bind.1 hgives
    obtain ⟨-, rfl⟩ := gives_expr.1 ha
    obtain ⟨b, _, hb, hgives⟩ := gives_bind.1 hgives
    obtain ⟨-, rfl⟩ := gives_expr.1 hb
    split at hgives
    · obtain ⟨z, k, hz, hgives⟩ := gives_bind.1 hgives
      exact ⟨k, gives_simplDerive hgives⟩
    · exact absurd hgives not_gives_throw
  · exact absurd hgives not_gives_throw

end Edit

end SymScript.TermGraph
