import SymScript.Proofs.NodeOrder
import SymScript.TermSpec

/-!
# Nodes as they are made

The nodes that are made for an expression hold it, down to the names, so they are equal to those
made for it elsewhere.  What a description makes is made so too, except for the numbers in it, which
may show a denominator of one.  Sums and products take copies of their parts: the laws for
expressions decide whether the order of the parts matters.
-/

namespace SymScript

namespace Expr

/-- A compound node has children. -/
def FilledNode (e : Expr) : Prop := Compound e → e.children ≠ []

/-- Leaves need no children. -/
theorem filledNode_of_leaf {e : Expr} (h : ¬ Compound e) : FilledNode e := fun hc => absurd hc h

theorem unsignedNode_of_leaf {e : Expr} (h : ¬ Compound e) : UnsignedNode e := by
  cases e with
  | rational | symbol => trivial
  | sum s es => exact absurd (sum_compound s es) h
  | product s es => exact absurd (product_compound s es) h
  | power s b x => exact absurd (power_compound s b x) h

/-- A copy has as many children as the original. -/
theorem length_children_copy (e : Expr) : (copy e).children.length = e.children.length := by
  cases e <;> simp [copy, children, copyAll_eq_map]

theorem filledNode_copy (e : Expr) : FilledNode (copy e) ↔ FilledNode e := by
  rw [FilledNode, FilledNode, Compound, Compound, shape_copy, ← List.length_pos_iff,
    length_children_copy, List.length_pos_iff]

/-- A child is smaller than its parent. -/
theorem size_lt_of_mem_children {e c : Expr} (h : c ∈ e.children) : c.size < e.size := by
  cases e with
  | rational => cases h
  | symbol => cases h
  | sum s es => exact Nat.lt_succ_of_le (size_le_sizeAll h)
  | product s es => exact Nat.lt_succ_of_le (size_le_sizeAll h)
  | power s b x =>
    rw [size]
    rcases List.mem_cons.1 h with rfl | h
    · omega
    · rw [List.mem_singleton.1 h]
      omega

theorem size_pos (e : Expr) : 0 < e.size := by
  cases e <;> exact Nat.succ_pos _

/-- What holds of a node and everywhere in its children holds everywhere in it. -/
theorem Everywhere.of_children {P : Expr → Prop} {e : Expr} (he : P e)
    (hc : ∀ c ∈ e.children, Everywhere P c) : Everywhere P e := by
  cases e with
  | rational => exact everywhere_rational_iff.2 he
  | symbol => exact everywhere_symbol_iff.2 he
  | sum => exact everywhere_sum_iff.2 ⟨he, hc⟩
  | product => exact everywhere_product_iff.2 ⟨he, hc⟩
  | power s b x =>
    exact everywhere_power_iff.2 ⟨he, hc b List.mem_cons_self, hc x (.tail b List.mem_cons_self)⟩

end Expr

namespace TermGraph

variable {P : TermNode → Prop} {g h k : TermGraph} {r s : Ref} {m n : Nat}

/-! ### Nodes of an expression -/

/-- The node and those below it are what is made for the expression. -/
inductive Holds (g : TermGraph) : Ref → Expr → Prop
  | intro {r : Ref} {e : Expr} (size : r < g.nodes.size) (head : (g.node r).head = headOf e)
    (negated : (g.node r).negated = e.negated) (name : (g.node r).name = e.name)
    (children : List.Forall₂ (Holds g) (g.node r).children e.children) : Holds g r e

/-- A place holds an expression if its node does and its children hold the children. -/
theorem Holds.of_node {n : TermNode} {e : Expr} (hsize : r < g.nodes.size) (hnode : g.node r = n)
    (hhead : n.head = headOf e) (hnegated : n.negated = e.negated) (hname : n.name = e.name)
    (hchildren : List.Forall₂ (Holds g) n.children e.children) : Holds g r e := by
  subst hnode
  exact ⟨hsize, hhead, hnegated, hname, hchildren⟩

mutual

/-- The nodes made for an expression hold it, whatever else is changed. -/
theorem holds_addBelow {parent : Option (Shape × String)} : ∀ (e : Expr) {g k : TermGraph},
    AgreesSince g (addBelow parent e g).2 k → (addBelow parent e g).2.nodes.size ≤ k.nodes.size →
      Holds k (addBelow parent e g).1 e
  | .rational q, g, k, hk, hsize | .symbol s c, g, k, hk, hsize => by
    rw [addBelow] at hk hsize ⊢
    rw [size_push] at hsize
    exact .of_node hsize (hk.node_push (.refl g)) rfl rfl rfl .nil
  | .sum s es, g, k, hk, hsize | .product s es, g, k, hk, hsize => by
    rw [addBelow] at hk hsize ⊢
    rw [size_push] at hsize
    exact .of_node hsize (hk.node_push (addAllBelow_extends _ es g).1) rfl rfl rfl
      (holds_addAllBelow es hk.of_push (Nat.le_of_succ_le hsize))
  | .power s b x, g, k, hk, hsize => by
    rw [addBelow] at hk hsize ⊢
    rw [size_push] at hsize
    have hb := (addBelow_extends (some (.power, (Expr.power s b x).name)) b g).1
    have hx := (addBelow_extends (some (.power, (Expr.power s b x).name)) x
      (addBelow (some (.power, (Expr.power s b x).name)) b g).2).1
    have hle := Nat.le_of_succ_le hsize
    refine .of_node hsize (hk.node_push (hb.trans hx)) rfl rfl rfl ?_
    exact .cons (holds_addBelow b (hk.of_push.left hx) (Nat.le_trans hx.size_le hle))
      (.cons (holds_addBelow x (hk.of_push.right hb) hle) .nil)

theorem holds_addAllBelow {parent : Option (Shape × String)} : ∀ (es : List Expr) {g k : TermGraph},
    AgreesSince g (addAllBelow parent es g).2 k →
      (addAllBelow parent es g).2.nodes.size ≤ k.nodes.size →
        List.Forall₂ (Holds k) (addAllBelow parent es g).1 es
  | [], _, _, _, _ => .nil
  | e :: es, g, k, hk, hsize => by
    rw [addAllBelow] at hk hsize ⊢
    have he := (addBelow_extends parent e g).1
    have hes := (addAllBelow_extends parent es (addBelow parent e g).2).1
    exact .cons (holds_addBelow e (hk.left hes) (Nat.le_trans hes.size_le hsize))
      (holds_addAllBelow es (hk.right he) hsize)

end

/-- An expression that was added is held by the place that is given for it. -/
theorem holds_add {e : Expr} (hk : Extends (g.add e).2 k) : Holds k (g.add e).1 e :=
  holds_addBelow e (fun i hi => hk.node_eq i hi.2) hk.size_le

/-- Two lists that are related to the same one are related to each other. -/
theorem forall₂_of_common {R : Ref → Expr → Prop} {S : Ref → Ref → Prop} {as bs : List Ref}
    {es : List Expr} (hS : ∀ e ∈ es, ∀ x y, R x e → R y e → S x y) (ha : List.Forall₂ R as es)
    (hb : List.Forall₂ R bs es) : List.Forall₂ S as bs := by
  induction ha generalizing bs with
  | nil =>
    cases hb
    exact .nil
  | cons hx _ ih =>
    obtain ⟨he, hes⟩ := List.forall_mem_cons.1 hS
    cases hb with
    | cons hy hys => exact .cons (he _ _ hx hy) (ih hes hys)

/-- Nodes made for one expression are equal. -/
theorem Holds.eqWithin {e : Expr} (hr : Holds g r e) (hs : Holds g s e) (hn : e.size ≤ n) :
    g.eqWithin n r s = true := by
  induction n generalizing r s e with
  | zero => exact absurd hn (Nat.not_le_of_gt e.size_pos)
  | succ n ih =>
    cases hr with
    | intro _ hhead hnegated hname hchildren =>
      cases hs with
      | intro _ hhead' hnegated' hname' hchildren' =>
        refine eqWithin_succ_iff.2
          (.inr ⟨?_, hname.trans hname'.symm, hnegated.trans hnegated'.symm, ?_⟩)
        · rw [TermNode.shape, TermNode.shape, hhead, hhead']
        · refine forall₂_of_common (R := Holds g) (fun c hc x y hx hy => ih hx hy ?_)
            hchildren hchildren'
          exact Nat.le_of_lt_succ (Nat.lt_of_lt_of_le (Expr.size_lt_of_mem_children hc) hn)

theorem shape_headOf (e : Expr) : (headOf e).shape = e.shape := by cases e <;> rfl

/-- The numeral of a fraction is one of the texts of a number. -/
theorem digits_mem_texts (q : Fraction) : q.digits ∈ (TermHead.rational q.num q.den).texts := by
  rw [TermHead.texts, Fraction.digits]
  split
  · exact .tail _ List.mem_cons_self
  · exact List.mem_cons_self

/-- The name of an expression is its sign and a text of its head. -/
theorem exists_text (e : Expr) :
    ∃ text ∈ (headOf e).texts, e.name = (if e.negated then "-" else "") ++ text := by
  cases e with
  | rational q => exact ⟨q.digits, digits_mem_texts q, rfl⟩
  | symbol s c => exact ⟨c.toString, List.mem_cons_self, rfl⟩
  | sum | product | power => exact ⟨_, List.mem_cons_self, rfl⟩

/-- Nodes that hold a filled expression are as they were made. -/
theorem Holds.made {e : Expr} (hr : Holds g r e) (he : Expr.Everywhere Expr.FilledNode e)
    (hn : e.size ≤ n) : Below TermNode.Made g n r := by
  induction n generalizing r e with
  | zero => exact absurd hn (Nat.not_le_of_gt e.size_pos)
  | succ n ih =>
    cases hr with
    | intro hsize hhead hnegated hname hchildren =>
      refine ⟨hsize, ⟨?_, ?_⟩, fun c hc => ?_⟩
      · rw [TermNode.Formed, TermNode.shape, hhead, shape_headOf, ← List.length_eq_zero_iff,
          hchildren.length_eq, List.length_eq_zero_iff]
        refine ⟨fun hnil => ?_, ?_⟩
        · by_contra hleaf
          exact he.self (not_or.1 hleaf) hnil
        · intro hleaf
          by_contra hne
          obtain ⟨c, hc⟩ := List.exists_mem_of_ne_nil _ hne
          exact not_or.2 (Expr.compound_of_mem_children hc) hleaf
      · rw [hhead, hnegated, hname]
        exact exists_text e
      · obtain ⟨d, hd, hcd⟩ := exists_of_forall₂ hchildren hc
        exact ih hcd (Expr.everywhere_of_mem_children he hd)
          (Nat.le_of_lt_succ (Nat.lt_of_lt_of_le (Expr.size_lt_of_mem_children hd) hn))

/-! ### Reading nodes -/

/-- A relation that has something for every member has a list for the list. -/
theorem exists_forall₂ {α β : Type} {R : α → β → Prop} {as : List α} (hR : ∀ a ∈ as, ∃ b, R a b) :
    ∃ bs, List.Forall₂ R as bs := by
  induction as with
  | nil => exact ⟨[], .nil⟩
  | cons a as ih =>
    obtain ⟨ha, has⟩ := List.forall_mem_cons.1 hR
    obtain ⟨b, hb⟩ := ha
    obtain ⟨bs, hbs⟩ := ih has
    exact ⟨b :: bs, .cons hb hbs⟩

/-- What a compound node reads as has the sign of the node, and children from those that were
read. -/
theorem assemble_cases (n : TermNode) (es : List Expr) :
    ¬ Expr.Compound (assemble n es) ∨
      (n.shape ≠ .rational ∧ n.shape ≠ .symbol) ∧ (assemble n es).negated = n.negated ∧
        (assemble n es).children ⊆ es ∧ (es ≠ [] → (assemble n es).children ≠ []) := by
  rw [TermNode.shape]
  unfold assemble
  cases n.head with
  | rational p d => by_cases hd : d = 0 <;> simp [hd, Expr.ofNat, Expr.Compound, Expr.shape]
  | symbol c => exact .inl fun hc => hc.2 rfl
  | sum | product =>
    exact .inr ⟨⟨by rintro ⟨⟩, by rintro ⟨⟩⟩, rfl, List.Subset.refl es, id⟩
  | power =>
    refine .inr ⟨⟨by rintro ⟨⟩, by rintro ⟨⟩⟩, ?_⟩
    rcases es with _ | ⟨b, _ | ⟨x, es⟩⟩
    · exact ⟨rfl, List.Subset.refl _, id⟩
    · exact ⟨rfl, List.Subset.refl _, id⟩
    · refine ⟨rfl, List.cons_subset_cons b (List.cons_subset_cons x (List.nil_subset es)),
        fun _ => ?_⟩
      exact List.cons_ne_nil b [x]

/-- An expression that is put together has no other children than it was given. -/
theorem children_assemble_subset (n : TermNode) (es : List Expr) :
    (assemble n es).children ⊆ es := by
  intro e he
  rcases assemble_cases n es with hleaf | ⟨-, -, hsub, -⟩
  · exact absurd (Expr.compound_of_mem_children he) hleaf
  · exact hsub he

/-- A node that ends within the bound reads as an expression, whose nodes are what `P` makes
them. -/
theorem Below.exists_expr {Q : Expr → Prop}
    (hPQ : ∀ n es, P n → es.length = n.children.length → Q (assemble n es)) (hr : Below P g n r) :
    ∃ e, g.exprWithin n r = .ok e ∧ Expr.Everywhere Q e := by
  induction n generalizing r with
  | zero => cases hr
  | succ n ih =>
    obtain ⟨-, hnode, hchildren⟩ := hr
    obtain ⟨es, hes⟩ := exists_forall₂ fun c hc => ih (hchildren c hc)
    refine ⟨assemble (g.node r) es, ?_, .of_children (hPQ _ es hnode hes.length_eq.symm) ?_⟩
    · rw [exprWithin, mapM_eq_ok_iff.2 (hes.imp fun _ _ => And.left)]
      rfl
    · intro e he
      exact forall_of_forall₂ hes (fun _ _ => And.right) e (children_assemble_subset _ es he)

/-- What a formed node reads as stays the same when nodes are added. -/
theorem Below.exprWithin_eq (hgh : Extends g h) (hnm : n ≤ m) (hr : Below P g n r) {e : Expr}
    (he : g.exprWithin n r = .ok e) : h.exprWithin m r = .ok e := by
  induction n generalizing m r e with
  | zero => cases hr
  | succ n ih =>
    obtain ⟨m, rfl⟩ := Nat.exists_eq_add_of_le' hnm
    obtain ⟨hsize, hnode, hchildren⟩ := hr
    rw [exprWithin] at he
    obtain ⟨es, hes, he⟩ := bind_eq_ok he
    rw [← Nat.add_assoc, exprWithin, hgh.node_eq r hsize, mapM_eq_ok_iff.2]
    · exact he
    · refine ((List.forall₂_and_left _ _).2 ⟨hchildren, mapM_eq_ok_iff.1 hes⟩).imp ?_
      rintro c d ⟨hc, hcd⟩
      exact ih (Nat.le_add_left n m) hc hcd

/-- The node reads as the expression, also when nodes are added. -/
def Denotes (g : TermGraph) (r : Ref) (e : Expr) : Prop := ∀ h, Extends g h → h.expr r = .ok e

/-- A node whose nodes satisfy `P` reads as an expression whose nodes satisfy `Q`. -/
theorem Below.denotes {Q : Expr → Prop}
    (hPQ : ∀ n es, P n → es.length = n.children.length → Q (assemble n es))
    (hr : Below P g g.depthBound r) : ∃ e, Denotes g r e ∧ Expr.Everywhere Q e := by
  obtain ⟨e, he, hQ⟩ := hr.exists_expr hPQ
  exact ⟨e, fun h hgh => hr.exprWithin_eq hgh (Nat.succ_le_succ hgh.size_le) he, hQ⟩

/-- A node without signs below it reads as an expression without signs on compound nodes. -/
theorem Unsigned.denotes (hr : g.Unsigned r) :
    ∃ e, Denotes g r e ∧ Expr.Everywhere Expr.UnsignedNode e := by
  refine Below.denotes (fun n es hn _ => ?_) hr
  rcases assemble_cases n es with hleaf | ⟨hshape, hnegated, -, -⟩
  · exact Expr.unsignedNode_of_leaf hleaf
  · exact Expr.unsignedNode_of_negated
      (hnegated.trans (hn.name_eq (hn.1.1.children_ne_nil hshape)).1)

/-- A node that is as it was made reads as a filled expression. -/
theorem Made.denotes (hr : g.Made r) : ∃ e, Denotes g r e ∧ Expr.Everywhere Expr.FilledNode e := by
  refine Below.denotes (fun n es hn hlength => ?_) hr
  rcases assemble_cases n es with hleaf | ⟨hshape, -, -, hne⟩
  · exact Expr.filledNode_of_leaf hleaf
  · refine fun _ => hne ?_
    rw [← List.length_pos_iff, hlength, List.length_pos_iff]
    exact hn.1.children_ne_nil hshape

/-! ### Making sums, products and powers -/

namespace Edit

/-- The part is a term that reads as the expression. -/
def Reads (g : TermGraph) (d : Datum) (e : Expr) : Prop := ∃ r, d = .term r ∧ g.expr r = .ok e

/-- A part is read off, and nothing changes. -/
theorem gives_partOf {d : Datum} {e : Expr} : Gives (partOf d) g e h ↔ Reads g d e ∧ g = h := by
  cases d with
  | term r =>
    rw [partOf, gives_expr]
    refine and_congr_left fun _ => ⟨fun he => ⟨r, rfl, he⟩, ?_⟩
    rintro ⟨_, ⟨⟩, he⟩
    exact he
  | plain | pair =>
    refine iff_of_false not_gives_throw ?_
    rintro ⟨⟨_, ⟨⟩, _⟩, _⟩

/-- The parts of a compound node are read off one by one. -/
theorem gives_mapM_partOf {ds : List Datum} {es : List Expr} :
    Gives (ds.mapM partOf) g es h ↔ List.Forall₂ (Reads g) ds es ∧ g = h := by
  induction ds generalizing es h with
  | nil =>
    rw [List.mapM_nil, gives_pure, List.forall₂_nil_left_iff, eq_comm]
  | cons d ds ih =>
    rw [List.mapM_cons, gives_bind]
    constructor
    · rintro ⟨e, _, hpart, hparts⟩
      obtain ⟨he, rfl⟩ := gives_partOf.1 hpart
      obtain ⟨es, _, hrest, hpure⟩ := gives_bind.1 hparts
      obtain ⟨hes, rfl⟩ := ih.1 hrest
      obtain ⟨rfl, rfl⟩ := gives_pure.1 hpure
      exact ⟨.cons he hes, rfl⟩
    · rintro ⟨hes, rfl⟩
      cases hes with
      | cons he hes =>
        exact ⟨_, _, gives_partOf.2 ⟨he, rfl⟩,
          gives_bind.2 ⟨_, _, ih.2 ⟨hes, rfl⟩, gives_pure.2 ⟨rfl, rfl⟩⟩⟩

/-- A guarded computation gives something if the guard does not hold. -/
theorem gives_unless {α : Type} {p : Prop} [Decidable p] {error : AlgebraError}
    {x : Edit α} {a : α} :
    Gives (do
      if p then throw error
      x) g a h ↔ ¬ p ∧ Gives x g a h := by
  by_cases hp : p
  · refine iff_of_false ?_ fun hx => hx.1 hp
    rw [if_pos hp]
    intro hgives
    obtain ⟨_, _, hthrow, -⟩ := gives_bind.1 hgives
    exact not_gives_throw hthrow
  · rw [if_neg hp, and_iff_right hp]

/-- A list of at least two parts becomes one expression with fresh nodes. -/
theorem gives_addParts {error : AlgebraError} {make : List Expr → Expr} {ds : List Datum} :
    Gives (do
      if ds.length < 2 then throw error
      add (make (← ds.mapM partOf))) g r h ↔
      2 ≤ ds.length ∧ ∃ es, List.Forall₂ (Reads g) ds es ∧ g.add (make es) = (r, h) := by
  refine gives_unless.trans (and_congr Nat.not_lt (gives_bind.trans ?_))
  constructor
  · rintro ⟨es, _, hparts, hadd⟩
    obtain ⟨hes, rfl⟩ := gives_mapM_partOf.1 hparts
    obtain ⟨rfl, rfl⟩ := gives_add.1 hadd
    exact ⟨es, hes, rfl⟩
  · rintro ⟨es, hes, hadd⟩
    exact ⟨es, g, gives_mapM_partOf.2 ⟨hes, rfl⟩, gives_add.2 (Prod.ext_iff.1 hadd)⟩

/-- Run one after the other, the two give equal nodes. -/
def Agree (g : TermGraph) (x y : Edit Ref) : Prop :=
  ∃ r h s k, Gives x g r h ∧ Gives y h s k ∧ k.eq r s = true

/-- What is made of nodes without signs does not depend on the order in which these are given. -/
theorem agree_addParts {error : AlgebraError} {make : List Expr → Expr} {rs ss : List Ref}
    (hmake : ∀ {es fs}, (∀ e ∈ es, Expr.Everywhere Expr.UnsignedNode e) → es.Perm fs →
      make es = make fs)
    (hlength : 2 ≤ rs.length) (hrs : ∀ r ∈ rs, g.Unsigned r) (hp : rs.Perm ss) :
    Agree g
      (do
        if (rs.map Datum.term).length < 2 then throw error
        add (make (← (rs.map Datum.term).mapM partOf)))
      (do
        if (ss.map Datum.term).length < 2 then throw error
        add (make (← (ss.map Datum.term).mapM partOf))) := by
  obtain ⟨es, hes⟩ := exists_forall₂ fun r hr => (hrs r hr).denotes
  obtain ⟨fs, hfs, hpe⟩ := List.perm_comp_forall₂ hp.symm hes
  have hreads {ts : List Ref} {ds : List Expr} {h : TermGraph} (hgh : Extends g h)
      (hds : List.Forall₂ (fun r e => Denotes g r e ∧ Expr.Everywhere Expr.UnsignedNode e) ts ds) :
      List.Forall₂ (Reads h) (ts.map .term) ds :=
    List.forall₂_map_left_iff.2 (hds.imp fun r e he => ⟨r, rfl, he.1 h hgh⟩)
  have hextends (g : TermGraph) (e : Expr) : Extends g (g.add e).2 := (addBelow_extends none e g).1
  have heq := hmake (forall_of_forall₂ hes fun _ _ => And.right) hpe.symm
  refine ⟨_, _, _, _, gives_addParts.2 ⟨by rwa [List.length_map], es, hreads (.refl g) hes, rfl⟩,
    gives_addParts.2 ⟨by rwa [List.length_map, ← hp.length_eq], fs, hreads (hextends g _) hfs, rfl⟩,
    ?_⟩
  rw [← heq]
  refine (holds_add (hextends _ _)).eqWithin (holds_add (.refl _)) ?_
  rw [depthBound, size_addBelow]
  omega

end Edit

end TermGraph

/-! ### Making what is described -/

/-- The terms in a value are made. -/
def Datum.MadeIn (g : TermGraph) : Datum → Prop
  | term r => g.Made r
  | plain _ => True
  | pair a b => a.MadeIn g ∧ b.MadeIn g

/-- What is made stays so when nodes are added. -/
theorem Datum.MadeIn.of_extends {g h : TermGraph} (hgh : g.Extends h) {d : Datum}
    (hd : d.MadeIn g) : d.MadeIn h := by
  induction d with
  | term r => exact TermGraph.Below.of_extends hgh (Nat.succ_le_succ hgh.size_le) hd
  | plain => trivial
  | pair a b iha ihb => exact ⟨iha hd.1, ihb hd.2⟩

namespace TermGraph.Edit

variable {α β : Type} {g h : TermGraph} {r : Ref}

theorem gives_map {x : Edit α} {f : α → β} {b : β} :
    Gives (f <$> x) g b h ↔ ∃ a, Gives x g a h ∧ f a = b := by
  rw [← bind_pure_comp, gives_bind]
  constructor
  · rintro ⟨a, _, hx, hpure⟩
    obtain ⟨rfl, rfl⟩ := gives_pure.1 hpure
    exact ⟨a, hx, rfl⟩
  · rintro ⟨a, hx, rfl⟩
    exact ⟨a, h, hx, gives_pure.2 ⟨rfl, rfl⟩⟩

/-- Fresh nodes are added, and the one that is given is made. -/
def GivesMade (x : Edit Ref) (g : TermGraph) : Prop := ∀ r h, Gives x g r h → Extends g h ∧ h.Made r

/-- Adding a filled expression makes nodes whose names show their signs. -/
theorem add_givesMade {e : Expr} (he : Expr.Everywhere Expr.FilledNode e) :
    GivesMade (add e) g := by
  intro r h hgives
  obtain ⟨rfl, rfl⟩ := gives_add.1 hgives
  refine ⟨(addBelow_extends none e g).1, (holds_add (.refl _)).made he ?_⟩
  rw [depthBound, TermGraph.add, size_addBelow]
  omega

/-- Adding a leaf that is as it should be made. -/
theorem push_givesMade {n : TermNode} (hn : n.Made) (hc : n.children = []) :
    GivesMade (modifyGet fun g => g.push n) g := by
  intro r h hgives
  obtain ⟨rfl, rfl⟩ : (g.push n).1 = r ∧ (g.push n).2 = h := (gives_of_run_eq rfl).1 hgives
  refine ⟨(Extends.refl g).push ?_, by simp, ?_, ?_⟩
  · rw [hc]
    exact List.forall_mem_nil _
  · rwa [fst_push, node_push_self]
  · rw [fst_push, node_push_self, hc]
    exact List.forall_mem_nil _

/-- A number is made with a name that shows its sign. -/
theorem addRational_givesMade {num den : Int} {negated : Bool} :
    GivesMade (addRational num den negated) g := by
  rw [addRational]
  cases hq : Fraction.ofInts? num den negated with
  | none => exact fun _ _ hgives => absurd hgives not_gives_throw
  | some q =>
    refine push_givesMade ⟨iff_of_true rfl (.inl rfl), _, ?_, rfl⟩ rfl
    rw [TermHead.texts]
    by_cases hden : den = 1
    · subst hden
      cases hq
      exact .tail _ List.mem_cons_self
    · rw [if_neg hden]
      exact List.mem_cons_self

/-- A symbol is made with a name that shows its sign. -/
theorem addSymbol_givesMade {letter : Option String} {negated : Bool} :
    GivesMade (addSymbol letter negated) g := by
  intro r h hgives
  rw [addSymbol] at hgives
  split at hgives
  · exact absurd hgives not_gives_throw
  · split at hgives
    · exact add_givesMade
        (Expr.everywhere_symbol_iff.2 (Expr.filledNode_of_leaf fun hc => hc.2 rfl)) r h hgives
    · exact absurd hgives not_gives_throw
  · exact absurd hgives not_gives_throw

/-- What a made datum reads as is filled. -/
theorem Reads.filled {d : Datum} {e : Expr} (hd : Reads g d e) (hmade : d.MadeIn g) :
    Expr.Everywhere Expr.FilledNode e := by
  obtain ⟨r, rfl, he⟩ := hd
  obtain ⟨e', he', hfilled⟩ := Made.denotes hmade
  rw [he' g (.refl g), Except.ok.injEq] at he
  exact he ▸ hfilled

/-- A compound node takes copies of its parts, and so has names that show its signs. -/
theorem addParts_givesMade {error : AlgebraError} {make : List Expr → Expr} {ds : List Datum}
    (hmake : ∀ es, es ≠ [] → (∀ e ∈ es, Expr.Everywhere Expr.FilledNode e) →
      Expr.Everywhere Expr.FilledNode (make es)) (hds : ∀ d ∈ ds, d.MadeIn g) :
    GivesMade (do
      if ds.length < 2 then throw error
      add (make (← ds.mapM partOf))) g := by
  intro r h hgives
  obtain ⟨hlength, es, hes, hadd⟩ := gives_addParts.1 hgives
  have hne : es ≠ [] := by
    rw [← List.length_pos_iff, ← hes.length_eq]
    omega
  refine add_givesMade (hmake es hne fun e he => ?_) r h (gives_add.2 (Prod.ext_iff.1 hadd))
  obtain ⟨d, hd, hde⟩ := exists_of_forall₂ hes.flip he
  exact Reads.filled hde (hds d hd)

theorem addSum_givesMade {ds : List Datum} {s : Bool} (hds : ∀ d ∈ ds, d.MadeIn g) :
    GivesMade (addSum ds s) g :=
  addParts_givesMade (fun _ hne hes => (Expr.everywhere_mkSum_iff Expr.filledNode_copy).2
    ⟨fun _ => hne, hes⟩) hds

theorem addProduct_givesMade {ds : List Datum} {s : Bool} (hds : ∀ d ∈ ds, d.MadeIn g) :
    GivesMade (addProduct ds s) g :=
  addParts_givesMade (fun _ hne hes => (Expr.everywhere_mkProduct_iff Expr.filledNode_copy).2
    ⟨fun _ => hne, hes⟩) hds

theorem addPower_givesMade {b x : Datum} {s : Bool} (hb : b.MadeIn g) (hx : x.MadeIn g) :
    GivesMade (addPower b x s) g := by
  intro r h hgives
  rw [addPower] at hgives
  obtain ⟨-, hgives⟩ := gives_unless.1 hgives
  obtain ⟨-, hgives⟩ := gives_unless.1 hgives
  obtain ⟨e, _, hpart, hgives⟩ := gives_bind.1 hgives
  obtain ⟨he, rfl⟩ := gives_partOf.1 hpart
  obtain ⟨f, _, hpart, hgives⟩ := gives_bind.1 hgives
  obtain ⟨hf, rfl⟩ := gives_partOf.1 hpart
  refine add_givesMade ((Expr.everywhere_copy_iff Expr.filledNode_copy (.power s e f)).2 ?_) r h
    hgives
  exact Expr.everywhere_power_iff.2 ⟨fun _ => List.cons_ne_nil _ _, he.filled hb, hf.filled hx⟩

mutual

/-- What a description makes is made, if that holds of the values that it mentions. -/
theorem made_build {registers : List (String × Datum)} :
    ∀ (spec : TermSpec) {g h : TermGraph} {d : Datum},
    (∀ p ∈ registers, p.2.MadeIn g) → Gives (build registers spec) g d h →
      Extends g h ∧ d.MadeIn h
  | .rational num den negated, g, h, d, _, hgives => by
    rw [build] at hgives
    obtain ⟨r, hr, rfl⟩ := gives_map.1 hgives
    exact addRational_givesMade r h hr
  | .symbol letter negated, g, h, d, _, hgives => by
    rw [build] at hgives
    obtain ⟨r, hr, rfl⟩ := gives_map.1 hgives
    exact addSymbol_givesMade r h hr
  | .sum specs negated, g, h, d, hregisters, hgives => by
    rw [build] at hgives
    obtain ⟨ds, k, hds, hgives⟩ := gives_bind.1 hgives
    obtain ⟨r, _, hr, hpure⟩ := gives_bind.1 hgives
    obtain ⟨rfl, rfl⟩ := gives_pure.1 hpure
    obtain ⟨hgk, hmade⟩ := made_buildAll specs hregisters hds
    obtain ⟨hkh, hr⟩ := addSum_givesMade hmade r _ hr
    exact ⟨hgk.trans hkh, hr⟩
  | .product specs negated, g, h, d, hregisters, hgives => by
    rw [build] at hgives
    obtain ⟨ds, k, hds, hgives⟩ := gives_bind.1 hgives
    obtain ⟨r, _, hr, hpure⟩ := gives_bind.1 hgives
    obtain ⟨rfl, rfl⟩ := gives_pure.1 hpure
    obtain ⟨hgk, hmade⟩ := made_buildAll specs hregisters hds
    obtain ⟨hkh, hr⟩ := addProduct_givesMade hmade r _ hr
    exact ⟨hgk.trans hkh, hr⟩
  | .power b x negated, g, h, d, hregisters, hgives => by
    rw [build] at hgives
    obtain ⟨base, k, hbase, hgives⟩ := gives_bind.1 hgives
    obtain ⟨exponent, l, hexponent, hgives⟩ := gives_bind.1 hgives
    obtain ⟨r, _, hr, hpure⟩ := gives_bind.1 hgives
    obtain ⟨rfl, rfl⟩ := gives_pure.1 hpure
    obtain ⟨hgk, hmade⟩ := made_build b hregisters hbase
    obtain ⟨hkl, hmade'⟩ := made_build x (fun p hp => (hregisters p hp).of_extends hgk) hexponent
    obtain ⟨hlh, hr⟩ := addPower_givesMade (hmade.of_extends hkl) hmade' r _ hr
    exact ⟨hgk.trans (hkl.trans hlh), hr⟩
  | .listless shape, g, h, d, _, hgives => by
    cases shape <;> exact absurd hgives not_gives_throw
  | .register name, g, h, d, hregisters, hgives => by
    rw [build] at hgives
    obtain ⟨rfl, rfl⟩ := gives_pure.1 hgives
    refine ⟨.refl g, ?_⟩
    cases hlookup : registers.lookup name with
    | none => trivial
    | some d =>
      obtain ⟨front, back, rfl, -⟩ := List.lookup_eq_some_iff.1 hlookup
      exact hregisters (name, d) (by simp)
  | .plain value, g, h, d, _, hgives => by
    rw [build] at hgives
    obtain ⟨rfl, rfl⟩ := gives_pure.1 hgives
    exact ⟨.refl g, trivial⟩

theorem made_buildAll {registers : List (String × Datum)} :
    ∀ (specs : List TermSpec) {g h : TermGraph}
    {ds : List Datum}, (∀ p ∈ registers, p.2.MadeIn g) → Gives (buildAll registers specs) g ds h →
      Extends g h ∧ ∀ d ∈ ds, d.MadeIn h
  | [], g, h, ds, _, hgives => by
    rw [buildAll] at hgives
    obtain ⟨rfl, rfl⟩ := gives_pure.1 hgives
    exact ⟨.refl g, List.forall_mem_nil _⟩
  | spec :: specs, g, h, ds, hregisters, hgives => by
    rw [buildAll] at hgives
    obtain ⟨d, k, hd, hgives⟩ := gives_bind.1 hgives
    obtain ⟨ds, l, hds, hpure⟩ := gives_bind.1 hgives
    obtain ⟨rfl, rfl⟩ := gives_pure.1 hpure
    obtain ⟨hgk, hmade⟩ := made_build spec hregisters hd
    obtain ⟨hkl, hmades⟩ := made_buildAll specs (fun p hp => (hregisters p hp).of_extends hgk) hds
    exact ⟨hgk.trans hkl, List.forall_mem_cons.2 ⟨hmade.of_extends hkl, hmades⟩⟩

end

end TermGraph.Edit

/-! ### Both orders -/

open TermGraph TermGraph.Edit

/-- The order of expressions and that of formed nodes are strict partial orders that exclude
equality, and what a description makes is formed, with names that show its signs.  Where no compound
node has a sign, both orders are total, that of nodes as long as their names show their signs, and
sums and products are equal for every arrangement of their children. -/
theorem lt_strict_order (g : TermGraph) :
    StrictOrderOn (fun _ : Expr => True) (Expr.Everywhere Expr.UnsignedNode) (· == ·) Expr.lt ∧
    (∀ (s : Bool) (l l' : List Expr), (∀ e ∈ l, Expr.Everywhere Expr.UnsignedNode e) → l.Perm l' →
      (Expr.mkSum s l == Expr.mkSum s l') = true ∧
        (Expr.mkProduct s l == Expr.mkProduct s l') = true) ∧
    StrictOrderOn g.Formed g.Unsigned g.eq g.lt ∧
    (∀ registers spec d h, (∀ p ∈ registers, p.2.MadeIn g) → Gives (build registers spec) g d h →
      d.MadeIn h) ∧
    ∀ (s : Bool) (rs rs' : List Ref), 2 ≤ rs.length → (∀ r ∈ rs, g.Unsigned r) → rs.Perm rs' →
      Agree g (addSum (rs.map .term) s) (addSum (rs'.map .term) s) ∧
        Agree g (addProduct (rs.map .term) s) (addProduct (rs'.map .term) s) := by
  refine ⟨Expr.strictOrderOn_lt, fun s l l' hl hp => ?_, strictOrderOn_lt g, ?_, ?_⟩
  · rw [Expr.mkSum, Expr.mkSum, Expr.mkProduct, Expr.mkProduct,
      Expr.sort_copyAll_eq_of_unsigned hl hp]
    exact ⟨beq_self_eq_true _, beq_self_eq_true _⟩
  · exact fun registers spec d h hregisters hgives => (made_build spec hregisters hgives).2
  · intro s rs rs' hlength hrs hp
    constructor
    · refine agree_addParts (fun hes hp => ?_) hlength hrs hp
      exact congrArg (Expr.sum s) (Expr.sort_copyAll_eq_of_unsigned hes hp)
    · refine agree_addParts (fun hes hp => ?_) hlength hrs hp
      exact congrArg (Expr.product s) (Expr.sort_copyAll_eq_of_unsigned hes hp)

/-- The number -5 with its denominator and without it, the letter -x, and a sum of the last two. -/
def fourNodes : TermGraph where
  nodes := #[
    { head := .rational 5 1, negated := true, name := "-5/1" },
    { head := .rational 5 1, negated := true, name := "-5" },
    { head := .symbol 'x', negated := true, name := "-x" },
    { head := .sum, negated := false, name := "Add", children := [1, 2] }]

/-- The laws at these nodes: a pair that is compared through a third node, one that is told apart by
the denominator, and a sum of three in two arrangements. -/
theorem lt_strict_order_fourNodes :
    (∀ r ∈ [0, 1, 2, 3], fourNodes.Unsigned r) ∧ fourNodes.lt 1 3 = true ∧
    [fourNodes.lt 0 1, fourNodes.eq 0 1, fourNodes.lt 1 0].count true = 1 ∧
    Agree fourNodes (addSum ([0, 1, 3].map .term) true) (addSum ([3, 0, 1].map .term) true) ∧
    (∃ d h, Gives (build [("S", .term 3)] (.product [.rational 5 (-1) false, .register "S"] true))
      fourNodes d h ∧ d.MadeIn h) ∧
    (Expr.mkSum true [.ofNat 2, .symbol true 'x', .sum false [.ofNat 1, .symbol false 'y']] ==
      Expr.mkSum true [.sum false [.ofNat 1, .symbol false 'y'], .ofNat 2, .symbol true 'x']) =
        true := by
  have hnodes : ∀ r ∈ [0, 1, 2, 3], Below TermNode.Unsigned fourNodes fourNodes.depthBound r := by
    decide +kernel
  have hformed (r : Ref) (hr : r ∈ [0, 1, 2, 3]) : fourNodes.Formed r :=
    (hnodes r hr).imp fun _ hn => hn.1.1
  obtain ⟨-, hperm, horder, hbuild, hagree⟩ := lt_strict_order fourNodes
  refine ⟨hnodes, ?_, ?_, ?_, ?_, ?_⟩
  · exact horder.trans (hformed 1 (by decide)) (hformed 0 (by decide)) (hformed 3 (by decide))
      (by decide +kernel) (by decide +kernel)
  · exact horder.total (hnodes 0 (by decide)) (hnodes 1 (by decide))
  · exact (hagree true [0, 1, 3] [3, 0, 1] (by decide) (fun r hr => hnodes r (by revert r; decide))
      (by decide)).1
  · obtain ⟨h, hgives⟩ : ∃ h, Gives (build [("S", .term 3)]
        (.product [.rational 5 (-1) false, .register "S"] true)) fourNodes (.term 9) h := by
      with_unfolding_all exact ⟨_, Prod.ext rfl rfl⟩
    exact ⟨_, _, hgives, hbuild [("S", .term 3)] _ _ _
      (List.forall_mem_singleton.2 ((hnodes 3 (by decide)).imp fun _ => And.left)) hgives⟩
  · exact (hperm true _ _ (by decide) (by decide)).1

/-- The square of a negated letter, with a sign or without one. -/
def squareOf (s : Bool) : Expr := .power s (.symbol true 'x') (.ofNat 2)

/-- A signed square that is simplified, and an unsigned one that is made after it. -/
def simplifiedAndMade : Edit (Ref × Ref) := do
  let p ← add (squareOf true)
  let _ ← simplify p
  let q ← add (squareOf false)
  return (p, q)

/-- Simplifying a power can take its sign and leave the name that shows it.  The node then holds the
same expression without signs as one that is made so, and none of the two comes first, nor are they
equal. -/
theorem simplified_not_comparable : ∃ p q g, Gives simplifiedAndMade {} (p, q) g ∧
    g.expr p = .ok (squareOf false) ∧ g.expr q = .ok (squareOf false) ∧
    Expr.Everywhere Expr.UnsignedNode (squareOf false) ∧ (g.node p).name = "-Pow" ∧
    [g.lt p q, g.eq p q, g.lt q p].count true = 0 := by
  exact ⟨_, _, _, Prod.ext rfl rfl, rfl, rfl, by decide, rfl, by decide +kernel⟩

end SymScript
