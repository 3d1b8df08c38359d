import SymScript.Proofs.TermGraph
import SymScript.Proofs.TotalOrder

/-!
# The order of nodes

Nodes of a term graph are compared by what is stored in them: their shapes, names, signs and
children. Equality of nodes is an equivalence, and the order depends on its classes only.  It is a
strict partial order like that of expressions, as long as the compound nodes are the ones with
children.  Where names are those that nodes are made with, and no compound node has a sign, it is
total.
-/

namespace SymScript

/-- What the name of a node may show after its sign: a denominator of one need not be written. -/
def TermHead.texts : TermHead → List String
  | rational p d => (toString p ++ "/" ++ toString d) :: if d = 1 then [toString p] else []
  | symbol c => [c.toString]
  | h => [h.shape.title]

namespace TermNode

/-- The compound nodes are those that have children. -/
def Formed (n : TermNode) : Prop := n.children = [] ↔ n.shape = .rational ∨ n.shape = .symbol

/-- The name shows the sign and the head, as it does when a node is made. -/
def Made (n : TermNode) : Prop :=
  n.Formed ∧ ∃ text ∈ n.head.texts, n.name = (if n.negated then "-" else "") ++ text

/-- A made node that has no sign, unless it is a leaf. -/
def Unsigned (n : TermNode) : Prop := n.Made ∧ (n.negated = true → n.children = [])

instance : DecidablePred Formed := fun _ => inferInstanceAs (Decidable (_ ↔ _))

instance : DecidablePred Made := fun _ => inferInstanceAs (Decidable (_ ∧ _))

instance : DecidablePred Unsigned := fun _ => inferInstanceAs (Decidable (_ ∧ (_ → _)))

/-- Nodes of one shape have children or have none. -/
theorem Formed.children_eq_nil_iff {m n : TermNode} (hm : m.Formed) (hn : n.Formed)
    (hshape : m.shape = n.shape) : m.children = [] ↔ n.children = [] := by
  rw [Formed, hshape] at hm
  exact hm.trans hn.symm

theorem Formed.children_ne_nil {n : TermNode} (hn : n.Formed)
    (hshape : n.shape ≠ .rational ∧ n.shape ≠ .symbol) : n.children ≠ [] :=
  fun hnil => not_or.2 hshape (hn.1 hnil)

/-- The texts of a number have no sign in them. -/
theorem minus_notMem_of_texts {p d : Nat} {text : String}
    (h : text ∈ (TermHead.rational p d).texts) : '-' ∉ text.toList := by
  have hdigits (n : Nat) : '-' ∉ (toString n).toList := by
    rw [Nat.toString_eq_repr, Nat.toList_repr]
    exact Fraction.notMem_toDigits rfl n
  rw [TermHead.texts] at h
  rcases List.mem_cons.1 h with rfl | h
  · rw [String.toList_append, String.toList_append]
    simp only [List.mem_append, not_or]
    exact ⟨⟨hdigits p, by decide⟩, hdigits d⟩
  · split at h
    · rw [List.mem_singleton.1 h]
      exact hdigits p
    · cases h

/-- The sign of a leaf can be read off its name. -/
theorem Made.negated_eq {m n : TermNode} (hm : m.Made) (hn : n.Made) (hshape : m.shape = n.shape)
    (hleaf : m.children = []) (hname : m.name = n.name) : m.negated = n.negated := by
  obtain ⟨hmleaf, t, ht, hmt⟩ := hm
  obtain ⟨-, u, hu, hnu⟩ := hn
  rw [hmt, hnu] at hname
  have hlist := congrArg String.toList hname
  rw [String.toList_append, String.toList_append] at hlist
  rcases hmleaf.1 hleaf with hrat | hsym
  · rw [shape] at hrat
    rw [shape, shape, hrat] at hshape
    cases hm : m.head <;> rw [hm] at hrat ht <;> cases hrat
    cases hn : n.head <;> rw [hn] at hshape hu <;> cases hshape
    have ht := minus_notMem_of_texts ht
    have hu := minus_notMem_of_texts hu
    have hminus (s : Bool) {text : String} (h : '-' ∉ text.toList) :
        '-' ∈ (if s then "-" else "").toList ++ text.toList ↔ s = true := by
      rw [List.mem_append, or_iff_left h]
      cases s <;> decide
    rw [Bool.eq_iff_iff, ← hminus m.negated ht, hlist, hminus n.negated hu]
  · rw [shape] at hsym
    rw [shape, shape, hsym] at hshape
    cases hm : m.head <;> rw [hm] at hsym ht <;> cases hsym
    cases hn : n.head <;> rw [hn] at hshape hu <;> cases hshape
    have hlength := congrArg List.length hlist
    rw [List.mem_singleton.1 ht, List.mem_singleton.1 hu] at hlength
    revert hlength
    cases m.negated <;> cases n.negated <;> simp

/-- Compound nodes without signs are called by their shapes. -/
theorem Unsigned.name_eq {n : TermNode} (hn : n.Unsigned) (hc : n.children ≠ []) :
    n.negated = false ∧ n.name = n.shape.title := by
  obtain ⟨⟨hleaf, text, htext, hname⟩, hsign⟩ := hn
  have hnegated : n.negated = false := Bool.eq_false_iff.2 fun h => hc (hsign h)
  refine ⟨hnegated, ?_⟩
  rw [hnegated] at hname
  rw [Formed, shape] at hleaf
  rw [shape]
  cases hn : n.head with
  | rational => exact absurd (hleaf.2 (.inl (by rw [hn]; rfl))) hc
  | symbol => exact absurd (hleaf.2 (.inr (by rw [hn]; rfl))) hc
  | sum | product | power =>
    rw [hn] at htext
    rw [hname, List.mem_singleton.1 htext]
    exact String.empty_append

end TermNode

namespace TermGraph

variable {P Q : TermNode → Prop} {g h k : TermGraph} {a b c r s : Ref} {m n : Nat}

/-! ### Equality of nodes -/

/-- Two nodes store the same, and their children are related in order. -/
structure Alike (g : TermGraph) (R : Ref → Ref → Prop) (a b : Ref) : Prop where
  shape : (g.node a).shape = (g.node b).shape
  name : (g.node a).name = (g.node b).name
  negated : (g.node a).negated = (g.node b).negated
  children : List.Forall₂ R (g.node a).children (g.node b).children

theorem Alike.refl {R : Ref → Ref → Prop} (hR : ∀ c, R c c) (a : Ref) : Alike g R a a :=
  ⟨rfl, rfl, rfl, List.forall₂_same.2 fun c _ => hR c⟩

theorem forall₂_trans {R : Ref → Ref → Prop} (hR : ∀ x y z, R x y → R y z → R x z)
    {as bs cs : List Ref} (hab : List.Forall₂ R as bs) (hbc : List.Forall₂ R bs cs) :
    List.Forall₂ R as cs := by
  induction hab generalizing cs with
  | nil => exact hbc
  | cons hxy _ ih =>
    cases hbc with
    | cons hyz hrest => exact .cons (hR _ _ _ hxy hyz) (ih hrest)

/-- Likeness is transitive if that of the children is. -/
theorem Alike.trans {R : Ref → Ref → Prop} (hR : ∀ x y z, R x y → R y z → R x z)
    (hab : Alike g R a b) (hbc : Alike g R b c) : Alike g R a c :=
  ⟨hab.shape.trans hbc.shape, hab.name.trans hbc.name, hab.negated.trans hbc.negated,
    forall₂_trans hR hab.children hbc.children⟩

theorem Alike.mono {R S : Ref → Ref → Prop} (hRS : ∀ c d, R c d → S c d) (hab : Alike g R a b) :
    Alike g S a b :=
  ⟨hab.shape, hab.name, hab.negated, hab.children.imp hRS⟩

/-- Nodes are equal if they are one, or are alike with equal children. -/
theorem eqWithin_succ_iff :
    g.eqWithin (n + 1) a b = true ↔ a = b ∨ Alike g (g.eqWithin n · · = true) a b := by
  rw [eqWithin]
  simp only [Bool.or_eq_true, Bool.and_eq_true, beq_iff_eq, List.all_eq_true]
  constructor
  · rintro (hab | ⟨⟨⟨⟨hshape, hname⟩, hnegated⟩, hlength⟩, hall⟩)
    · exact .inl hab
    · exact .inr ⟨hshape, hname, hnegated,
        List.forall₂_iff_zip.2 ⟨hlength, fun hmem => hall _ hmem⟩⟩
  · rintro (hab | ⟨hshape, hname, hnegated, hchildren⟩)
    · exact .inl hab
    · obtain ⟨hlength, hall⟩ := List.forall₂_iff_zip.1 hchildren
      exact .inr ⟨⟨⟨⟨hshape, hname⟩, hnegated⟩, hlength⟩, fun _ hmem => hall hmem⟩

/-- Equality is symmetric at every depth. -/
theorem eqWithin_symm (hab : g.eqWithin n a b = true) : g.eqWithin n b a = true := by
  induction n generalizing a b with
  | zero => cases hab
  | succ n ih =>
    rw [eqWithin_succ_iff] at hab ⊢
    rcases hab with rfl | hab
    · exact .inl rfl
    · exact .inr ⟨hab.shape.symm, hab.name.symm, hab.negated.symm,
        (hab.children.imp fun _ _ => ih).flip⟩

/-- Equality is transitive at every depth. -/
theorem eqWithin_trans (hab : g.eqWithin n a b = true) (hbc : g.eqWithin n b c = true) :
    g.eqWithin n a c = true := by
  induction n generalizing a b c with
  | zero => cases hab
  | succ n ih =>
    rw [eqWithin_succ_iff] at hab hbc ⊢
    rcases hab with rfl | hab
    · exact hbc
    · rcases hbc with rfl | hbc
      · exact .inr hab
      · exact .inr (hab.trans (fun _ _ _ => ih) hbc)

/-- What is equal stays so with more depth. -/
theorem eqWithin_mono (hnm : n ≤ m) (hab : g.eqWithin n a b = true) : g.eqWithin m a b = true := by
  induction n generalizing a b m with
  | zero => cases hab
  | succ n ih =>
    obtain ⟨m, rfl⟩ := Nat.exists_eq_add_of_le' hnm
    rw [Nat.add_succ] at hnm ⊢
    rw [eqWithin_succ_iff] at hab ⊢
    exact hab.imp_right (.mono fun _ _ => ih (Nat.le_of_succ_le_succ hnm))

theorem eq_refl (g : TermGraph) (a : Ref) : g.eq a a = true := by
  rw [eq, depthBound, eqWithin_succ_iff]
  exact .inl rfl

/-- Equal nodes store the same, down to their equal children. -/
theorem alike_of_eq (hab : g.eq a b = true) : Alike g (g.eq · · = true) a b := by
  rw [eq, depthBound, eqWithin_succ_iff] at hab
  rcases hab with rfl | hab
  · exact .refl (eq_refl g) a
  · exact hab.mono fun _ _ => eqWithin_mono (Nat.le_succ _)

/-! ### Comparison of nodes -/

/-- Searching the first difference compares lists by it. -/
theorem firstDifference_eq (same before : Ref → Ref → Bool) (as bs : List Ref) :
    (firstDifference same as bs).elim (decide (as.length < bs.length)) (fun p => before p.1 p.2) =
      lexBy same before as bs := by
  induction as generalizing bs with
  | nil => cases bs <;> simp [firstDifference, lexBy]
  | cons a as ih =>
    cases bs with
    | nil => simp [firstDifference, lexBy]
    | cons b bs =>
      rw [firstDifference, lexBy, ← ih]
      cases hab : same a b <;> simp

/-- Different shapes are ordered by their ranks. -/
theorem ltWithin_of_shape_ne (hshape : (g.node a).shape ≠ (g.node b).shape) :
    g.ltWithin (n + 1) a b = decide ((g.node a).shape.rank < (g.node b).shape.rank) := by
  rw [ltWithin, if_pos (by simpa using hshape)]

/-- Leaves are ordered by their names. -/
theorem ltWithin_of_leaf (hshape : (g.node a).shape = (g.node b).shape)
    (ha : (g.node a).children = []) :
    g.ltWithin (n + 1) a b = decide ((g.node a).name < (g.node b).name) := by
  rw [ltWithin, if_neg (by simpa using hshape), if_pos (by simp [ha])]

/-- Other nodes are ordered by their children. -/
theorem ltWithin_of_compound (hshape : (g.node a).shape = (g.node b).shape)
    (ha : (g.node a).children ≠ []) : g.ltWithin (n + 1) a b =
      lexBy g.eq (g.ltWithin n) (g.node a).children (g.node b).children := by
  rw [ltWithin, if_neg (by simpa using hshape), if_neg (by simpa using ha), ← firstDifference_eq]
  cases firstDifference g.eq (g.node a).children (g.node b).children <;> rfl

/-- The order tells classes of equal nodes apart, at every depth. -/
theorem compares_ltWithin (g : TermGraph) (n : Nat) : Compares g.eq (g.ltWithin n) := by
  have hbase {before : Ref → Ref → Bool}
      (hcongr : ∀ {a b c d}, g.eq a b = true → g.eq c d = true → before a c = before b d)
      (hirrefl : ∀ a, before a a = false) : Compares g.eq before :=
    ⟨eq_refl g, eqWithin_symm, eqWithin_trans, hcongr, hirrefl⟩
  induction n with
  | zero => exact hbase (fun _ _ => rfl) fun _ => rfl
  | succ n ih =>
    refine hbase (fun {a b c d} hab hcd => ?_) fun a => ?_
    · have hab := alike_of_eq hab
      have hcd := alike_of_eq hcd
      by_cases hshape : (g.node a).shape = (g.node c).shape
      · have hshape' : (g.node b).shape = (g.node d).shape := by rw [← hab.shape, hshape, hcd.shape]
        have hnil : (g.node a).children = [] ↔ (g.node b).children = [] := by
          rw [← List.length_eq_zero_iff, hab.children.length_eq, List.length_eq_zero_iff]
        by_cases ha : (g.node a).children = []
        · rw [ltWithin_of_leaf hshape ha, ltWithin_of_leaf hshape' (hnil.1 ha), hab.name, hcd.name]
        · rw [ltWithin_of_compound hshape ha, ltWithin_of_compound hshape' (mt hnil.2 ha),
            ih.lexBy_congr hab.children hcd.children]
      · rw [ltWithin_of_shape_ne hshape, ltWithin_of_shape_ne (by rwa [← hab.shape, ← hcd.shape]),
          hab.shape, hcd.shape]
    · by_cases ha : (g.node a).children = []
      · rw [ltWithin_of_leaf rfl ha, decide_eq_false_iff_not]
        exact lt_irrefl _
      · rw [ltWithin_of_compound rfl ha, ih.lexBy_irrefl]

/-! ### Nodes and what is below them -/

/-- All paths down from a node end within the bound, and their nodes satisfy `P`. -/
def Below (P : TermNode → Prop) (g : TermGraph) : Nat → Ref → Prop
  | 0, _ => False
  | n + 1, r => r < g.nodes.size ∧ P (g.node r) ∧ ∀ c ∈ (g.node r).children, Below P g n c

instance decidableBelow {P : TermNode → Prop} [DecidablePred P] (g : TermGraph) :
    (n : Nat) → DecidablePred (Below P g n)
  | 0, _ => inferInstanceAs (Decidable False)
  | n + 1, r =>
    have := decidableBelow (P := P) g n
    inferInstanceAs
      (Decidable (r < g.nodes.size ∧ P (g.node r) ∧ ∀ c ∈ (g.node r).children, Below P g n c))

/-- The compound nodes from here down are those that have children. -/
def Formed (g : TermGraph) (r : Ref) : Prop := Below TermNode.Formed g g.depthBound r

/-- The names from here down show signs and heads. -/
def Made (g : TermGraph) (r : Ref) : Prop := Below TermNode.Made g g.depthBound r

/-- Of all nodes from here down, the compound ones have no signs. -/
def Unsigned (g : TermGraph) (r : Ref) : Prop := Below TermNode.Unsigned g g.depthBound r

theorem Below.imp (hPQ : ∀ n, P n → Q n) (hr : Below P g n r) : Below Q g n r := by
  induction n generalizing r with
  | zero => cases hr
  | succ n ih =>
    obtain ⟨hsize, hnode, hchildren⟩ := hr
    exact ⟨hsize, hPQ _ hnode, fun c hc => ih (hchildren c hc)⟩

/-- What is below a node stays there when nodes are added. -/
theorem Below.of_extends (hgh : Extends g h) (hnm : n ≤ m) (hr : Below P g n r) :
    Below P h m r := by
  induction n generalizing m r with
  | zero => cases hr
  | succ n ih =>
    obtain ⟨m, rfl⟩ := Nat.exists_eq_add_of_le' hnm
    obtain ⟨hsize, hnode, hchildren⟩ := hr
    rw [← hgh.node_eq r hsize] at hnode hchildren
    exact ⟨Nat.lt_of_lt_of_le hsize hgh.size_le, hnode,
      fun c hc => ih (Nat.le_of_succ_le_succ hnm) (hchildren c hc)⟩

/-- The order is transitive at every depth. -/
theorem ltWithin_trans (ha : Below TermNode.Formed g m a) (hb : Below TermNode.Formed g m b)
    (hc : Below TermNode.Formed g m c) (hab : g.ltWithin n a b = true)
    (hbc : g.ltWithin n b c = true) : g.ltWithin n a c = true := by
  induction n generalizing a b c m with
  | zero => cases hab
  | succ n ih =>
    cases m with
    | zero => cases ha
    | succ m =>
      obtain ⟨-, hma, hca⟩ := ha
      obtain ⟨-, hmb, hcb⟩ := hb
      refine trans_of_rank (fun r => (g.node r).shape) (fun _ _ => ltWithin_of_shape_ne)
        (fun hsab hsbc hab hbc => ?_) hab hbc
      have hnil := hma.children_eq_nil_iff hmb hsab
      by_cases hleaf : (g.node a).children = []
      · rw [ltWithin_of_leaf hsab hleaf, decide_eq_true_eq] at hab
        rw [ltWithin_of_leaf hsbc (hnil.1 hleaf), decide_eq_true_eq] at hbc
        rw [ltWithin_of_leaf (hsab.trans hsbc) hleaf, decide_eq_true_eq]
        exact String.lt_trans hab hbc
      · rw [ltWithin_of_compound hsab hleaf] at hab
        rw [ltWithin_of_compound hsbc (mt hnil.2 hleaf)] at hbc
        rw [ltWithin_of_compound (hsab.trans hsbc) hleaf]
        exact (compares_ltWithin g n).lexBy_trans
          (fun x hx y hy z hz => ih (hca x hx) (hcb y hy) (hc.2.2 z hz)) hab hbc

/-- Equality does not look deeper than the nodes reach. -/
theorem eqWithin_of_below (ha : Below P g n a) (hab : g.eqWithin m a b = true) :
    g.eqWithin n a b = true := by
  induction n generalizing m a b with
  | zero => cases ha
  | succ n ih =>
    cases m with
    | zero => cases hab
    | succ m =>
      rw [eqWithin_succ_iff] at hab ⊢
      refine hab.imp_right fun hab => ⟨hab.shape, hab.name, hab.negated, ?_⟩
      refine ((List.forall₂_and_left _ _).2 ⟨ha.2.2, hab.children⟩).imp ?_
      rintro c d ⟨hc, hcd⟩
      exact ih hc hcd

/-- Nodes with equal children are equal, if what is below them ends. -/
theorem eq_of_alike (ha : Below P g n a) (hn : n ≤ g.depthBound)
    (hab : Alike g (g.eq · · = true) a b) : g.eq a b = true := by
  cases n with
  | zero => cases ha
  | succ n =>
    refine eqWithin_mono hn (eqWithin_succ_iff.2 (.inr ⟨hab.shape, hab.name, hab.negated, ?_⟩))
    refine ((List.forall₂_and_left _ _).2 ⟨ha.2.2, hab.children⟩).imp ?_
    rintro c d ⟨hc, hcd⟩
    exact eqWithin_of_below hc hcd

/-- Two nodes are equal or ordered where only numbers and letters are negated. -/
theorem ltWithin_total (hn : n ≤ g.depthBound) (hnm : n ≤ m) (ha : Below TermNode.Unsigned g n a)
    (hb : Below TermNode.Unsigned g n b) :
    g.ltWithin m a b = true ∨ g.eq a b = true ∨ g.ltWithin m b a = true := by
  induction n generalizing m a b with
  | zero => cases ha
  | succ n ih =>
    obtain ⟨m, rfl⟩ := Nat.exists_eq_add_of_le' hnm
    have halike := eq_of_alike (b := b) ha hn
    obtain ⟨-, hua, hca⟩ := ha
    obtain ⟨-, hub, hcb⟩ := hb
    have hma := hua.1
    have hmb := hub.1
    rw [← Nat.add_assoc] at hnm ⊢
    by_cases hshape : (g.node a).shape = (g.node b).shape
    · have hnil := hma.1.children_eq_nil_iff hmb.1 hshape
      by_cases hleaf : (g.node a).children = []
      · rw [ltWithin_of_leaf hshape hleaf, ltWithin_of_leaf hshape.symm (hnil.1 hleaf),
          decide_eq_true_eq, decide_eq_true_eq]
        obtain hlt | heq | hlt := lt_trichotomy (g.node a).name (g.node b).name
        · exact .inl hlt
        · refine .inr (.inl (halike ⟨hshape, heq, hma.negated_eq hmb hshape hleaf heq, ?_⟩))
          rw [hleaf, hnil.1 hleaf]
          exact .nil
        · exact .inr (.inr hlt)
      · rw [ltWithin_of_compound hshape hleaf, ltWithin_of_compound hshape.symm (mt hnil.2 hleaf)]
        obtain hlt | heq | hlt | ⟨_, _, _, _, _, _, _, _, _, hR⟩ :=
          (compares_ltWithin g (m + n)).lexBy_total_or (R := fun _ _ => False) fun x hx y hy =>
            (ih (Nat.le_of_succ_le hn) (Nat.le_add_left n m) (hca x hx) (hcb y hy)).imp_right
              (Or.imp_right .inl)
        · exact .inl hlt
        · obtain ⟨hna, hta⟩ := hua.name_eq hleaf
          obtain ⟨hnb, htb⟩ := hub.name_eq (mt hnil.2 hleaf)
          exact .inr (.inl (halike ⟨hshape, by rw [hta, htb, hshape], hna.trans hnb.symm, heq⟩))
        · exact .inr (.inr hlt)
        · exact hR.elim
    · rcases total_of_rank (fun r => (g.node r).shape) (fun _ _ => ltWithin_of_shape_ne) hshape
        with hlt | hlt
      · exact .inl hlt
      · exact .inr (.inr hlt)

/-- The order of nodes is strict, and total where only numbers and letters are negated. -/
theorem strictOrderOn_lt (g : TermGraph) : StrictOrderOn g.Formed g.Unsigned g.eq g.lt :=
  (compares_ltWithin g g.depthBound).strictOrderOn ltWithin_trans (.imp fun _ hn => hn.1.1)
    (ltWithin_total (Nat.le_refl _) (Nat.le_refl _))

end TermGraph

end SymScript
