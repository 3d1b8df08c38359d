import SymScript.Proofs.Simplified
import SymScript.Proofs.TermGraph

/-!
# Simplifying a term graph

Simplification replaces the children of every node that it visits, and a child may be visited more
than once, from several parents.  Its results are fresh nodes, or letters: nothing that is visited
later points into a result, so at the time when the children of a node are read, all of them are
still tidy.
-/

namespace SymScript

namespace Expr

/-! ### The rules on tidy children -/

/-- A result at some depth is the result. -/
theorem refines_simplify (n : Nat) (e : Expr) : Refines (simplifyWithin n e) (simplify e) :=
  fun hn => simplifyWithin_eq_of_ne (simplify_lightens e).ends hn

/-- Tidy expressions are what something heavier comes to. -/
theorem exists_lightens {es : List Expr} (h : ∀ e ∈ es, Tidy e) :
    List.Forall₂ Lightens (es.map fun e => power false e e) es := by
  induction es with
  | nil => exact .nil
  | cons e es ih =>
    obtain ⟨he, hes⟩ := List.forall_mem_cons.1 h
    refine .cons (.of_lt he ?_) (ih hes)
    rw [mass]
    omega

/-- Finishing tidy addends gives a tidy result. -/
theorem tidy_of_finishSum {s : Bool} {es : List Expr} {r : Expr} (h : ∀ e ∈ es, Tidy e)
    (hr : finishSum simplify s es = .ok r) : Tidy r := by
  have hends := finishSum_ends (exists_lightens h) (lightensWithin _) s (Nat.le_refl _)
  rw [Refines.finishSum (refines_simplify _) s es hends.ends] at hr
  exact (hends.result r hr).tidy

/-- Finishing tidy factors gives a tidy result. -/
theorem tidy_of_finishProduct {s : Bool} {es : List Expr} {r : Expr} (h : ∀ e ∈ es, Tidy e)
    (hr : finishProduct simplify s es = .ok r) : Tidy r := by
  have hends := finishProduct_ends (exists_lightens h) (lightensWithin _) s (Nat.le_refl _)
  rw [Refines.finishProduct (refines_simplify _) s es hends.ends] at hr
  exact (hends.result r hr).tidy

/-- Finishing a tidy base and exponent gives a tidy result. -/
theorem tidy_of_finishPower {s : Bool} {b x r : Expr} (hb : Tidy b) (hx : Tidy x)
    (hr : finishPower simplify s b x = .ok r) : Tidy r := by
  have heavier {e : Expr} (he : Tidy e) : Lightens (power false e e) e := by
    refine .of_lt he ?_
    rw [mass]
    omega
  have hends := finishPower_ends (fun m _ => lightensWithin m) (heavier hb) (heavier hx) s
    (Nat.le_refl _)
  rw [Refines.finishPower (refines_simplify _) s b x hends.ends] at hr
  exact (hends.result r hr).tidy

end Expr

namespace TermGraph

open SymScript.Expr (Tidy)

/-! ### What one visit does -/

/-- The graph is changed at `r` only, before the result is added. -/
def ChangedAt (r : Ref) (g k : TermGraph) : Prop :=
  ∀ {R G known}, Touched R G known g → r ∈ known → Touched R G known k

namespace Edit

variable {R known : List Ref} {G g h : TermGraph} {n : Nat} {r s : Ref}

/-- The end of a visit: the result is made of the children that have been read, and added. -/
def Finishes (r : Ref) (es : List Expr) (g : TermGraph) (s : Ref) (h : TermGraph) : Prop :=
  ∃ k e, ChangedAt r g k ∧ ((∀ a ∈ es, Tidy a) → Tidy e) ∧ (k.add e).1 = s ∧ (k.add e).2 = h

/-- A visit to a sum finishes it. -/
theorem simplifySum_finishes {es : List Expr} (hgives : Gives (simplifySum r es) g s h) :
    Finishes r es g s h := by
  rw [simplifySum] at hgives
  obtain ⟨m, _, hm, hgives⟩ := gives_bind.1 hgives
  obtain ⟨-, rfl⟩ := gives_node.1 hm
  obtain ⟨e, he, hadd⟩ := gives_addResult.1 hgives
  exact ⟨g, e, fun ht _ => ht, fun hes => Expr.tidy_of_finishSum hes he, hadd⟩

/-- A visit to a product finishes it. -/
theorem simplifyProduct_finishes {es : List Expr} (hgives : Gives (simplifyProduct r es) g s h) :
    Finishes r es g s h := by
  have finish {g : TermGraph} (hgives : Gives (do
      addResult (Expr.finishProduct Expr.simplify (← node r).negated es)) g s h) :
      ∃ e, ((∀ a ∈ es, Tidy a) → Tidy e) ∧ (g.add e).1 = s ∧ (g.add e).2 = h := by
    obtain ⟨m, _, hm, hgives⟩ := gives_bind.1 hgives
    obtain ⟨-, rfl⟩ := gives_node.1 hm
    obtain ⟨e, he, hadd⟩ := gives_addResult.1 hgives
    exact ⟨e, fun hes => Expr.tidy_of_finishProduct hes he, hadd⟩
  rw [simplifyProduct] at hgives
  split at hgives
  · obtain ⟨cs, k, hcs, hgives⟩ := gives_bind.1 hgives
    obtain ⟨_, _, hset, hgives⟩ := gives_bind.1 hgives
    obtain rfl := gives_setChildren.1 hset
    obtain ⟨e, htidy, hadd⟩ := finish hgives
    refine ⟨_, e, fun {R G known} ht hr => ?_, htidy, hadd⟩
    have hmap := Touched.mapM (fun _ _ _ _ _ _ _ ht hadd => add_touched ht hadd)
      (List.Subset.refl known) ht hcs
    have hnew := hmap.setChildren (List.mem_append_right cs hr) (List.subset_append_left cs known)
    exact hnew.subset (List.subset_append_right cs known)
  · obtain ⟨e, htidy, hadd⟩ := finish hgives
    exact ⟨g, e, fun ht _ => ht, htidy, hadd⟩

/-- A visit to a power finishes it. -/
theorem simplifyPower_finishes {b x : Expr} {es : List Expr}
    (hgives : Gives (simplifyPower r b x) g s h) : Finishes r (b :: x :: es) g s h := by
  have htidy {t : Bool} {e : Expr} (he : Expr.finishPower Expr.simplify t b x = .ok e)
      (hes : ∀ a ∈ b :: x :: es, Tidy a) : Tidy e :=
    Expr.tidy_of_finishPower (hes b (by simp)) (hes x (by simp)) he
  rw [simplifyPower] at hgives
  obtain ⟨m, _, hm, hgives⟩ := gives_bind.1 hgives
  obtain ⟨-, rfl⟩ := gives_node.1 hm
  obtain ⟨q, _, hq, hgives⟩ := gives_bind.1 hgives
  obtain ⟨-, rfl⟩ := gives_ofExcept.1 hq
  split at hgives
  · obtain ⟨_, _, hset, hgives⟩ := gives_bind.1 hgives
    obtain rfl := gives_modify.1 hset
    obtain ⟨e, he, hadd⟩ := gives_addResult.1 hgives
    refine ⟨_, e, fun {R G known} ht hr => ?_, htidy he, hadd⟩
    have hsub := List.subset_append_right (g.node r).children known
    refine ((ht.children hr).update (hsub hr) ?_ ?_).subset hsub
    · exact fun _ => rfl
    · exact List.subset_append_left _ _
  · obtain ⟨e, he, hadd⟩ := gives_addResult.1 hgives
    exact ⟨g, e, fun ht _ => ht, htidy he, hadd⟩

/-- A visit returns a letter, or adds something made of the children, which have been visited
before. -/
theorem simplifyWithin_cases (hgives : Gives (simplifyWithin (n + 1) r) g s h) :
    ((∃ c, (g.node r).head = .symbol c) ∧ r = s ∧ g = h) ∨
    (∃ e, Tidy e ∧ (g.add e).1 = s ∧ (g.add e).2 = h) ∨
    ∃ cs k es, Gives ((g.node r).children.mapM (simplifyWithin n)) g cs k ∧
      List.Forall₂ (fun c e => (k.setChildren r cs).expr c = .ok e) cs es ∧
        Finishes r es (k.setChildren r cs) s h := by
  rw [simplifyWithin] at hgives
  obtain ⟨m, _, hm, hgives⟩ := gives_bind.1 hgives
  obtain ⟨rfl, rfl⟩ := gives_node.1 hm
  split at hgives
  case h_1 =>
    obtain ⟨a, _, ha, hgives⟩ := gives_bind.1 hgives
    obtain ⟨-, rfl⟩ := gives_expr.1 ha
    obtain ⟨e, he, hadd⟩ := gives_addResult.1 hgives
    exact .inr (.inl ⟨e, Expr.tidy_of_simplifyWithin he, hadd⟩)
  case h_2 c hc => exact .inl ⟨⟨c, hc⟩, gives_pure.1 hgives⟩
  case h_3 =>
    obtain ⟨cs, k, es, hcs, hes, hgives⟩ := gives_replaceChildren hgives
    exact .inr (.inr ⟨cs, k, es, hcs, hes, simplifySum_finishes hgives⟩)
  case h_4 =>
    obtain ⟨cs, k, es, hcs, hes, hgives⟩ := gives_replaceChildren hgives
    exact .inr (.inr ⟨cs, k, es, hcs, hes, simplifyProduct_finishes hgives⟩)
  case h_5 =>
    obtain ⟨cs, k, es, hcs, hes, hgives⟩ := gives_replaceChildren hgives
    split at hgives
    · exact .inr (.inr ⟨cs, k, _, hcs, hes, simplifyPower_finishes hgives⟩)
    · exact absurd hgives not_gives_throw

/-- A visit touches only nodes that are known. -/
theorem simplifyWithin_touched (ht : Touched R G known g) (hr : r ∈ known)
    (hgives : Gives (simplifyWithin n r) g s h) : Touched R G (s :: known) h := by
  induction n generalizing known g r s h with
  | zero => exact absurd hgives not_gives_throw
  | succ n ih =>
    rcases simplifyWithin_cases hgives with ⟨-, rfl, rfl⟩ | ⟨e, -, rfl, rfl⟩ |
      ⟨cs, k, es, hcs, -, k', e, hchanged, -, rfl, rfl⟩
    · exact ht.subset (List.cons_subset.2 ⟨hr, List.Subset.refl known⟩)
    · exact ht.add e
    · exact (hchanged (ht.replaceChildren (fun _ => ih) hr hcs) hr).add e

end Edit

/-! ### Results stay -/

/-- A letter, or the root of nodes at places from `m` on that nothing else points to, which read as
a tidy expression. -/
def Settled (m : Nat) (g : TermGraph) (s : Ref) : Prop :=
  (∃ c, (g.node s).head = .symbol c) ∨
  ∃ I e, Island g I ∧ (∀ i, I i → m ≤ i) ∧ Tidy e ∧ e.size ≤ g.nodes.size ∧
    ∀ k : TermGraph, (∀ i, I i → k.node i = g.node i) → ∀ n, e.size ≤ n → k.exprWithin n s = .ok e

variable {g h : TermGraph} {m n : Nat} {r s : Ref}

/-- A tidy expression that is added is settled. -/
theorem settled_add (hg : Closed g) {e : Expr} (he : Tidy e) :
    Settled g.nodes.size (g.add e).2 (g.add e).1 := by
  refine .inr ⟨IsFresh g (g.add e).2, e, (addBelow_extends none e g).1.island_isFresh hg,
    fun _ hi => hi.1, he, ?_, fun k hk n hn => exprWithin_addBelow e hk hn⟩
  rw [add, size_addBelow]
  omega

theorem Settled.mono (hs : Settled m g s) {m' : Nat} (hm : m' ≤ m) : Settled m' g s := by
  rcases hs with hc | ⟨I, e, hI, hle, hrest⟩
  · exact .inl hc
  · exact .inr ⟨I, e, hI, fun i hi => Nat.le_trans hm (hle i hi), hrest⟩

/-- Edits that start below `m` leave what is settled from `m` on. -/
theorem Settled.touched (hs : Settled m g s) {R known : List Ref} (hR : ∀ r ∈ R, r < m)
    (hlt : s < g.nodes.size) (ht : Touched R g known h) : Settled m h s := by
  rcases hs with ⟨c, hc⟩ | ⟨I, e, hI, hle, he, hsize, hread⟩
  · exact .inl ⟨c, by rw [ht.head s hlt, hc]⟩
  · have hout : ∀ r ∈ R, ¬ I r :=
      fun r hr hIr => Nat.lt_irrefl _ (Nat.lt_of_lt_of_le (hR r hr) (hle r hIr))
    refine .inr ⟨I, e, ht.island I hI hout, hle, he, Nat.le_trans hsize ht.size_le,
      fun k hk => hread k ?_⟩
    intro i hi
    rw [hk i hi, ht.node_eq I hI hout i hi]

/-- A letter is tidy. -/
theorem exprWithin_symbol {c : Char} (hc : (g.node s).head = .symbol c) {e : Expr}
    (he : g.exprWithin n s = .ok e) : Tidy e := by
  cases n with
  | zero => cases he
  | succ n =>
    rw [exprWithin] at he
    obtain ⟨es, -, he⟩ := bind_eq_ok he
    cases he
    simp only [assemble, hc]
    exact trivial

/-- What is settled reads as something tidy, also when other nodes are made to point to it. -/
theorem Settled.tidy (hs : Settled m g s) {k : TermGraph} (hsize : g.nodes.size ≤ k.nodes.size)
    (hhead : (k.node s).head = (g.node s).head)
    (hnode : ∀ i, m ≤ i → k.node i = g.node i) {e : Expr} (he : k.expr s = .ok e) : Tidy e := by
  rcases hs with ⟨c, hc⟩ | ⟨I, a, -, hle, ha, hsize', hread⟩
  · exact exprWithin_symbol (hhead.trans hc) he
  · rw [expr, hread k (fun i hi => hnode i (hle i hi)) _ (by rw [depthBound]; omega),
      Except.ok.injEq] at he
    exact he ▸ ha

/-- A change of older nodes leaves a settled one tidy. -/
theorem Settled.tidy_setChildren (hs : Settled m g s) (hr : r < m) {cs : List Ref} {e : Expr}
    (he : (g.setChildren r cs).expr s = .ok e) : Tidy e := by
  refine hs.tidy (Nat.le_of_eq (size_update g r _).symm) (head_setChildren g r s cs) ?_ he
  exact fun i hi => node_update_of_ne (Nat.ne_of_gt (Nat.lt_of_lt_of_le hr hi)) _

/-- Visits in a row leave all their results settled. -/
theorem mapM_simplifyWithin_settled
    (ih : ∀ {g r s h}, Closed g → r < g.nodes.size → Edit.Gives (Edit.simplifyWithin n r) g s h →
      Settled g.nodes.size h s)
    {rs cs : List Ref} (hg : Closed g) (hrs : ∀ r ∈ rs, r < g.nodes.size)
    (hgives : Edit.Gives (rs.mapM (Edit.simplifyWithin n)) g cs h) :
    ∀ c ∈ cs, Settled g.nodes.size h c := by
  induction rs generalizing g cs with
  | nil =>
    obtain ⟨rfl, rfl⟩ := Edit.gives_pure.1 hgives
    exact List.forall_mem_nil _
  | cons r rs ihrs =>
    rw [List.mapM_cons] at hgives
    obtain ⟨c, k, hc, hgives⟩ := Edit.gives_bind.1 hgives
    obtain ⟨cs, k', hcs, hgives⟩ := Edit.gives_bind.1 hgives
    obtain ⟨rfl, rfl⟩ := Edit.gives_pure.1 hgives
    obtain ⟨hr, hrs⟩ := List.forall_mem_cons.1 hrs
    have hk := Edit.simplifyWithin_touched (.start hg (List.forall_mem_singleton.2 hr))
      List.mem_cons_self hc
    have hrs' : ∀ r ∈ rs, r < k.nodes.size := fun r hr => Nat.lt_of_lt_of_le (hrs r hr) hk.size_le
    -- the later children start below the places of this result
    have hlater := Touched.mapM (fun a ha _ _ _ _ hsub ht hgives =>
      Edit.simplifyWithin_touched ht (hsub ha) hgives) (List.Subset.refl rs)
        (.start hk.closed hrs') hcs
    refine List.forall_mem_cons.2 ⟨?_, fun d hd => (ihrs hk.closed hrs' hcs d hd).mono hk.size_le⟩
    exact (ih hg hr hc).touched hrs (hk.known_lt c List.mem_cons_self) hlater

/-- What a visit returns is settled. -/
theorem simplifyWithin_settled (hg : Closed g) (hr : r < g.nodes.size)
    (hgives : Edit.Gives (Edit.simplifyWithin n r) g s h) : Settled g.nodes.size h s := by
  induction n generalizing g r s h with
  | zero => exact absurd hgives Edit.not_gives_throw
  | succ n ih =>
    have ht : Touched [r] g [r] g := .start hg (List.forall_mem_singleton.2 hr)
    rcases Edit.simplifyWithin_cases hgives with ⟨hc, rfl, rfl⟩ | ⟨e, he, rfl, rfl⟩ |
      ⟨cs, k, es, hcs, hes, k', e, hchanged, htidy, rfl, rfl⟩
    · exact .inl hc
    · exact settled_add hg he
    · have hk := ht.replaceChildren (fun _ => Edit.simplifyWithin_touched) List.mem_cons_self hcs
      have hk' := hchanged hk List.mem_cons_self
      have hsettled := mapM_simplifyWithin_settled ih hg (hg r) hcs
      have htidies : ∀ a ∈ es, Tidy a := by
        intro a ha
        obtain ⟨c, hc, hread⟩ := exists_of_forall₂ hes.flip ha
        exact (hsettled c hc).tidy_setChildren hr hread
      exact (settled_add hk'.closed (htidy htidies)).mono hk'.size_le

/-! ### Appended graphs -/

theorem size_append (g h : TermGraph) : (g.append h).nodes.size = g.nodes.size + h.nodes.size := by
  simp [append]

theorem node_append_of_lt {i : Ref} (hi : i < g.nodes.size) (h : TermGraph) :
    (g.append h).node i = g.node i := by
  rw [node_eq, node_eq, append, Array.getElem?_append_left hi]

theorem children_append_add (g h : TermGraph) (i : Ref) :
    ((g.append h).node (g.nodes.size + i)).children =
      (h.node i).children.map (· + g.nodes.size) := by
  rw [node_eq, node_eq, append, Array.getElem?_append_right (Nat.le_add_right _ _),
    Nat.add_sub_cancel_left, Array.getElem?_map]
  cases h.nodes[i]? <;> rfl

/-- Two closed graphs are closed as one. -/
theorem Closed.append (hg : Closed g) (hh : Closed h) : Closed (g.append h) := by
  intro i c hc
  rw [size_append]
  rcases Nat.lt_or_ge i g.nodes.size with hlt | hge
  · rw [node_append_of_lt hlt] at hc
    exact Nat.lt_add_right _ (hg i c hc)
  · obtain ⟨j, rfl⟩ := Nat.exists_eq_add_of_le hge
    rw [children_append_add] at hc
    obtain ⟨d, hd, rfl⟩ := List.mem_map.1 hc
    rw [Nat.add_comm]
    exact Nat.add_lt_add_left (hh j d hd) _

end TermGraph

/-! ### Terms -/

namespace Term

open TermGraph

/-- A plain expression, or a node of a graph in which children are nodes. -/
def Closed : Term → Prop
  | tree _ => True
  | graph g r => g.Closed ∧ r < g.nodes.size

/-- Whatever its term shares, a simplified term is tidy. -/
theorem tidy_of_simplify {t : Term} (ht : t.Closed) {e : Expr} (he : t.simplify = .ok e) :
    e.Tidy := by
  cases t with
  | tree a => exact Expr.tidy_of_simplifyWithin he
  | graph g r =>
    rw [simplify] at he
    rcases hrun : (Edit.simplify r).run.run g with ⟨x | s, h⟩ <;> rw [hrun] at he
    · cases he
    · obtain ⟨_, _, hget, hgives⟩ :=
        Edit.gives_bind.1 (show Edit.Gives (Edit.simplify r) g s h from hrun)
      obtain ⟨-, rfl⟩ := Edit.gives_get.1 hget
      exact (simplifyWithin_settled ht.1 ht.2 hgives).tidy (Nat.le_refl _) rfl (fun _ _ => rfl) he

/-- Loading a closed term keeps the graph closed, and its root is in the graph. -/
theorem closed_load {t : Term} (ht : t.Closed) {g : TermGraph} (hg : g.Closed) :
    (t.load g).2.Closed ∧ g.nodes.size ≤ (t.load g).2.nodes.size ∧
      (t.load g).1 < (t.load g).2.nodes.size := by
  cases t with
  | tree e =>
    obtain ⟨hext, hfresh⟩ := addBelow_extends none e g
    exact ⟨hext.closed hg, hext.size_le, hfresh.2⟩
  | graph h r =>
    refine ⟨hg.append ht.1, ?_, ?_⟩ <;> rw [load, size_append]
    · exact Nat.le_add_right _ _
    · exact Nat.add_lt_add_left ht.2 _

/-- The nodes that arguments are loaded to. -/
def Loaded (p : List (Option Ref) × TermGraph) : Prop :=
  p.2.Closed ∧ ∀ r, some r ∈ p.1 → r < p.2.nodes.size

/-- The library gives closed terms for closed arguments. -/
theorem closed_callOnGraph {l : LibraryFunction} {arguments : List (Option Term)}
    (hargs : ∀ u, some u ∈ arguments → u.Closed) (hl : l ∈ [.expand, .substitute, .eval]) {t : Term}
    (ht : callOnGraph l arguments = .ok t) : t.Closed := by
  rw [callOnGraph] at ht
  generalize hloaded : arguments.foldl _ _ = loaded at ht
  have hrefs : Loaded loaded := by
    rw [← hloaded]
    refine List.foldlRecOn (motive := Loaded) arguments _ ⟨closed_empty, by simp⟩ ?_
    rintro ⟨rs, g⟩ ⟨hg, hrs⟩ (_ | u) hu
    · refine ⟨hg, fun r hr => ?_⟩
      rcases List.mem_append.1 hr with hr | hr
      · exact hrs r hr
      · simp at hr
    · obtain ⟨hclosed, hle, hlt⟩ := closed_load (hargs u hu) hg
      refine ⟨hclosed, fun r hr => ?_⟩
      rcases List.mem_append.1 hr with hr | hr
      · exact Nat.lt_of_lt_of_le (hrs r hr) hle
      · obtain rfl : r = _ := Option.some.inj (List.mem_singleton.1 hr)
        exact hlt
  obtain ⟨rs, g⟩ := loaded
  obtain ⟨hg, hrs⟩ := hrefs
  have start {known : List Ref} (hknown : ∀ r ∈ known, some r ∈ rs) : Touched known g known g :=
    .start hg fun r hr => hrs r (hknown r hr)
  have finish {R known : List Ref} {s : Ref} {h : TermGraph} (ht : Touched R g (s :: known) h) :
      (graph h s).Closed := ⟨ht.closed, ht.known_lt s List.mem_cons_self⟩
  rcases hrun : (Edit.call l rs).run.run g with ⟨x | s, h⟩ <;> simp only [hrun] at ht <;> cases ht
  have hgives : Edit.Gives (Edit.call l rs) g s h := hrun
  unfold Edit.call at hgives
  split at hgives
  case h_1 r =>
    have hr : Touched [r] g [r] g := start (by simp)
    exact finish (Edit.expandAll_touched hr (by simp) hgives)
  case h_2 r old new =>
    have hr : Touched [r, new] g [r, new] g := start (by simp)
    exact finish (Edit.substitute_touched hr (by simp) (by simp) hgives)
  case h_3 r q =>
    have hr : Touched [r, q] g [r, q] g := start (by simp)
    exact finish (Edit.eval_touched hr (by simp) (by simp) hgives)
  case h_4 => simp at hl
  case h_5 => simp at hl
  case h_6 => exact absurd hgives Edit.not_gives_throw

/-- The derivatives of the library are tidy. -/
theorem tidy_of_simplDerive {a x e : Expr} (he : a.simplDerive x = .ok e) : e.Tidy := by
  rw [Expr.simplDerive] at he
  split at he
  · obtain ⟨d, -, he⟩ := bind_eq_ok he
    exact Expr.tidy_of_simplifyWithin he
  · cases he

/-- Derivatives are simplified. -/
theorem tidy_of_derivePolynomial {a x e : Expr} (he : a.derivePolynomial x = .ok e) : e.Tidy := by
  rw [Expr.derivePolynomial] at he
  split at he
  · obtain ⟨first, -, he⟩ := bind_eq_ok he
    split at he
    · obtain ⟨second, -, he⟩ := bind_eq_ok he
      exact tidy_of_simplDerive he
    · cases he
  · cases he

theorem eq_tree_of_map {x : Except AlgebraError Expr} {t : Term} (ht : tree <$> x = .ok t) :
    ∃ e, x = .ok e ∧ t = tree e := by
  cases x with
  | error => cases ht
  | ok e =>
    cases ht
    exact ⟨e, rfl, rfl⟩

/-- On term graphs, too, a derivative is made of fresh nodes. -/
theorem tidy_of_callOnGraph {l : LibraryFunction} {arguments : List (Option Term)}
    (hl : l ∈ [.simplDerive, .derivePolynomial]) {t : Term} {e : Expr}
    (ht : callOnGraph l arguments = .ok t) (he : t.expr = .ok e) : e.Tidy := by
  rw [callOnGraph] at ht
  generalize arguments.foldl _ _ = loaded at ht
  obtain ⟨rs, g⟩ := loaded
  rcases hrun : (Edit.call l rs).run.run g with ⟨x | s, h⟩ <;> simp only [hrun] at ht <;> cases ht
  have hgives : Edit.Gives (Edit.call l rs) g s h := hrun
  have hfresh : ∃ k a b d, Expr.simplDerive a b = .ok d ∧ (TermGraph.add k d).1 = s ∧
      (TermGraph.add k d).2 = h := by
    unfold Edit.call at hgives
    split at hgives
    case h_4 => exact ⟨g, Edit.gives_simplDerive hgives⟩
    case h_5 => exact Edit.gives_derivePolynomial hgives
    case h_6 => exact absurd hgives Edit.not_gives_throw
    all_goals simp at hl
  obtain ⟨k, a, b, d, hd, rfl, rfl⟩ := hfresh
  cases (expr_add k d).symm.trans he
  exact tidy_of_simplDerive hd

/-- What a library function returns: a tidy expression, if it is a derivative. -/
theorem call_cases {l : LibraryFunction} {arguments : List (Option Term)} {t : Term}
    (ht : call l arguments = .ok t) :
    (l ∈ [.simplDerive, .derivePolynomial] ∧ ∃ e, t = tree e ∧ e.Tidy) ∨
      (l ∈ [.expand, .substitute, .eval] ∧
        ((∃ e, t = tree e) ∨ callOnGraph l arguments = .ok t)) := by
  unfold call at ht
  split at ht
  case h_1 =>
    obtain ⟨e, -, rfl⟩ := eq_tree_of_map ht
    exact .inr ⟨by simp, .inl ⟨e, rfl⟩⟩
  case h_2 =>
    obtain ⟨e, -, rfl⟩ := eq_tree_of_map ht
    exact .inr ⟨by simp, .inl ⟨e, rfl⟩⟩
  case h_3 =>
    obtain ⟨e, he, rfl⟩ := eq_tree_of_map ht
    exact .inl ⟨by simp, e, rfl, tidy_of_simplDerive he⟩
  case h_4 =>
    obtain ⟨e, he, rfl⟩ := eq_tree_of_map ht
    exact .inl ⟨by simp, e, rfl, tidy_of_derivePolynomial he⟩
  case h_5 =>
    obtain ⟨u, hu, ht⟩ := bind_eq_ok ht
    obtain ⟨e, he, ht⟩ := bind_eq_ok ht
    cases ht
    exact .inl ⟨by simp, e, rfl, tidy_of_callOnGraph (by simp) hu he⟩
  case h_6 =>
    obtain ⟨u, hu, ht⟩ := bind_eq_ok ht
    obtain ⟨e, he, ht⟩ := bind_eq_ok ht
    cases ht
    exact .inl ⟨by simp, e, rfl, tidy_of_callOnGraph (by simp) hu he⟩
  case h_7 k _ _ hsimplDerive hderivePolynomial _ _ _ _ =>
    refine .inr ⟨?_, .inr ht⟩
    cases k with
    | simplDerive => exact absurd rfl hsimplDerive
    | derivePolynomial => exact absurd rfl hderivePolynomial
    | _ => simp

end Term

end SymScript
