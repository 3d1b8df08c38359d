import Mathlib.Order.Basic
import SymScript.Proofs.Expansion
import SymScript.Proofs.Simplified

/-!
# The depth of an expansion step

`reach` bounds the depth of the calls of a step.  A step does not make it larger, so it also covers
the second expansion of the addends of a negated sum, and any larger bound leaves the outcome of a
step as it is.
-/

namespace SymScript.Expr

/-! ### Measures -/

section Lists

variable {es : List Expr} {k : Nat}

/-- The largest number of a list bounds those of its members. -/
theorem largestNumAll_le_iff : largestNumAll es ≤ k ↔ 1 ≤ k ∧ ∀ e ∈ es, largestNum e ≤ k := by
  induction es with
  | nil => simp [largestNumAll]
  | cons e es ih =>
    rw [largestNumAll, Nat.max_le, ih, List.forall_mem_cons]
    tauto

/-- The largest reach of a list bounds those of its members. -/
theorem reachMax_le_iff : reachMax es ≤ k ↔ ∀ e ∈ es, reach e ≤ k := by
  induction es with
  | nil => simp [reachMax]
  | cons e es ih => rw [reachMax, Nat.max_le, ih, List.forall_mem_cons]

/-- The reach of a list is the sum over its members. -/
theorem reachSum_eq (es : List Expr) : reachSum es = (es.map reach).sum := by
  induction es with
  | nil => rfl
  | cons e es ih => rw [reachSum, ih, List.map_cons, List.sum_cons]

end Lists

theorem one_le_largestNum (e : Expr) : 1 ≤ largestNum e := by
  have hall (es : List Expr) : 1 ≤ largestNumAll es := (largestNumAll_le_iff.1 le_rfl).1
  induction e using children_induction with
  | rational q => exact Nat.le_max_left 1 q.num
  | symbol => exact le_rfl
  | sum s es => exact hall es
  | product s es => exact hall es
  | power s b x hb => exact hb.trans (Nat.le_max_left _ _)

theorem largestNum_copy (e : Expr) : largestNum (copy e) = largestNum e := by
  have hall {es : List Expr} (h : ∀ e ∈ es, largestNum (copy e) = largestNum e) :
      largestNumAll (sort (copyAll es)) = largestNumAll es := by
    refine eq_of_forall_ge_iff fun k => ?_
    rw [largestNumAll_le_iff, largestNumAll_le_iff, forall_mem_sort_copyAll]
    exact and_congr_right' (forall₂_congr fun e he => by rw [h e he])
  induction e using children_induction with
  | rational | symbol => rfl
  | sum s es ih => exact hall ih
  | product s es ih => exact hall ih
  | power s b x hb hx => rw [copy, largestNum, hb, hx, largestNum]

theorem largestNum_withSign (s : Bool) (e : Expr) : largestNum (e.withSign s) = largestNum e := by
  have hsign (e : Expr) : largestNum (e.sign s) = largestNum e := by cases e <;> rfl
  rw [withSign, hsign, largestNum_copy]

theorem reach_copy (e : Expr) : reach (copy e) = reach e := by
  induction e using children_induction with
  | rational | symbol => rfl
  | sum s es ih =>
    rw [copy, reach, reach]
    refine congrArg (· + 1) (eq_of_forall_ge_iff fun k => ?_)
    rw [reachMax_le_iff, reachMax_le_iff, forall_mem_sort_copyAll]
    exact forall₂_congr fun e he => by rw [ih e he]
  | product s es ih =>
    have hsum : reachSum (sort (copyAll es)) = reachSum es := by
      rw [reachSum_eq, ((sort_perm _).map reach).sum_eq, copyAll_eq_map, List.map_map, reachSum_eq]
      exact congrArg List.sum (List.map_congr_left ih)
    rw [copy, reach, hsum, length_sort, length_copyAll, reach]
  | power s b x hb hx => rw [copy, reach, hb, hx, largestNum_copy, reach]

theorem reach_withSign (s : Bool) (e : Expr) : reach (e.withSign s) = reach e := by
  have hsign (e : Expr) : reach (e.sign s) = reach e := by cases e <;> rfl
  rw [withSign, hsign, reach_copy]

theorem one_le_reach (e : Expr) : 1 ≤ reach e := by
  cases e <;> rw [reach] <;> omega

/-- The factors of a product have less reach. -/
theorem reach_le_of_mem_product {s : Bool} {es : List Expr} {e : Expr} {n : Nat}
    (hn : reach (product s es) ≤ n + 1) (he : e ∈ es) : reach e ≤ n := by
  have hle : reach e ≤ reachSum es := by
    rw [reachSum_eq]
    exact List.le_sum_of_mem (List.mem_map_of_mem he)
  rw [reach] at hn
  omega

/-- The base and the exponent of a power have less reach. -/
theorem reach_le_of_power {s : Bool} {b x : Expr} {n : Nat} (hn : reach (power s b x) ≤ n + 1) :
    reach b ≤ n ∧ reach x ≤ n := by
  have hmul := Nat.le_mul_of_pos_left (reach b + 1) (one_le_largestNum x)
  rw [reach] at hn
  omega

/-- A product of two has the reach of both, and one more. -/
theorem reach_mkProduct_pair (x y : Expr) :
    reach (mkProduct false [x, y]) = reach x + reach y + 1 :=
  reach_copy (product false [x, y])

/-- An addend of a sum reaches less far than the sum. -/
theorem reach_of_mem_addends {e x : Expr} (hx : x ∈ e.addends) :
    reach x ≤ reach e ∧ (e.shape = .sum → reach x < reach e) := by
  by_cases he : e.shape = .sum
  · cases e with
    | sum s es =>
      have hlt : reach x < reach (sum s es) := Nat.lt_succ_of_le (reachMax_le_iff.1 le_rfl x hx)
      exact ⟨hlt.le, fun _ => hlt⟩
    | _ => cases he
  · rw [addends_of_shape_ne he, List.mem_singleton] at hx
    exact ⟨hx ▸ le_rfl, fun h => absurd h he⟩

/-- An expression reaches at most one further than its addends. -/
theorem reach_le_of_addends {e : Expr} {k : Nat} (h : ∀ x ∈ e.addends, reach x ≤ k) :
    reach e ≤ k + 1 ∧ (e.shape ≠ .sum → reach e ≤ k) := by
  by_cases he : e.shape = .sum
  · cases e with
    | sum s es => exact ⟨Nat.succ_le_succ (reachMax_le_iff.2 h), fun hne => absurd rfl hne⟩
    | _ => cases he
  · rw [addends_of_shape_ne he, List.forall_mem_singleton] at h
    exact ⟨h.trans k.le_succ, fun _ => h⟩

/-- Distributing two factors reaches no further than their product. -/
theorem reach_distribute_le (a b : Expr) : reach (distribute a b) ≤ reach a + reach b + 1 := by
  by_cases hshape : (distribute a b).shape = .sum
  · -- One of the two is a sum, and its addends are less deep than itself.
    have hsum : a.shape = .sum ∨ b.shape = .sum := by
      by_contra hne
      obtain ⟨ha, hb⟩ := not_or.1 hne
      rw [shape_distribute, addends_of_shape_ne ha, addends_of_shape_ne hb] at hshape
      exact hshape rfl
    refine (reach_le_of_addends (k := reach a + reach b) ?_).1
    refine forall_mem_addends_distribute fun x hx y hy => ?_
    have hx := reach_of_mem_addends hx
    have hy := reach_of_mem_addends hy
    rw [reach_mkProduct_pair]
    rcases hsum with ha | hb
    · have := hx.2 ha
      omega
    · have := hy.2 hb
      omega
  · refine (reach_le_of_addends (forall_mem_addends_distribute fun x hx y hy => ?_)).2 hshape
    have hx := reach_of_mem_addends hx
    have hy := reach_of_mem_addends hy
    rw [reach_mkProduct_pair]
    omega

/-- Distributing a list of factors reaches no further than their product. -/
theorem reach_distributeAll_le (cs : List Expr) :
    reach (distributeAll cs) ≤ reachSum cs + (cs.length - 2) + 1 := by
  have hfold (a : Expr) (cs : List Expr) :
      reach (cs.foldl distribute a) ≤ reach a + reachSum cs + cs.length := by
    induction cs generalizing a with
    | nil => exact le_rfl
    | cons b cs ih =>
      have hab := reach_distribute_le a b
      have := ih (distribute a b)
      rw [List.foldl_cons, reachSum, List.length_cons]
      omega
  cases cs with
  | nil => exact le_rfl
  | cons a cs =>
    have := hfold a cs
    rw [reachSum, List.length_cons]
    exact this.trans (by omega)

/-! ### One step -/

/-- A step makes neither the numbers nor the reach larger. -/
structure Bounded (e r : Expr) : Prop where
  largestNum_le : largestNum r ≤ largestNum e
  reach_le : reach r ≤ reach e

/-- Distributing brings no larger number. -/
theorem largestNum_distributeAll_le {k : Nat} (hk : 1 ≤ k) {cs : List Expr}
    (h : ∀ c ∈ cs, largestNum c ≤ k) : largestNum (distributeAll cs) ≤ k := by
  have hof {e : Expr} (he : ∀ x ∈ e.addends, largestNum x ≤ k) : largestNum e ≤ k := by
    cases e with
    | sum s es => exact largestNumAll_le_iff.2 ⟨hk, he⟩
    | _ => exact he _ (List.mem_singleton_self _)
  refine hof (forall_mem_addends_distributeAll hk (fun x y hx hy => ?_) fun c hc x hx => ?_)
  · have hpair : largestNum (mkProduct false [x, y]) = max (largestNum x) (max (largestNum y) 1) :=
      largestNum_copy (product false [x, y])
    rw [hpair]
    omega
  · have hc := h c hc
    cases c with
    | sum s es => exact (largestNumAll_le_iff.1 hc).2 x hx
    | _ => exact List.mem_singleton.1 hx ▸ hc

section Bounded

variable {es cs : List Expr} (h : List.Forall₂ Bounded es cs)

include h

/-- Bounded members bound the numbers of a list. -/
theorem largestNumAll_of_bounded : largestNumAll cs ≤ largestNumAll es := by
  obtain ⟨hone, hes⟩ := largestNumAll_le_iff.1 (le_refl (largestNumAll es))
  exact largestNumAll_le_iff.2
    ⟨hone, forall_mem_of_forall₂ h fun e he c hc => hc.largestNum_le.trans (hes e he)⟩

/-- Bounded members bound the largest reach of a list. -/
theorem reachMax_of_bounded : reachMax cs ≤ reachMax es :=
  reachMax_le_iff.2 (forall_mem_of_forall₂ h fun e he _ hc =>
    hc.reach_le.trans (reachMax_le_iff.1 le_rfl e he))

/-- Bounded members bound the reach of a list. -/
theorem reachSum_of_bounded : reachSum cs ≤ reachSum es := by
  induction h with
  | nil => exact le_rfl
  | cons hc _ ih => exact Nat.add_le_add hc.reach_le ih

/-- The step on a sum is bounded. -/
theorem bounded_mkSum (s : Bool) : Bounded (sum s es) (mkSum false cs) where
  largestNum_le := (largestNum_copy (sum false cs)).trans_le (largestNumAll_of_bounded h)
  reach_le := (reach_copy (sum false cs)).trans_le (Nat.succ_le_succ (reachMax_of_bounded h))

/-- The step on a product is bounded. -/
theorem bounded_expandProduct (s : Bool) : Bounded (product s es) (expandProduct s cs) where
  largestNum_le := by
    obtain ⟨hone, hcs⟩ := largestNumAll_le_iff.1 (largestNumAll_of_bounded h)
    rw [expandProduct, largestNum_withSign]
    exact largestNum_distributeAll_le hone hcs
  reach_le := by
    have hsum := reachSum_of_bounded h
    have hreach := reach_distributeAll_le cs
    rw [expandProduct, reach_withSign, reach, h.length_eq]
    omega

end Bounded

/-- Passing signs on is bounded. -/
theorem bounded_passSigns {es cs ds : List Expr} (hcs : List.Forall₂ Bounded es cs)
    (hds : List.Forall₂ Bounded cs ds) : List.Forall₂ Bounded es (passSigns cs ds) := by
  induction hcs generalizing ds with
  | nil =>
    cases hds
    exact .nil
  | cons hc _ ih =>
    cases hds with
    | cons hd hds =>
      refine .cons ⟨?_, ?_⟩ (ih hds)
      · rw [largestNum_withSign]
        exact hd.largestNum_le.trans hc.largestNum_le
      · rw [reach_withSign]
        exact hd.reach_le.trans hc.reach_le

/-- The step on a power is bounded: its exponent is a number of the expression. -/
theorem bounded_expandPower {s : Bool} {b c r : Expr} {q : Fraction} (hc : Bounded b c)
    (hr : expandPower s c q = .ok r) : Bounded (power s b (rational q)) r := by
  obtain ⟨d, hd, hr⟩ := expandPower_eq_ok hr
  have hnum : largestNum d ≤ largestNum b := by
    rcases hd with ⟨-, rfl⟩ | ⟨-, rfl⟩
    · exact hc.largestNum_le
    · refine (largestNum_copy (product false _)).trans_le ?_
      refine largestNumAll_le_iff.2 ⟨one_le_largestNum b, ?_⟩
      exact List.forall_mem_replicate.2 (.inr hc.largestNum_le)
  have hreach : reach d + 1 ≤ max 1 q.num * (reach b + 1) := by
    have hle := hc.reach_le
    rcases hd with ⟨hq, rfl⟩ | ⟨hq, rfl⟩
    · rw [hq, Nat.max_self, Nat.one_mul]
      omega
    · have hsum : reach (mkProduct false (List.replicate q.num c)) =
          q.num * reach c + (q.num - 2) + 1 := by
        rw [show reach (mkProduct false (List.replicate q.num c)) = _ from
          reach_copy (product false _), reach, reachSum_eq, List.map_replicate,
          List.sum_replicate_nat, List.length_replicate]
      have hmul : q.num * reach c ≤ q.num * reach b := Nat.mul_le_mul_left _ hle
      rw [hsum, Nat.max_eq_right (by omega), Nat.mul_add]
      omega
  rcases hr with ⟨-, -, rfl⟩ | ⟨-, rfl⟩
  · constructor
    · rw [largestNum_withSign]
      exact hnum.trans (Nat.le_max_left _ _)
    · rw [reach_withSign, reach, largestNum]
      omega
  · constructor
    · rw [show largestNum (mkPower s d _) = _ from largestNum_copy (power s d _)]
      exact max_le_max hnum (by simp [largestNum])
    · rw [show reach (mkPower s d _) = _ from reach_copy (power s d _)]
      rw [reach, reach, reach, reach, largestNum, largestNum, Nat.max_self, Nat.one_mul]
      omega

/-- Every step is bounded, by induction on the depth. -/
theorem bounded_of_expandWithin {n : Nat} {e : Expr} {x : Expansion}
    (h : expandWithin n e = .ok x) : Bounded e x.result := by
  refine expandWithin_result_induction ?rational ?symbol ?sum ?negatedSum ?product ?power
    ?freePower h
  case rational | symbol =>
    intros
    exact ⟨le_rfl, le_rfl⟩
  case sum => exact fun es cs hcs => bounded_mkSum hcs false
  case negatedSum => exact fun es cs ds hcs hds => bounded_mkSum (bounded_passSigns hcs hds) true
  case product => exact fun s es cs hcs => bounded_expandProduct hcs s
  case power => exact fun s b q c r hc hr => bounded_expandPower hc hr
  case freePower =>
    intro s b x c d _ hc hd
    have hmul : d.largestNum * (reach c + 1) ≤ x.largestNum * (reach b + 1) :=
      Nat.mul_le_mul hd.largestNum_le (Nat.succ_le_succ hc.reach_le)
    constructor
    · exact (largestNum_copy (power s c d)).trans_le (max_le_max hc.largestNum_le hd.largestNum_le)
    · rw [show reach (mkPower s c d) = _ from reach_copy (power s c d), reach, reach]
      have := hd.reach_le
      omega

/-! ### The bound -/

theorem expandPower_ne_endless (s : Bool) (b : Expr) (q : Fraction) :
    expandPower s b q ≠ .error .endless := by
  intro h
  rw [expandPower, unfold, product?] at h
  split at h
  · dsimp only [bind, Except.bind] at h
    split at h <;> cases h
  · split at h
    · cases h
    · dsimp only [bind, Except.bind] at h
      split at h <;> cases h

/-- The reach is depth enough for a step. -/
theorem expandWithin_ends {n : Nat} {e : Expr} (hn : reach e ≤ n) :
    Ends (fun x => Bounded e x.result) (expandWithin n e) := by
  induction n generalizing e with
  | zero =>
    have := one_le_reach e
    omega
  | succ n ih =>
    refine ⟨?_, fun x hx => bounded_of_expandWithin hx⟩
    have hall {es : List Expr} (hes : ∀ e ∈ es, reach e ≤ n) :
        Ends (List.Forall₂ (fun e x => Bounded e x.result) es) (es.mapM (expandWithin n)) :=
      Ends.mapM fun e he => ih (hes e he)
    have hok {α : Type} (a : α) : Ends (fun _ => True) (.ok a : Except AlgebraError α) :=
      .ok trivial
    cases e with
    | rational | symbol => exact (hok _).ends
    | sum s es =>
      have hes : ∀ e ∈ es, reach e ≤ n := reachMax_le_iff.1 (Nat.le_of_succ_le_succ hn)
      refine (Ends.bind (R := fun _ => True) (hall hes).ends fun xs hxs => ?_).ends
      cases s with
      | false => exact hok _
      | true =>
        have hcs : ∀ c ∈ xs.map Expansion.result, reach c ≤ n :=
          forall_mem_of_forall₂ (List.forall₂_map_right_iff.2 ((hall hes).result xs hxs))
            fun e he c hc => hc.reach_le.trans (hes e he)
        exact .bind (hall hcs).ends fun _ _ => hok _
    | product s es =>
      have hes : ∀ e ∈ es, reach e ≤ n := fun e he => reach_le_of_mem_product hn he
      exact (Ends.bind (R := fun _ => True) (hall hes).ends fun _ _ => hok _).ends
    | power s b x =>
      obtain ⟨hb, hx⟩ := reach_le_of_power hn
      have hb := ih hb
      have hx := ih hx
      have hfree : Ends (fun _ => True) (expandWithin n b >>= fun y => expandWithin n x >>= fun z =>
          pure (⟨mkPower s y.result z.result, power s y.receiver z.receiver⟩ : Expansion)) :=
        .bind hb.ends fun _ _ => .bind hx.ends fun _ _ => hok _
      cases x with
      | rational q =>
        exact (Ends.bind (R := fun _ => True) hb.ends fun y _ =>
          .bind (expandPower_ne_endless s y.result q) fun _ _ => hok _).ends
      | _ => exact hfree.ends

/-- One step of an expansion always ends. -/
theorem expand_ne_endless (e : Expr) : e.expand ≠ .error .endless := (expandWithin_ends le_rfl).ends

/-- One call more changes no outcome. -/
theorem refines_expandWithin_succ (n : Nat) (e : Expr) :
    Refines (expandWithin n e) (expandWithin (n + 1) e) := by
  induction n generalizing e with
  | zero => exact fun h => absurd rfl h
  | succ n ih =>
    cases e with
    | rational | symbol => exact .refl _
    | sum s es =>
      refine (Refines.mapM ih es).bind fun xs => ?_
      cases s with
      | false => exact .refl _
      | true => exact (Refines.mapM ih _).bind fun _ => .refl _
    | product s es => exact (Refines.mapM ih es).bind fun _ => .refl _
    | power s b x =>
      have hfree : Refines
          (expandWithin n b >>= fun y => expandWithin n x >>= fun z =>
            pure (⟨mkPower s y.result z.result, power s y.receiver z.receiver⟩ : Expansion))
          (expandWithin (n + 1) b >>= fun y => expandWithin (n + 1) x >>= fun z =>
            pure ⟨mkPower s y.result z.result, power s y.receiver z.receiver⟩) :=
        (ih b).bind fun _ => (ih x).bind fun _ => .refl _
      cases x with
      | rational q => exact (ih b).bind fun _ => .refl _
      | _ => exact hfree

/-- From the reach on, the depth does not matter. -/
theorem expandWithin_eq_expand {n : Nat} {e : Expr} (h : reach e ≤ n) :
    expandWithin n e = e.expand := by
  induction h with
  | refl => rfl
  | @step n _ ih => rw [refines_expandWithin_succ n e (by rw [ih]; exact expand_ne_endless e), ih]

end SymScript.Expr
