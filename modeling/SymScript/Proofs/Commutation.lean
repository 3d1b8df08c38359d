import SymScript.Proofs.Canonical
import SymScript.Proofs.Opposites
import SymScript.Proofs.Values

/-!
# Sums and products in either order

The children of a sum or product are sorted before they are simplified, so two of them may be given
in either order as long as the order tells them apart.  Two opposites are not told apart either.
Their product is the same in both orders since it takes their signs away first, and their sum since
every addend meets its opposite, so that only numbers are left of it.
-/

namespace SymScript.Expr

/-! ### Outcomes -/

/-- What a simplifier makes of an expression, or the expression itself where it fails. -/
def outcome (f : Expr → Except AlgebraError Expr) (e : Expr) : Expr :=
  match f e with
  | .ok r => r
  | .error _ => e

theorem outcome_eq {f : Expr → Except AlgebraError Expr} {e r : Expr} (h : f e = .ok r) :
    outcome f e = r := by
  rw [outcome, h]

/-- Where all members have outcomes, the list of results is the list of outcomes. -/
theorem mapM_eq_ok {f : Expr → Except AlgebraError Expr} {es rs : List Expr}
    (h : es.mapM f = .ok rs) :
    rs = es.map (outcome f) ∧ ∀ e ∈ es, f e = .ok (outcome f e) := by
  rw [mapM_eq_ok_iff] at h
  induction h with
  | nil => exact ⟨rfl, List.forall_mem_nil _⟩
  | cons hab _ ih =>
    have hout := outcome_eq hab
    refine ⟨by rw [List.map_cons, hout, ← ih.1], List.forall_mem_cons.2 ⟨?_, ih.2⟩⟩
    rw [hab, hout]

/-! ### Numbers in a list -/

/-- The sum of the numbers in a list. -/
def total (es : List Expr) : ℚ := ((numbers es).map Fraction.toRat).sum

/-- The total of two lists is the sum of their totals. -/
theorem total_append (es fs : List Expr) : total (es ++ fs) = total es + total fs := by
  rw [total, numbers_append, List.map_append, List.sum_append, total, total]

/-- The total does not depend on the arrangement. -/
theorem total_perm {es fs : List Expr} (h : es.Perm fs) : total es = total fs :=
  ((numbers_perm h).map _).sum_eq

/-- Nothing but numbers. -/
theorem others_eq_nil_iff {es : List Expr} : others es = [] ↔ ∀ e ∈ es, e.isNumber = true := by
  rw [others, List.filter_eq_nil_iff]
  simp

/-- Fractions added up have the sum of their values. -/
theorem toRat_foldl_add (q : Fraction) (qs : List Fraction) :
    (qs.foldl (· + ·) q).toRat = q.toRat + (qs.map Fraction.toRat).sum := by
  induction qs generalizing q with
  | nil => exact (add_zero _).symm
  | cons p qs ih =>
    rw [List.foldl_cons, ih, Fraction.toRat_add, List.map_cons, List.sum_cons, add_assoc]

/-- Fractions multiplied have the product of their values. -/
theorem toRat_foldl_mul (q : Fraction) (qs : List Fraction) :
    (qs.foldl (· * ·) q).toRat = q.toRat * (qs.map Fraction.toRat).prod := by
  induction qs generalizing q with
  | nil => exact (mul_one _).symm
  | cons p qs ih =>
    rw [List.foldl_cons, ih, Fraction.toRat_mul, List.map_cons, List.prod_cons, mul_assoc]

/-- The total as an addend has the total of the numbers. -/
theorem total_totalAddend (es : List Expr) : total (totalAddend (numbers es)) = total es := by
  have hfold : ((numbers es).foldl (· + ·) (Fraction.ofNat 0)).toRat = total es := by
    rw [toRat_foldl_add, Fraction.toRat_ofNat, Nat.cast_zero, zero_add, total]
  rw [totalAddend]
  split
  · rename_i hzero
    rw [← hfold, Fraction.toRat_eq_zero_iff.2 (by simpa [Fraction.isZero] using hzero)]
    rfl
  · simpa [total, numbers, rational?] using hfold

/-- A number in lowest terms with the value `v`. -/
def IsValue (v : ℚ) (r : Expr) : Prop := ∃ q : Fraction, r = rational q ∧ q.reduce = q ∧ q.toRat = v

/-- There is one number in lowest terms for a value. -/
theorem IsValue.unique {v : ℚ} {r r' : Expr} (h : IsValue v r) (h' : IsValue v r') : r = r' := by
  obtain ⟨q, rfl, hq, rfl⟩ := h
  obtain ⟨q', rfl, hq', hv⟩ := h'
  rw [Fraction.eq_of_toRat_eq hq hq' hv.symm]

/-- Lowest terms keep the value. -/
theorem isValue_reduce (q : Fraction) : IsValue q.toRat (rational q.reduce) :=
  ⟨_, rfl, q.reduce_reduce, q.toRat_reduce⟩

/-- Lowest terms under another sign have the value with that sign. -/
theorem isValue_signed (s : Bool) (q : Fraction) :
    IsValue (signed s q.toRat) (rational (q.withSign (s != q.negated)).reduce) :=
  ⟨_, rfl, Fraction.reduce_reduce _, toRat_reduce_withSign s q⟩

/-! ### Sums and products of numbers -/

variable {f : Expr → Except AlgebraError Expr} {s : Bool} {es : List Expr} {r : Expr}

theorem numbers_eq_cons (hne : es ≠ []) (ho : others es = []) : ∃ q qs, numbers es = q :: qs := by
  apply List.exists_cons_of_ne_nil
  intro hnil
  exact hne (by rw [eq_map_numbers ho, hnil, List.map_nil])

/-- A sum of numbers comes to its total. -/
theorem isValue_of_finishSum (hne : es ≠ []) (ho : others es = []) (h : finishSum f s es = .ok r) :
    IsValue (signed s (total es)) r := by
  obtain ⟨q, qs, hq⟩ := numbers_eq_cons hne ho
  rw [finishSum, eq_map_numbers ho, hq, numbers?_map_rational] at h
  cases h
  rw [total, hq, List.map_cons, List.sum_cons, ← toRat_foldl_add]
  exact isValue_signed s _

/-- A product of numbers comes to the product of their values. -/
theorem isValue_of_finishProduct (hne : es ≠ []) (ho : others es = [])
    (h : finishProduct f s es = .ok r) :
    IsValue (signed s ((numbers es).map Fraction.toRat).prod) r := by
  obtain ⟨q, qs, hq⟩ := numbers_eq_cons hne ho
  rw [finishProduct, eq_map_numbers ho, hq, numbers?_map_rational] at h
  cases h
  rw [hq, List.map_cons, List.prod_cons, ← toRat_foldl_mul]
  exact isValue_signed s _

/-- Numbers stay numbers, with the same sum. -/
theorem total_outcomes {n : Nat} (ho : others es = [])
    (h : ∀ e ∈ es, simplifyWithin n e = .ok (outcome (simplifyWithin n) e)) :
    others (es.map (outcome (simplifyWithin n))) = [] ∧
      total (es.map (outcome (simplifyWithin n))) = total es := by
  induction es with
  | nil => exact ⟨rfl, rfl⟩
  | cons e es ih =>
    obtain ⟨he, hes⟩ := List.forall_mem_cons.1 h
    obtain ⟨hnum, hnums⟩ := List.forall_mem_cons.1 (others_eq_nil_iff.1 ho)
    obtain ⟨q, rfl⟩ := isNumber_iff.1 hnum
    obtain ⟨hothers, htotal⟩ := ih (others_eq_nil_iff.2 hnums) hes
    rw [List.map_cons, eq_of_simplifyWithin_rational he]
    constructor
    · rw [others_cons_rational, hothers]
    · rw [total, numbers_cons_rational, List.map_cons, List.sum_cons, ← total, htotal,
        Fraction.toRat_reduce, total, total, numbers_cons_rational, List.map_cons, List.sum_cons]

/-- What numbers are joined to is simplified to their sum. -/
theorem isValue_joinSum {n : Nat} (ho : others es = [])
    (h : simplifyWithin n (joinSum s es) = .ok r) : IsValue (signed s (total es)) r := by
  have hnum := others_eq_nil_iff.1 ho
  rcases es with _ | ⟨e, _ | ⟨d, es⟩⟩
  · rw [eq_of_simplifyWithin_rational h, total, numbers_nil, List.map_nil, List.sum_nil,
      signed_zero]
    simpa using isValue_reduce (.ofNat 0)
  · obtain ⟨q, rfl⟩ := isNumber_iff.1 (hnum e List.mem_cons_self)
    rw [eq_of_simplifyWithin_rational h]
    simpa [total, numbers, rational?] using isValue_signed s q
  · cases n with
    | zero => cases h
    | succ n =>
      obtain ⟨rs, hrs, hr⟩ := bind_eq_ok h
      obtain ⟨rfl, hall⟩ := mapM_eq_ok hrs
      have hcopy : copyAll (e :: d :: es) = e :: d :: es := by
        apply copyAll_eq
        intro c hc
        obtain ⟨q, rfl⟩ := isNumber_iff.1 (hnum c hc)
        rfl
      rw [hcopy] at hr hall
      have hperm := sort_perm (e :: d :: es)
      have hsorted : others (sort (e :: d :: es)) = [] :=
        List.Perm.eq_nil (ho ▸ others_perm hperm)
      obtain ⟨hothers, htotal⟩ := total_outcomes hsorted hall
      rw [← total_perm hperm, ← htotal]
      refine isValue_of_finishSum ?_ hothers hr
      intro hnil
      have hlength := congrArg List.length hnil
      rw [List.length_map, length_sort] at hlength
      cases hlength

/-- A zero among the factors makes the product zero. -/
theorem isValue_of_zero {n : Nat} {q : Fraction} (hq : rational q ∈ es) (hzero : q.num = 0)
    (h : finishProduct (simplifyWithin n) s es = .ok r) : IsValue 0 r := by
  by_cases ho : others es = []
  · have hprod : ((numbers es).map Fraction.toRat).prod = 0 :=
      List.prod_eq_zero (List.mem_map.2 ⟨q, mem_numbers.2 hq, Fraction.toRat_eq_zero_iff.2 hzero⟩)
    have hvalue := isValue_of_finishProduct (List.ne_nil_of_mem hq) ho h
    rwa [hprod, signed_zero] at hvalue
  · -- The coefficient is zero, so what is collected is a number, and no product.
    have hcollect {t : Expr} (ht : collectProduct (simplifyWithin n) (productSign s es)
        (unsigned es) = .ok t) : ∃ p : Fraction, t = rational p ∧ p.num = 0 := by
      have hmem : q.withSign false ∈ numbers (unsigned es) :=
        mem_numbers.2 (List.mem_map.2 ⟨_, hq, rfl⟩)
      have hcoefficient :
          ((numbers (unsigned es)).foldl (· * ·) (Fraction.ofNat 1)).num = 0 := by
        rw [← Fraction.toRat_eq_zero_iff, toRat_foldl_mul, List.prod_eq_zero, mul_zero]
        exact List.mem_map.2 ⟨_, hmem, Fraction.toRat_eq_zero_iff.2 hzero⟩
      rw [collectProduct_eq_bind] at ht
      obtain ⟨bs, -, ht⟩ := bind_eq_ok ht
      simp only at ht
      split at ht
      · cases ht
        exact ⟨_, rfl, hcoefficient⟩
      · rw [if_pos (by simpa [Fraction.isZero] using hcoefficient)] at ht
        cases ht
        exact ⟨_, rfl, rfl⟩
    rw [finishProduct, numbers?_eq_none ho] at h
    obtain ⟨t, ht, h⟩ := bind_eq_ok h
    obtain ⟨p, rfl, hp⟩ := hcollect ht
    rw [if_neg (by rw [beq_iff_eq]; rintro ⟨⟩)] at h
    rw [eq_of_simplifyWithin_rational h, ← Fraction.toRat_eq_zero_iff.2 hp]
    exact isValue_reduce p

/-- A term with the coefficient zero is written as zero. -/
theorem isValue_ofTerm {n : Nat} {t : Expr × Fraction} (hzero : t.2.num = 0)
    (h : ofTerm (simplifyWithin n) t = .ok r) : IsValue 0 r := by
  have hden := t.2.den_ne
  rw [ofTerm, if_neg (by simp [Fraction.isOne, hzero, hden.symm]),
    if_neg (by simp [hzero, hden.symm])] at h
  cases n with
  | zero => cases h
  | succ n =>
    obtain ⟨rs, hrs, hr⟩ := bind_eq_ok h
    obtain ⟨rfl, hall⟩ := mapM_eq_ok hrs
    have hmem : rational t.2 ∈ sort (copyAll [rational t.2, t.1]) :=
      mem_sort.2 List.mem_cons_self
    have hmem := List.mem_map_of_mem (f := outcome (simplifyWithin n)) hmem
    rw [eq_of_simplifyWithin_rational (hall _ (mem_sort.2 List.mem_cons_self))] at hmem
    exact isValue_of_zero hmem (Fraction.reduce_num_eq_zero.2 hzero) hr

/-! ### Addends beside their opposites -/

/-- Every addend that is no number stands beside its opposite. -/
def Balanced (es : List Expr) : Prop := ∃ ms : List Expr, (others es).Perm (ms ++ ms.map opposite)

/-- The copy of an opposite is the opposite of the copy. -/
theorem copy_opposite (e : Expr) : copy e.opposite = (copy e).opposite := by
  rw [opposite, copy_sign, opposite, copy_negated]

theorem withSign_opposite (s : Bool) (e : Expr) : e.opposite.withSign s = e.withSign s := by
  rw [withSign, copy_opposite, opposite, sign_sign, withSign]

/-- An opposite has the same term with the opposite coefficient. -/
theorem term_opposite (e : Expr) :
    e.opposite.term.1 = e.term.1 ∧ e.opposite.term.2.toRat = -e.term.2.toRat := by
  have hunit : ((Fraction.ofNat 1).withSign e.opposite.negated).toRat =
      -((Fraction.ofNat 1).withSign e.negated).toRat := by
    rw [opposite, sign_negated, Fraction.toRat_withSign, Fraction.toRat_withSign]
    cases e.negated <;> simp
  rw [term, withSign_opposite, term]
  split
  · exact ⟨rfl, by rw [Fraction.toRat_mul, Fraction.toRat_mul, hunit, neg_mul]⟩
  · exact ⟨rfl, by rw [Fraction.toRat_mul, Fraction.toRat_mul, hunit, neg_mul]⟩
  · exact ⟨rfl, hunit⟩

/-- Joining a value into a list of different keys keeps the keys different. -/
theorem nodup_gather {β : Type} (join : β → β → β) (k : Expr) (v : β) {l : List (Expr × β)}
    (h : (l.map Prod.fst).Nodup) : ((gather join k v l).map Prod.fst).Nodup := by
  by_cases hk : k ∈ l.map Prod.fst
  · have hkeys : (gather join k v l).map Prod.fst = l.map Prod.fst := by
      clear h
      induction l with
      | nil => cases hk
      | cons ku l ih =>
        rw [gather]
        split
        · rfl
        · rename_i hne
          rw [List.map_cons, List.map_cons, ih]
          refine (List.mem_cons.1 hk).resolve_left fun he => hne ?_
          rw [he]
          exact beq_self_eq_true _
    rwa [hkeys]
  · rw [gather_of_not_mem join v hk, List.map_append]
    exact h.append (List.nodup_singleton _) (by simpa using hk)

/-- Joined keys are different. -/
theorem nodup_gatherAll {β : Type} (join : β → β → β) (kvs : List (Expr × β)) :
    ((gatherAll join kvs).map Prod.fst).Nodup := by
  induction kvs using List.reverseRecOn with
  | nil => exact List.nodup_nil
  | append_singleton kvs kv ih =>
    rw [gatherAll, List.foldl_append]
    exact nodup_gather join kv.1 kv.2 ih

/-- The coefficients of addends that stand beside their opposites come to zero. -/
theorem Balanced.coefficient_eq_zero (h : Balanced es) {t : Expr × Fraction} (ht : t ∈ terms es) :
    t.2.num = 0 := by
  obtain ⟨ms, hms⟩ := h
  -- What a term adds to the coefficient of the factor of `t`.
  let w : Expr × Fraction → ℚ := fun u => if u.1 = t.1 then u.2.toRat else 0
  have hjoin (k : Expr) (p q : Fraction) : w (k, p + q) = w (k, p) + w (k, q) := by
    by_cases hk : k = t.1 <;> simp [w, hk, Fraction.toRat_add]
  have hopposite (e : Expr) : w e.opposite.term = -w e.term := by
    obtain ⟨hkey, hcoefficient⟩ := term_opposite e
    by_cases hk : e.term.1 = t.1 <;> simp [w, hkey, hk, hcoefficient]
  have hsum : ((terms es).map w).sum = w t := by
    refine sum_map_eq_of_mem (List.Nodup.of_map _ (nodup_gatherAll _ _)) ht fun u hu hne => ?_
    refine if_neg fun hk => hne ?_
    exact List.inj_on_of_nodup_map (nodup_gatherAll _ _) hu ht hk
  have hzero : ((terms es).map w).sum = 0 := by
    rw [terms, sum_gatherAll_eq hjoin, properAddends, List.map_map,
      ((hms.filter _).map _).sum_eq, List.filter_append, List.map_append, List.sum_append,
      List.filter_map, List.map_map]
    have hshape : ((fun e : Expr => e.shape != .sum) ∘ opposite) = fun e => e.shape != .sum := by
      funext e
      simp [opposite]
    rw [hshape]
    induction ms.filter fun e => e.shape != .sum with
    | nil => simp
    | cons m ms ih =>
      rw [List.map_cons, List.map_cons, List.sum_cons, List.sum_cons, add_add_add_comm,
        ih, add_zero, Function.comp_apply, Function.comp_apply, Function.comp_apply, hopposite,
        add_neg_cancel]
  have hw : w t = t.2.toRat := if_pos rfl
  rw [← Fraction.toRat_eq_zero_iff, ← hw, ← hsum, hzero]

/-- The addends of the opposite of a nested sum are the opposites of its addends. -/
theorem openedSum_opposite {e : Expr} (h : Tidy e) :
    openedSum e.opposite = (openedSum e).map opposite := by
  cases e with
  | sum t ds =>
    have hflip : ds.map flip = ds.map opposite :=
      List.map_congr_left fun d hd => ((shaped_sum_iff.1 h).1 d hd).flip_eq
    cases t with
    | false => exact hflip
    | true =>
      change ds = (ds.map flip).map opposite
      rw [hflip, List.map_map]
      simp [Function.comp_def]
  | _ => rfl

/-- Numbers open no sums. -/
theorem flatMap_openedSum_others (es : List Expr) :
    (others es).flatMap openedSum = es.flatMap openedSum := by
  induction es with
  | nil => rfl
  | cons e es ih =>
    cases he : e.isNumber with
    | true =>
      obtain ⟨q, rfl⟩ := isNumber_iff.1 he
      rw [others_cons_rational, ih]
      rfl
    | false => rw [others_cons_of_other he, List.flatMap_cons, List.flatMap_cons, ih]

/-- The addends of nested sums stand beside their opposites if the sums do. -/
theorem Balanced.opened (h : Balanced es) (htidy : ∀ e ∈ es, Tidy e) :
    ∃ ms : List Expr, (es.flatMap openedSum).Perm (ms ++ ms.map opposite) := by
  obtain ⟨ms, hms⟩ := h
  refine ⟨ms.flatMap openedSum, ?_⟩
  have hopened : (ms.map opposite).flatMap openedSum = (ms.flatMap openedSum).map opposite := by
    rw [List.flatMap_map, List.map_flatMap]
    refine List.flatMap_congr fun m hm => openedSum_opposite (htidy m ?_)
    exact (mem_others.1 (hms.mem_iff.2 (List.mem_append_left _ hm))).1
  rw [← flatMap_openedSum_others, ← hopened, ← List.flatMap_append]
  exact hms.flatMap_right _

/-- Opposed results are opposites where they are no numbers. -/
theorem others_of_opposed {rs rs' : List Expr} (h : List.Forall₂ Opposed rs rs') :
    others rs' = (others rs).map opposite := by
  induction h with
  | nil => rfl
  | @cons r r' rs rs' hr _ ih =>
    rcases hr with rfl | ⟨hnum, hnum'⟩
    · cases hnum : r.isNumber with
      | true =>
        obtain ⟨q, rfl⟩ := isNumber_iff.1 hnum
        rw [others_cons_rational, ← ih]
        rfl
      | false =>
        rw [others_cons_of_other hnum, others_cons_of_other (by rwa [isNumber_opposite]), ih,
          List.map_cons]
    · obtain ⟨q, rfl⟩ := isNumber_iff.1 hnum
      obtain ⟨q', rfl⟩ := isNumber_iff.1 hnum'
      rw [others_cons_rational, others_cons_rational, ih]

/-! ### Rounds of such sums -/

/-- A nested sum brings at least two addends. -/
theorem two_le_length_flatMap_openedSum (htidy : ∀ e ∈ es, Tidy e)
    (hne : es.flatMap openedSum ≠ []) : 2 ≤ (es.flatMap openedSum).length := by
  obtain ⟨d, hd⟩ := List.exists_mem_of_ne_nil _ hne
  obtain ⟨e, he, hde⟩ := List.mem_flatMap.1 hd
  cases e with
  | sum t ds =>
    have hlength : 2 ≤ (openedSum (sum t ds)).length := by
      have hl := (shaped_sum_iff.1 (htidy _ he)).2.1
      cases t with
      | false => exact hl
      | true =>
        rw [openedSum, if_pos rfl, List.length_map]
        exact hl
    refine hlength.trans ?_
    rw [List.length_flatMap]
    exact List.single_le_sum (fun _ _ => Nat.zero_le _) _ (List.mem_map_of_mem he)
  | _ => cases hde

/-- What stands in a tidy sum is tidy and no sum, also when the sum is opened. -/
theorem tidy_of_mem_openedSum {e d : Expr} (h : Tidy e) (hd : d ∈ openedSum e) :
    Tidy d ∧ d.shape ≠ .sum := by
  cases e with
  | sum t ds =>
    obtain ⟨hds, -, -, hform⟩ := shaped_sum_iff.1 h
    cases t with
    | false => exact ⟨hds d hd, hform.noSum d hd⟩
    | true =>
      obtain ⟨c, hc, rfl⟩ := List.mem_map.1 hd
      rw [(hds c hc).flip_eq]
      exact ⟨Tidy.sign (hds c hc) _, by rw [sign_shape]; exact hform.noSum c hc⟩
  | _ => cases hd

/-- Numbers are never joined to a sum that has more in it than numbers. -/
theorem joinSum_ne_of_numbers {ls : List Expr} (ho : others ls = []) (hes : numbers? es = none) :
    joinSum s ls ≠ sum s es := by
  intro h
  rcases ls with _ | ⟨e, _ | ⟨d, ls⟩⟩
  · cases h
  · obtain ⟨q, rfl⟩ := isNumber_iff.1 (others_eq_nil_iff.1 ho e List.mem_cons_self)
    cases h
  · obtain rfl := (sum.inj h).2
    refine others_ne_nil_of_numbers? (List.ne_nil_of_length_pos (by simp)) hes ?_
    refine others_eq_nil_iff.2 fun c hc => ?_
    rw [mem_sort, copyAll_eq_map] at hc
    obtain ⟨c, hmem, rfl⟩ := List.mem_map.1 hc
    obtain ⟨q, rfl⟩ := isNumber_iff.1 (others_eq_nil_iff.1 ho c hmem)
    rfl

/-- What is left of the numbers and of the coefficients, which are zero. -/
theorem Balanced.others_collected {n : Nat} (h : Balanced es) {ts : List Expr}
    (hts : (terms es).mapM (ofTerm (simplifyWithin n)) = .ok ts) :
    others (totalAddend (numbers es) ++ ts) = [] ∧
      total (totalAddend (numbers es) ++ ts) = total es := by
  have hzero : ∀ t ∈ ts, IsValue 0 t := by
    intro t ht
    obtain ⟨u, hu, hut⟩ := exists_of_forall₂ (mapM_eq_ok_iff.1 hts).flip ht
    exact isValue_ofTerm (h.coefficient_eq_zero hu) hut
  constructor
  · refine others_eq_nil_iff.2 (List.forall_mem_append.2 ⟨fun e he => ?_, fun e he => ?_⟩)
    · rw [eq_rational_of_mem_totalAddend he]
      rfl
    · obtain ⟨q, rfl, -⟩ := hzero e he
      rfl
  · rw [total_append, total_totalAddend, add_eq_left, total]
    refine List.sum_eq_zero fun v hv => ?_
    obtain ⟨q, hq, rfl⟩ := List.mem_map.1 hv
    obtain ⟨p, hp, -, hv⟩ := hzero _ (mem_numbers.1 hq)
    rwa [rational.inj hp]

/-- A round on a sum whose addends stand beside their opposites comes to the total of its numbers,
if no sums are nested in it. -/
theorem Balanced.isValue_of_finishSum {n : Nat} (h : Balanced es) (hnil : es.flatMap openedSum = [])
    (hr : finishSum (simplifyWithin n) s es = .ok r) : IsValue (signed s (total es)) r := by
  cases hq : numbers? es with
  | some q =>
    have hne : es ≠ [] := by
      rintro rfl
      cases hq
    have ho : others es = [] := by
      by_contra ho
      rw [numbers?_eq_none ho] at hq
      cases hq
    exact Expr.isValue_of_finishSum hne ho hr
  | none =>
    rw [finishSum, hq, collectSum_eq_bind, hnil, List.nil_append] at hr
    obtain ⟨t, ht, hr⟩ := bind_eq_ok hr
    obtain ⟨ts, hts, ht⟩ := bind_eq_ok ht
    obtain ⟨hothers, htotal⟩ := h.others_collected hts
    cases ht
    rw [if_neg (by simpa using joinSum_ne_of_numbers hothers hq)] at hr
    exact htotal ▸ isValue_joinSum hothers hr

/-- What is collected of nested sums and numbers is simplified, since it holds no sum. -/
theorem finishSum_of_nested {n : Nat} (htidy : ∀ e ∈ es, Tidy e) (hne : es.flatMap openedSum ≠ [])
    (hr : finishSum (simplifyWithin n) s es = .ok r) :
    ∃ ts, (terms es).mapM (ofTerm (simplifyWithin n)) = .ok ts ∧
      (others (totalAddend (numbers es) ++ ts) = [] →
        simplifyWithin n
          (sum s (sort (es.flatMap openedSum ++ (totalAddend (numbers es) ++ ts)))) = .ok r) := by
  have hq : numbers? es = none := by
    apply numbers?_eq_none
    intro ho
    rw [← flatMap_openedSum_others, ho] at hne
    exact hne rfl
  rw [finishSum, hq, collectSum_eq_bind] at hr
  obtain ⟨t, ht, hr⟩ := bind_eq_ok hr
  obtain ⟨ts, hts, ht⟩ := bind_eq_ok ht
  refine ⟨ts, hts, fun hothers => ?_⟩
  rw [List.append_assoc] at ht
  generalize totalAddend (numbers es) ++ ts = zs at ht hothers ⊢
  have hcollected : ∀ d ∈ es.flatMap openedSum ++ zs, copy d = d ∧ d.shape ≠ .sum := by
    refine List.forall_mem_append.2 ⟨fun d hd => ?_, fun d hd => ?_⟩
    · obtain ⟨e, he, hde⟩ := List.mem_flatMap.1 hd
      obtain ⟨htd, hshape⟩ := tidy_of_mem_openedSum (htidy e he) hde
      exact ⟨htd.copy_eq, hshape⟩
    · obtain ⟨q, rfl⟩ := isNumber_iff.1 (others_eq_nil_iff.1 hothers d hd)
      exact ⟨rfl, by rintro ⟨⟩⟩
  have hlength := two_le_length_flatMap_openedSum htidy hne
  cases ht
  rw [joinSum_of_two_le (by rw [List.length_append]; omega),
    mkSum_eq fun d hd => (hcollected d hd).1] at hr
  rw [if_neg] at hr
  · exact hr
  · -- A sum is nested in what was given, but not in what is collected.
    rw [beq_iff_eq]
    intro heq
    obtain ⟨d, hd⟩ := List.exists_mem_of_ne_nil _ hne
    obtain ⟨e, he, hde⟩ := List.mem_flatMap.1 hd
    rw [← (sum.inj heq).2, mem_sort] at he
    have hshape := (hcollected e he).2
    cases e with
    | sum => exact hshape rfl
    | _ => cases hde

/-- Where sums are nested in it, the round goes on with what their addends simplify to, and with
numbers that have the total of the given ones. -/
theorem Balanced.finishSum_of_nested {n : Nat} (h : Balanced es) (htidy : ∀ e ∈ es, Tidy e)
    (hne : es.flatMap openedSum ≠ []) (hr : finishSum (simplifyWithin n) s es = .ok r) :
    ∃ m rs zs, n = m + 1 ∧ finishSum (simplifyWithin m) s rs = .ok r ∧
      (∀ e ∈ es.flatMap openedSum, simplifyWithin m e = .ok (outcome (simplifyWithin m) e)) ∧
      rs.Perm ((es.flatMap openedSum).map (outcome (simplifyWithin m)) ++ zs) ∧
      (∀ e ∈ rs, Tidy e) ∧ others zs = [] ∧ total zs = total es := by
  obtain ⟨ts, hts, hround⟩ := Expr.finishSum_of_nested htidy hne hr
  obtain ⟨hothers, htotal⟩ := h.others_collected hts
  have hr := hround hothers
  generalize totalAddend (numbers es) ++ ts = zs at hr hothers htotal
  cases n with
  | zero => cases hr
  | succ m =>
    obtain ⟨rs, hrs, hr⟩ := bind_eq_ok hr
    obtain ⟨rfl, hall⟩ := mapM_eq_ok hrs
    have hall : ∀ d ∈ es.flatMap openedSum ++ zs,
        simplifyWithin m d = .ok (outcome (simplifyWithin m) d) :=
      fun d hd => hall d (mem_sort.2 hd)
    obtain ⟨hopen, hzs⟩ := List.forall_mem_append.1 hall
    obtain ⟨hnumbers, hsum⟩ := total_outcomes hothers hzs
    refine ⟨m, _, zs.map (outcome (simplifyWithin m)), rfl, hr, hopen, ?_, ?_, hnumbers,
      hsum.trans htotal⟩
    · rw [← List.map_append]
      exact (sort_perm _).map _
    · intro e he
      obtain ⟨d, hd, rfl⟩ := List.mem_map.1 he
      exact tidy_of_simplifyWithin (hall d (mem_sort.1 hd))

/-- Two lists of addends in which the same addends stand beside their opposites, with numbers that
come to the same. -/
structure Matched (es fs : List Expr) : Prop where
  tidy : ∀ e ∈ es, Tidy e
  tidy' : ∀ e ∈ fs, Tidy e
  balanced : Balanced es
  perm : (others es).Perm (others fs)
  total_eq : total es = total fs

theorem Matched.balanced' {fs : List Expr} (h : Matched es fs) : Balanced fs := by
  obtain ⟨ms, hms⟩ := h.balanced
  exact ⟨ms, h.perm.symm.trans hms⟩

/-- Matched lists open the same sums. -/
theorem Matched.opened {fs : List Expr} (h : Matched es fs) :
    (es.flatMap openedSum).Perm (fs.flatMap openedSum) := by
  rw [← flatMap_openedSum_others es, ← flatMap_openedSum_others fs]
  exact h.perm.flatMap_right openedSum

/-- What matched addends of nested sums simplify to is matched, beside numbers with one total. -/
theorem Matched.outcomes {m : Nat} {fs rs rs' zs zs' : List Expr} (h : Matched es fs)
    (hall : ∀ e ∈ es.flatMap openedSum, simplifyWithin m e = .ok (outcome (simplifyWithin m) e))
    (hrs : rs.Perm ((es.flatMap openedSum).map (outcome (simplifyWithin m)) ++ zs))
    (hrs' : rs'.Perm ((fs.flatMap openedSum).map (outcome (simplifyWithin m)) ++ zs'))
    (htidy : ∀ e ∈ rs, Tidy e) (htidy' : ∀ e ∈ rs', Tidy e)
    (hzs : others zs = [] ∧ total zs = total es) (hzs' : others zs' = [] ∧ total zs' = total fs) :
    Matched rs rs' := by
  have hopened : ((es.flatMap openedSum).map (outcome (simplifyWithin m))).Perm
      ((fs.flatMap openedSum).map (outcome (simplifyWithin m))) := h.opened.map _
  have hothers : (others rs).Perm
      (others ((es.flatMap openedSum).map (outcome (simplifyWithin m)))) := by
    have := others_perm hrs
    rwa [others_append, hzs.1, List.append_nil] at this
  have hothers' : (others rs').Perm
      (others ((fs.flatMap openedSum).map (outcome (simplifyWithin m)))) := by
    have := others_perm hrs'
    rwa [others_append, hzs'.1, List.append_nil] at this
  obtain ⟨ms, hms⟩ := h.balanced.opened h.tidy
  refine ⟨htidy, htidy', ⟨others (ms.map (outcome (simplifyWithin m))), ?_⟩, ?_, ?_⟩
  · have hopposed : List.Forall₂ Opposed (ms.map (outcome (simplifyWithin m)))
        ((ms.map opposite).map (outcome (simplifyWithin m))) := by
      rw [List.map_map, List.forall₂_map_left_iff, List.forall₂_map_right_iff, List.forall₂_same]
      intro e he
      refine opposed_of_simplifyWithin (hall e (hms.mem_iff.2 ?_))
        (hall e.opposite (hms.mem_iff.2 ?_))
      · exact List.mem_append_left _ he
      · exact List.mem_append_right _ (List.mem_map_of_mem he)
    rw [← others_of_opposed hopposed, ← others_append, ← List.map_append]
    exact hothers.trans (others_perm (hms.map _))
  · exact hothers.trans ((others_perm hopened).trans hothers'.symm)
  · rw [total_perm hrs, total_perm hrs', total_append, total_append, total_perm hopened,
      hzs.2, hzs'.2, h.total_eq]

/-- Sums of matched addends come to the same number. -/
theorem Matched.exists_value {n : Nat} {fs : List Expr} {r' : Expr} (h : Matched es fs)
    (hr : finishSum (simplifyWithin n) s es = .ok r)
    (hr' : finishSum (simplifyWithin n) s fs = .ok r') : ∃ v, IsValue v r ∧ IsValue v r' := by
  induction n using Nat.strongRecOn generalizing es fs with
  | ind n ih =>
    have hopened := h.opened
    by_cases hnil : es.flatMap openedSum = []
    · have hnil' : fs.flatMap openedSum = [] := List.Perm.nil_eq (hnil ▸ hopened) |>.symm
      refine ⟨_, h.balanced.isValue_of_finishSum hnil hr, ?_⟩
      rw [h.total_eq]
      exact h.balanced'.isValue_of_finishSum hnil' hr'
    · have hnil' : fs.flatMap openedSum ≠ [] := fun heq => hnil (List.Perm.eq_nil (heq ▸ hopened))
      obtain ⟨m, rs, zs, rfl, hround, hall, hrs, htidy, hzs⟩ :=
        h.balanced.finishSum_of_nested h.tidy hnil hr
      obtain ⟨m', rs', zs', hm, hround', -, hrs', htidy', hzs'⟩ :=
        h.balanced'.finishSum_of_nested h.tidy' hnil' hr'
      obtain rfl := Nat.succ.inj hm
      exact ih m (Nat.lt_succ_self m) (h.outcomes hall hrs hrs' htidy htidy' hzs hzs')
        hround hround'

/-! ### Two children in either order -/

/-- The sign of a product does not depend on the arrangement of its factors. -/
theorem productSign_perm {fs : List Expr} (h : es.Perm fs) (s : Bool) :
    productSign s es = productSign s fs := by
  refine h.foldl_eq' (fun a _ b _ t => ?_) s
  cases t <;> cases a.negated <;> cases b.negated <;> rfl

/-- The children of a node simplify to two opposites, or to two numbers. -/
theorem outcomes_of_opposites {e : Expr} {es rs : List Expr} (hes : es.Perm [e, e.opposite])
    (hrs : es.mapM simplify = .ok rs) :
    rs.Perm [outcome simplify e, outcome simplify e.opposite] ∧ (∀ r ∈ rs, Tidy r) ∧
      Opposed (outcome simplify e) (outcome simplify e.opposite) := by
  obtain ⟨rfl, hall⟩ := mapM_eq_ok hrs
  refine ⟨hes.map _, fun r hr => ?_, ?_⟩
  · obtain ⟨d, hd, rfl⟩ := List.mem_map.1 hr
    exact tidy_of_simplifyWithin (hall d hd)
  · exact opposed_of_simplify (hall e (hes.mem_iff.2 (by simp)))
      (hall e.opposite (hes.mem_iff.2 (by simp)))

/-- A sum of two opposites simplifies to the same in both orders. -/
theorem simplify_sum_of_opposites {e : Expr} {es fs : List Expr} (hes : es.Perm [e, e.opposite])
    (hfs : fs.Perm [e, e.opposite]) {r r' : Expr} (hr : simplify (sum s es) = .ok r)
    (hr' : simplify (sum s fs) = .ok r') : r = r' := by
  rw [simplify_sum_eq s es (Nat.le_max_left _ (sum s fs).simplifyBound)] at hr
  rw [simplify_sum_eq s fs (Nat.le_max_right (sum s es).simplifyBound _)] at hr'
  obtain ⟨rs, hrs, hr⟩ := bind_eq_ok hr
  obtain ⟨rs', hrs', hr'⟩ := bind_eq_ok hr'
  obtain ⟨hperm, htidy, hopposed⟩ := outcomes_of_opposites hes hrs
  obtain ⟨hperm', htidy', -⟩ := outcomes_of_opposites hfs hrs'
  have hsame := hperm.trans hperm'.symm
  have hbalanced : Balanced rs := by
    refine ⟨others [outcome simplify e], ?_⟩
    rw [← others_of_opposed (.cons hopposed .nil), ← others_append]
    exact others_perm hperm
  have hmatched : Matched rs rs' :=
    ⟨htidy, htidy', hbalanced, others_perm hsame, total_perm hsame⟩
  obtain ⟨v, hv, hv'⟩ := hmatched.exists_value hr hr'
  exact hv.unique hv'

/-- A product of two opposites simplifies to the same in both orders. -/
theorem simplify_product_of_opposites {e : Expr} {es fs : List Expr} (hes : es.Perm [e, e.opposite])
    (hfs : fs.Perm [e, e.opposite]) {r r' : Expr} (hr : simplify (product s es) = .ok r)
    (hr' : simplify (product s fs) = .ok r') : r = r' := by
  rw [simplify_product_eq s es (Nat.le_max_left _ (product s fs).simplifyBound)] at hr
  rw [simplify_product_eq s fs (Nat.le_max_right (product s es).simplifyBound _)] at hr'
  obtain ⟨rs, hrs, hr⟩ := bind_eq_ok hr
  obtain ⟨rs', hrs', hr'⟩ := bind_eq_ok hr'
  obtain ⟨hperm, -, hopposed⟩ := outcomes_of_opposites hes hrs
  obtain ⟨hperm', -, -⟩ := outcomes_of_opposites hfs hrs'
  have hsame := hperm.trans hperm'.symm
  by_cases hnum : others rs = []
  · have hnum' : others rs' = [] := List.Perm.eq_nil (hnum ▸ others_perm hsame.symm)
    have hne {ds : List Expr} (hds : ds.Perm [outcome simplify e, outcome simplify e.opposite]) :
        ds ≠ [] := by
      rintro rfl
      cases hds.nil_eq
    have hv := isValue_of_finishProduct (hne hperm) hnum hr
    rw [((numbers_perm hsame).map _).prod_eq] at hv
    exact hv.unique (isValue_of_finishProduct (hne hperm') hnum' hr')
  · have hnum' : others rs' ≠ [] := fun h => hnum (List.Perm.eq_nil (h ▸ others_perm hsame))
    -- Without their signs the two factors are the same.
    have hunsigned : unsigned rs = unsigned rs' := by
      rcases hopposed with hopposite | ⟨hn, hn'⟩
      · have hpair {ds : List Expr}
            (hds : ds.Perm [outcome simplify e, outcome simplify e.opposite]) :
            unsigned ds = List.replicate 2 ((outcome simplify e).withSign false) := by
          refine List.perm_replicate.1 ((hds.map _).trans (.of_eq ?_))
          rw [List.map_cons, List.map_singleton, hopposite, withSign_opposite]
          rfl
        rw [hpair hperm, hpair hperm']
      · refine absurd (others_eq_nil_iff.2 fun r hr => ?_) hnum
        rcases List.mem_cons.1 (hperm.mem_iff.1 hr) with rfl | hr
        · exact hn
        · rwa [List.mem_singleton.1 hr]
    rw [finishProduct, numbers?_eq_none hnum, hunsigned, productSign_perm hsame] at hr
    rw [finishProduct, numbers?_eq_none hnum'] at hr'
    exact Except.ok.inj (hr.symm.trans hr')

/-! ### Two children that keep their order -/

/-- Only compound nodes are not told apart. -/
theorem Untold.compound {a b : Expr} (h : Untold a b) : Compound a := by
  cases h with
  | here hc => exact hc
  | @inside _ _ x _ _ _ _ _ ha => exact compound_of_mem_children (c := x) (by simp [ha])

theorem Untold.isNumber {a b : Expr} (h : Untold a b) : a.isNumber = false := by
  have hc := h.compound
  cases a with
  | rational => exact absurd rfl hc.1
  | _ => rfl

theorem Untold.shape_eq {a b : Expr} (h : Untold a b) : a.shape = b.shape := by
  cases h with
  | here => exact (sign_shape _ a).symm
  | inside hshape => exact hshape

/-- Without their signs the two are still different, unless they are opposites. -/
theorem Untold.sign_ne {a b : Expr} (h : Untold a b) (hne : b ≠ a.opposite) (s : Bool) :
    a.sign s ≠ b.sign s := by
  intro heq
  have hchildren : a.children = b.children := by
    rw [← children_sign s a, heq, children_sign]
  rcases eq_or_eq_opposite h.shape_eq h.compound hchildren with hba | hba
  · exact h.incomparable.1 hba.symm
  · exact hne hba

/-- The two are different terms, unless they are opposites: if numbers lead their factors, it is the
same number. -/
theorem Untold.term_ne {a b : Expr} (h : Untold a b) (hne : b ≠ a.opposite) (ha : Tidy a)
    (hb : Tidy b) : a.term.1 ≠ b.term.1 := by
  have hnone (hna : numbers a.factors = []) (hnb : numbers b.factors = []) :
      a.term.1 ≠ b.term.1 := by
    rw [ha.term_of_numbers_nil hna, hb.term_of_numbers_nil hnb]
    exact h.sign_ne hne false
  have hshape := h.shape_eq
  cases a with
  | rational => exact absurd rfl h.compound.1
  | symbol => exact absurd rfl h.compound.2
  | sum | power =>
    cases b <;> cases hshape
    exact hnone rfl rfl
  | product s fs =>
    cases b with
    | product t gs =>
      cases h with
      | here => exact absurd rfl hne
      | @inside _ _ x y front as bs _ hfs hgs hxy =>
        obtain rfl : fs = front ++ x :: as := hfs
        obtain rfl : gs = front ++ y :: bs := hgs
        -- No number leads the factors where something else does.
        have hlead {d : Expr} {ds : List Expr} {u : Bool} (hd : d.isNumber = false)
            (hds : Tidy (product u (d :: ds))) : numbers (d :: ds) = [] := by
          obtain hnil | ⟨q, es, heq, -⟩ := hds.numbers_cases
          · exact hnil
          · rw [(List.cons.inj heq).1] at hd
            cases hd
        cases front with
        | nil => exact hnone (hlead hxy.isNumber ha) (hlead hxy.symm.isNumber hb)
        | cons d front =>
          cases hd : d.isNumber with
          | false => exact hnone (hlead hd ha) (hlead hd hb)
          | true =>
            obtain ⟨q, rfl⟩ := isNumber_iff.1 hd
            have hfactors {u : Bool} {es : List Expr} (hes : Tidy (product u (rational q :: es))) :
                (joined es).factors = es :=
              factors_joined (List.forall_mem_cons.1 (shaped_product_iff.1 hes).2.2.2.noProduct).2
            rw [List.cons_append] at ha hb ⊢
            rw [List.cons_append, ha.term_of_rational, hb.term_of_rational]
            intro hjoined
            have heq := congrArg factors hjoined
            rw [hfactors ha, hfactors hb, List.append_cancel_left_eq] at heq
            exact hxy.incomparable.1 (List.cons.inj heq).1
    | _ => cases hshape

/-- Two that are not told apart are in order as they stand. -/
theorem Untold.ordered_pair {a b : Expr} (h : Untold a b) : Ordered [a, b] :=
  List.isChain_pair.2 h.incomparable.2.2

/-- Sorting leaves two that are not told apart as they stand. -/
theorem Untold.sort_pair {a b : Expr} (h : Untold a b) (ha : copy a = a) (hb : copy b = b) :
    sort (copyAll [a, b]) = [a, b] := by
  rw [copyAll, copyAll, copyAll, ha, hb, h.ordered_pair.sort_eq]

section Pair

variable {a b : Expr} (h : Untold a b) (hne : b ≠ a.opposite) (ha : simplify a = .ok a)
  (hb : simplify b = .ok b)

include h hne ha hb

/-- Two addends that the order leaves incomparable stay as they are given. -/
theorem Untold.simplify_mkSum (hs : a.shape ≠ .sum) (s : Bool) :
    simplify (mkSum s [a, b]) = .ok (sum s [a, b]) := by
  rw [simplify_eq_self_iff] at ha hb
  rw [mkSum, h.sort_pair ha.copy_eq hb.copy_eq, simplify_eq_self_iff]
  have hnumbers : numbers [a, b] = [] := by
    rw [numbers_cons_of_other h.isNumber, numbers_cons_of_other h.symm.isNumber, numbers_nil]
  refine shaped_sum_iff.2 ⟨?_, le_rfl, h.ordered_pair, ⟨?_, ?_, ?_, ?_⟩⟩
  · simpa using ⟨ha, hb⟩
  · simpa using ⟨hs, h.shape_eq ▸ hs⟩
  · simp [hnumbers]
  · simp [hnumbers]
  · rw [others_eq_self hnumbers]
    simpa using h.term_ne hne ha.tidy hb.tidy

omit ha hb in
/-- Without their signs two sums that the order leaves incomparable are factors of a product. -/
theorem Untold.productForm (hs : a.shape = .sum) : ProductForm [a.sign false, b.sign false] := by
  have hbs : b.shape = .sum := h.shape_eq ▸ hs
  have hbase {e : Expr} (he : e.shape = .sum) : (e.sign false).base = e.sign false := by
    cases e <;> cases he
    rfl
  have hnumbers : numbers [a.sign false, b.sign false] = [] := by
    rw [numbers_cons_of_other (by rw [sign_isNumber, h.isNumber]),
      numbers_cons_of_other (by rw [sign_isNumber, h.symm.isNumber]), numbers_nil]
  refine ⟨by simp, by simp [hs, hbs], by simp [hnumbers], by simp [hnumbers], ?_⟩
  rw [others_eq_self hnumbers]
  simpa [hbase hs, hbase hbs] using h.sign_ne hne false

/-- Two sums that are not told apart make a stable product, in the order in which they stand. -/
theorem Untold.stable_product (hs : a.shape = .sum) (s : Bool) :
    Stable (product s [a.sign false, b.sign false]) := by
  rw [simplify_eq_self_iff] at ha hb
  have hlt : lt (b.sign false) (a.sign false) = false := by
    rw [lt_of_compound (by rw [sign_shape, sign_shape, h.shape_eq])
      (by rw [Compound, sign_shape]; exact h.symm.compound), children_sign, children_sign,
      ← lt_of_compound h.symm.shape_eq h.symm.compound]
    exact h.incomparable.2.2
  refine shaped_product_iff.2 ⟨?_, le_rfl, List.isChain_pair.2 hlt, h.productForm hne hs⟩
  simpa using ⟨ha.sign_false, hb.sign_false⟩

/-- Two sums that the order leaves incomparable stay as they are given in their product, which takes
their signs. -/
theorem Untold.simplify_mkProduct (hs : a.shape = .sum) (s : Bool) :
    simplify (mkProduct s [a, b]) =
      .ok (product (productSign s [a, b]) [a.sign false, b.sign false]) := by
  have hstable := h.stable_product hne ha hb hs
  have hfactors := (shaped_product_iff.1 (hstable s)).1
  have hform := h.productForm hne hs
  have hsimplify : ∀ e ∈ [a, b], simplify e = .ok e := by simpa using ⟨ha, hb⟩
  rw [simplify_eq_self_iff] at ha hb
  have hunsigned : unsigned [a, b] = [a.sign false, b.sign false] := by
    rw [unsigned, List.map_cons, List.map_singleton, ha.withSign_eq, hb.withSign_eq]
  have hothers : others [a, b] ≠ [] := by
    rw [others_cons_of_other h.isNumber]
    exact List.cons_ne_nil _ _
  have hcollect (f : Expr → Except AlgebraError Expr) (t : Bool) :
      collectProduct f t [a.sign false, b.sign false] =
        .ok (product t [a.sign false, b.sign false]) := by
    have hperm := (shaped_product_iff.1 (hstable t)).2.2.1.eq_numbers_append_others
    rw [hform.collectProduct_eq hfactors (hunsigned ▸ others_unsigned_ne_nil hothers), hperm,
      (hstable t).joinProduct_eq]
  rw [mkProduct, h.sort_pair ha.copy_eq hb.copy_eq, simplify_product_eq s [a, b] le_rfl,
    mapM_eq_self hsimplify]
  change finishProduct _ s [a, b] = _
  rw [finishProduct, numbers?_eq_none hothers, hunsigned, hcollect]
  change (if _ then _ else _) = _
  split
  · rfl
  · refine (hstable _).simplifyWithin_eq ?_
    have hmass := mass_lt_simplifyBound (product s [a, b])
    simp only [mass, massAll, mass_sign] at hmass ⊢
    omega

end Pair

/-! ### Commutation -/

/-- The sum of the two simplifies to equal expressions in either order, and so does their product,
where simplification returns. -/
def Interchange (s : Bool) (a b : Expr) : Prop :=
  (∀ r r', simplify (mkSum s [a, b]) = .ok r → simplify (mkSum s [b, a]) = .ok r' →
    (r == r') = true) ∧
  ∀ r r', simplify (mkProduct s [a, b]) = .ok r → simplify (mkProduct s [b, a]) = .ok r' →
    (r == r') = true

/-- Two that are told apart are sorted into one order, and opposites come to the same in both. -/
theorem interchange_of_untold {s : Bool} {a b : Expr}
    (h : Untold a.copy b.copy → b.copy = a.copy.opposite) : Interchange s a b := by
  by_cases hu : Untold a.copy b.copy
  · have hperm : (sort (copyAll [a, b])).Perm [a.copy, a.copy.opposite] := by
      rw [← h hu]
      exact sort_perm _
    have hperm' : (sort (copyAll [b, a])).Perm [a.copy, a.copy.opposite] := by
      rw [← h hu]
      exact (sort_perm _).trans (.swap _ _ _)
    exact ⟨fun r r' hr hr' => beq_iff_eq.2 (simplify_sum_of_opposites hperm hperm' hr hr'),
      fun r r' hr hr' => beq_iff_eq.2 (simplify_product_of_opposites hperm hperm' hr hr')⟩
  · have hself (e : Expr) : ¬ Untold e e := fun h => h.incomparable.1 rfl
    have hsort : sort (copyAll [a, b]) = sort (copyAll [b, a]) := by
      refine sort_copyAll_eq_of_perm ?_ (.swap _ _ _)
      simp only [List.mem_cons, List.not_mem_nil, or_false, forall_eq_or_imp, forall_eq]
      exact ⟨⟨hself _, hu⟩, fun h => hu h.symm, hself _⟩
    rw [Interchange, mkSum, mkSum, mkProduct, mkProduct, hsort]
    exact ⟨fun r r' hr hr' => beq_iff_eq.2 (Except.ok.inj (hr.symm.trans hr')),
      fun r r' hr hr' => beq_iff_eq.2 (Except.ok.inj (hr.symm.trans hr'))⟩

/-- Two simplified expressions that the order leaves incomparable, and that are no opposites, keep
their order in their sum, or in their product if they are sums. -/
theorem Untold.not_interchange {a b : Expr} (h : Untold a b) (hne : b ≠ a.opposite)
    (ha : simplify a = .ok a) (hb : simplify b = .ok b) (s : Bool) : ¬ Interchange s a b := by
  have hne' : a ≠ b.opposite := fun heq => hne (by rw [heq, opposite_opposite])
  rintro ⟨hsum, hproduct⟩
  by_cases hs : a.shape = .sum
  · have heq := beq_iff_eq.1 (hproduct _ _ (h.simplify_mkProduct hne ha hb hs s)
      (h.symm.simplify_mkProduct hne' hb ha (h.shape_eq ▸ hs) s))
    exact h.sign_ne hne false (List.cons.inj (product.inj heq).2).1
  · have heq := beq_iff_eq.1 (hsum _ _ (h.simplify_mkSum hne ha hb hs s)
      (h.symm.simplify_mkSum hne' hb ha (h.shape_eq ▸ hs) s))
    exact h.incomparable.1 (List.cons.inj (sum.inj heq).2).1

/-- Sums and products do not depend on the order in which two expressions are given, unless these
first differ in the sign of a compound node and are no opposites.  Of simplified expressions this is
exact. -/
theorem interchange_iff (s : Bool) (a b : Expr) :
    ((Untold a.copy b.copy → b.copy = a.copy.opposite) → Interchange s a b) ∧
    (simplify a = .ok a → simplify b = .ok b →
      (Interchange s a b ↔ (Untold a b → b = a.opposite))) := by
  refine ⟨interchange_of_untold, fun ha hb => ⟨fun h hu => ?_, fun h => ?_⟩⟩
  · by_contra hne
    exact hu.not_interchange hne ha hb s h
  · apply interchange_of_untold
    rwa [(simplify_eq_self_iff.1 ha).copy_eq, (simplify_eq_self_iff.1 hb).copy_eq]

/-- The sum of `x * z` and `w`, with signs on the sum and on the product. -/
def mixedSum (s t : Bool) : Expr :=
  sum s [product t [symbol false 'x', symbol false 'z'], symbol false 'w']

/-- `w + x * z` and its opposite. -/
theorem interchange_iff_opposite :
    simplify (mixedSum false false) = .ok (mixedSum false false) ∧
    simplify (mixedSum true false) = .ok (mixedSum true false) ∧
    Untold (mixedSum false false) (mixedSum true false) ∧
    Interchange false (mixedSum false false) (mixedSum true false) ∧
    Interchange true (mixedSum false false) (mixedSum true false) := by
  have hfirst : simplify (mixedSum false false) = .ok (mixedSum false false) := by
    with_unfolding_all rfl
  have hsecond : simplify (mixedSum true false) = .ok (mixedSum true false) := by
    with_unfolding_all rfl
  exact ⟨hfirst, hsecond, .here (sum_compound _ _),
    (interchange_iff false _ _).1 fun _ => rfl,
    ((interchange_iff true _ _).2 hfirst hsecond).2 fun _ => rfl⟩

/-- A letter times that sum. -/
def mixedProduct (t : Bool) : Expr := product false [symbol false 'u', mixedSum false t]

/-- `(w + x * z) * (w - x * z)` is another product with its factors exchanged, and
`u * (w + x * z) + u * (w - x * z)` is another sum. -/
theorem not_interchange_mixedSum :
    (∀ t, simplify (mixedSum false t) = .ok (mixedSum false t) ∧
      simplify (mixedProduct t) = .ok (mixedProduct t)) ∧
    (∃ r r', simplify (mkProduct false [mixedSum false false, mixedSum false true]) = .ok r ∧
      simplify (mkProduct false [mixedSum false true, mixedSum false false]) = .ok r' ∧
      (r == r') = false) ∧
    ∃ r r', simplify (mkSum false [mixedProduct false, mixedProduct true]) = .ok r ∧
      simplify (mkSum false [mixedProduct true, mixedProduct false]) = .ok r' ∧
      (r == r') = false := by
  refine ⟨fun t => ?_, ?_, ?_⟩
  · cases t <;> with_unfolding_all exact ⟨rfl, rfl⟩
  · with_unfolding_all exact ⟨_, _, rfl, rfl, rfl⟩
  · with_unfolding_all exact ⟨_, _, rfl, rfl, rfl⟩

end SymScript.Expr
