import SymScript.Proofs.Termination

/-!
# Simplification ends in a normal form

A result of an expression whose powers have no numbers for bases is a normal form.  The induction is
on the depth of the calls.  What a round leaves unchanged has normal children and is tidy, as any
result is, so it is normal; what a round changes has no numbers for bases either.
-/

namespace SymScript.Expr

/-! ### Expressions without number bases -/

mutual

/-- No base of a power simplifies to a number. -/
def Algebraic : Expr → Prop
  | rational _ | symbol .. => True
  | sum _ es | product _ es => AlgebraicAll es
  | power _ b x => Algebraic b ∧ Algebraic x ∧ ∀ n q, simplifyWithin n b ≠ .ok (rational q)

def AlgebraicAll : List Expr → Prop
  | [] => True
  | e :: es => Algebraic e ∧ AlgebraicAll es

end

theorem algebraicAll_iff {es : List Expr} : AlgebraicAll es ↔ ∀ e ∈ es, Algebraic e := by
  induction es with
  | nil => simp [AlgebraicAll]
  | cons e es ih => simp [AlgebraicAll, ih]

theorem algebraic_sum_iff {s : Bool} {es : List Expr} :
    Algebraic (sum s es) ↔ ∀ e ∈ es, Algebraic e := by
  rw [Algebraic, algebraicAll_iff]

theorem algebraic_product_iff {s : Bool} {es : List Expr} :
    Algebraic (product s es) ↔ ∀ e ∈ es, Algebraic e := by
  rw [Algebraic, algebraicAll_iff]

/-- A normal expression is left as it is, or the depth does not suffice. -/
theorem Normal.simplifyWithin_cases {e : Expr} (h : Normal e) (n : Nat) :
    simplifyWithin n e = .error .endless ∨ simplifyWithin n e = .ok e := by
  have hfix := h.stable.simplifyWithin_eq (Nat.lt_succ_self (mass e))
  by_cases hn : simplifyWithin n e = .error .endless
  · exact .inl hn
  · rw [simplifyWithin_eq_of_ne hn (m := mass e + 1) (by rw [hfix]; nofun)]
    exact .inr hfix

/-- Simplifying leaves a normal form as it is. -/
theorem Normal.eq_of_simplifyWithin {e r : Expr} (h : Normal e) {n : Nat}
    (hr : simplifyWithin n e = .ok r) : r = e := by
  rcases h.simplifyWithin_cases n with hn | hn <;> rw [hr] at hn <;> cases hn
  rfl

mutual

/-- Normal forms have no numbers as bases. -/
theorem Normal.algebraic : ∀ {e : Expr}, Normal e → Algebraic e
  | rational _, _ => trivial
  | symbol .., _ => trivial
  | sum s es, h | product s es, h => by
    rw [Normal] at h
    rw [Algebraic]
    exact NormalAll.algebraicAll h.1
  | power s b x, h => by
    rw [Normal] at h
    rw [Algebraic]
    refine ⟨Normal.algebraic h.1, Normal.algebraic h.2.1, fun n q hq => ?_⟩
    have := h.2.2.noNumber
    rw [← h.1.eq_of_simplifyWithin hq] at this
    cases this

theorem NormalAll.algebraicAll : ∀ {es : List Expr}, NormalAll es → AlgebraicAll es
  | [], _ => trivial
  | e :: es, h => by
    rw [NormalAll] at h
    rw [AlgebraicAll]
    exact ⟨Normal.algebraic h.1, NormalAll.algebraicAll h.2⟩

end

/-- A power of a normal form that is no number has no number as a base. -/
theorem algebraic_power {b x : Expr} (hb : Normal b) (hnum : b.isNumber = false) (hx : Algebraic x)
    (s : Bool) : Algebraic (power s b x) := by
  rw [Algebraic]
  refine ⟨hb.algebraic, hx, fun n q hq => ?_⟩
  rw [← hb.eq_of_simplifyWithin hq] at hnum
  cases hnum

/-! ### Children -/

/-- A child is normal, or a number that need not be in lowest terms. -/
def Child (e : Expr) : Prop := Normal e ∨ e.isNumber = true

theorem Child.algebraic {e : Expr} (h : Child e) : Algebraic e := by
  rcases h with h | h
  · exact h.algebraic
  · obtain ⟨q, rfl⟩ := isNumber_iff.1 h
    trivial

theorem Child.copy_eq {e : Expr} (h : Child e) : copy e = e := by
  rcases h with h | h
  · exact h.copy_eq
  · obtain ⟨q, rfl⟩ := isNumber_iff.1 h
    rfl

/-- A child under any sign is a child. -/
theorem Child.sign {e : Expr} (h : Child e) (s : Bool) : Child (e.sign s) := by
  cases hn : e.isNumber with
  | true => exact .inr (by rw [sign_isNumber, hn])
  | false => exact .inl ((h.resolve_right (by simp [hn])).sign_other hn s)

theorem Child.algebraic_withSign {e : Expr} (h : Child e) (s : Bool) :
    Algebraic (e.withSign s) := by
  rw [withSign, h.copy_eq]
  exact (h.sign s).algebraic

section Join

variable {es : List Expr} (h : ∀ e ∈ es, Child e) (s : Bool)

include h

/-- A sum of expressions without number bases has none. -/
theorem algebraic_mkSum : Algebraic (mkSum s es) := by
  rw [mkSum_eq fun e he => (h e he).copy_eq]
  exact algebraic_sum_iff.2 fun e he => (h e (mem_sort.1 he)).algebraic

/-- A product of expressions without number bases has none. -/
theorem algebraic_mkProduct : Algebraic (mkProduct s es) := by
  rw [mkProduct_eq fun e he => (h e he).copy_eq]
  exact algebraic_product_iff.2 fun e he => (h e (mem_sort.1 he)).algebraic

/-- Joined addends have no number bases. -/
theorem algebraic_joinSum : Algebraic (joinSum s es) := by
  match es with
  | [] => trivial
  | [e] => exact (h e (List.mem_singleton_self e)).algebraic_withSign _
  | _ :: _ :: _ => exact algebraic_mkSum h s

/-- Joined factors have no number bases. -/
theorem algebraic_joinProduct : Algebraic (joinProduct s es) := by
  match es with
  | [e] => exact (h e (List.mem_singleton_self e)).algebraic_withSign _
  | [] | _ :: _ :: _ => exact algebraic_mkProduct h s

end Join

/-- What is claimed of the results within the depth `n`. -/
def NormalizesWithin (n : Nat) : Prop :=
  ∀ {e r : Expr}, Algebraic e → simplifyWithin n e = .ok r → Normal r

/-! ### Sums -/

/-- Opening a sum gives children. -/
theorem Normal.of_mem_openedSum {e : Expr} (h : Normal e) : ∀ a ∈ openedSum e, Child a := by
  intro a ha
  cases e with
  | sum s es =>
    obtain ⟨hes, -, -, -⟩ := normal_sum_iff.1 h
    cases s with
    | false => exact .inl (hes a ha)
    | true =>
      obtain ⟨b, hb, rfl⟩ := List.mem_map.1 ha
      rw [(hes b hb).flip_eq]
      exact Child.sign (.inl (hes b hb)) _
  | _ => cases ha

/-- A bare expression with its coefficient is a child. -/
theorem Bare.child_ofTerm {n : Nat} (ih : NormalizesWithin n) {t : Expr × Fraction} (ht : Bare t.1)
    {r : Expr} (hr : ofTerm (simplifyWithin n) t = .ok r) : Child r := by
  rw [ofTerm] at hr
  split at hr
  · cases hr
    exact .inl ht.normal
  split at hr
  · cases hr
    rw [ht.normal.flip_eq]
    exact .inl (ht.normal.sign_other ht.noNumber _)
  · refine .inl (ih (algebraic_mkProduct ?_ false) hr)
    exact List.forall_mem_cons.2 ⟨.inr rfl, List.forall_mem_singleton.2 (.inl ht.normal)⟩

section Sum

variable {es : List Expr} (h : ∀ e ∈ es, Normal e) {s : Bool} {r : Expr}

include h

/-- Collecting addends brings no number base. -/
theorem algebraic_of_collectSum {n : Nat} (ih : NormalizesWithin n)
    (hr : collectSum (simplifyWithin n) s es = .ok r) : Algebraic r := by
  have hterms : ∀ t ∈ terms es, Bare t.1 := by
    apply forall_terms
    intro e he hn _
    exact ((h e he).term_spec hn).1
  rw [collectSum_eq_bind] at hr
  obtain ⟨ts, hts, hr⟩ := bind_eq_ok hr
  cases hr
  refine algebraic_joinSum (List.forall_mem_append.2 ⟨List.forall_mem_append.2 ⟨?_, ?_⟩, ?_⟩) s
  · intro e he
    obtain ⟨a, ha, he⟩ := List.mem_flatMap.1 he
    exact (h a ha).of_mem_openedSum e he
  · intro e he
    exact .inr (eq_rational_of_mem_totalAddend he ▸ rfl)
  · intro e he
    obtain ⟨t, ht, hte⟩ := exists_of_forall₂ (mapM_eq_ok_iff.1 hts).flip he
    exact (hterms t ht).child_ofTerm ih hte

/-- A tidy result of a sum of normal forms is in normal form. -/
theorem normal_of_finishSum {n : Nat} (ih : NormalizesWithin n)
    (hr : finishSum (simplifyWithin n) s es = .ok r) (htidy : Tidy r) : Normal r := by
  rw [finishSum] at hr
  split at hr
  · cases hr
    exact Fraction.reduce_reduce _
  · obtain ⟨c, hc, hr⟩ := bind_eq_ok hr
    split at hr
    · rename_i heq
      obtain rfl : c = sum s es := by simpa using heq
      cases hr
      exact normal_sum_iff.2 ⟨h, (shaped_sum_iff.1 htidy).2⟩
    · exact ih (algebraic_of_collectSum h ih hc) hr

end Sum

/-! ### Products -/

/-- A base as factors are collected by. -/
structure IsBase (b : Expr) : Prop where
  normal : Normal b
  noNumber : b.isNumber = false
  noPower : b.shape ≠ .power
  unsigned : b.negated = false

/-- The base of a normal factor may stand below an exponent. -/
theorem Normal.isBase_base {e : Expr} (h : Normal e) (hn : e.isNumber = false)
    (hs : e.negated = false) : IsBase e.base := by
  cases e with
  | power s b x =>
    obtain ⟨hb, -, hf⟩ := normal_power_iff.1 h
    exact ⟨hb, hf.noNumber, hf.noPower, hf.unsigned⟩
  | _ => exact ⟨h, hn, nofun, hs⟩

/-- The exponent of a normal factor is in normal form. -/
theorem Normal.normal_exponent {e : Expr} (h : Normal e) : Normal e.exponent := by
  cases e with
  | power s b x => exact (normal_power_iff.1 h).2.1
  | _ => rfl

/-- A base raised to a normal exponent is in normal form. -/
theorem IsBase.normal_raised {b x : Expr} (hb : IsBase b) (hx : Normal x) :
    Normal (raised b x) := by
  have hpower (h : ∀ q, x = rational q → q.isZero = false ∧ q.isOne = false) :
      Normal (mkPower false b x) := by
    rw [mkPower_eq hb.normal.copy_eq hx.copy_eq]
    exact normal_power_iff.2 ⟨hb.normal, hx, hb.noNumber, hb.noPower, hb.unsigned, h⟩
  cases x with
  | rational q =>
    simp only [raised]
    split
    · rfl
    split
    · exact hb.normal
    · refine hpower fun r hr => ?_
      cases hr
      simp_all
  | _ =>
    refine hpower ?_
    rintro q ⟨⟩

/-- A base raised to the sum of its exponents is in normal form. -/
theorem IsBase.normal_ofBase {n : Nat} (ih : NormalizesWithin n) {b : Expr} {xs : List Expr}
    (hb : IsBase b) (hxs : ∀ x ∈ xs, Normal x) {r : Expr}
    (hr : ofBase (simplifyWithin n) (b, xs) = .ok r) : Normal r := by
  rw [ofBase_eq] at hr
  obtain ⟨x, hx, hr⟩ := bind_eq_ok hr
  cases hr
  refine hb.normal_raised ?_
  unfold joinExponents at hx
  split at hx
  · cases hx
    exact hxs x (List.mem_singleton_self x)
  · exact ih (algebraic_mkSum (fun x hx => .inl (hxs x hx)) false) hx

/-- Opening a product gives normal factors. -/
theorem Normal.of_mem_openedProduct {e : Expr} (h : Normal e) :
    ∀ a ∈ openedProduct e, Normal a := by
  cases e with
  | product s es => exact (normal_product_iff.1 h).1
  | _ => exact nofun

section Product

variable {es : List Expr} (h : ∀ e ∈ es, Normal e) {s : Bool} {r : Expr}

include h

/-- Collecting factors brings no number base. -/
theorem algebraic_of_collectProduct {n : Nat} (ih : NormalizesWithin n)
    (hs : ∀ e ∈ es, e.negated = false) (hr : collectProduct (simplifyWithin n) s es = .ok r) :
    Algebraic r := by
  have hbases : ∀ b ∈ bases es, IsBase b.1 ∧ ∀ x ∈ b.2, Normal x := by
    apply forall_bases (P := fun b xs => IsBase b ∧ ∀ x ∈ xs, Normal x)
    · rintro b xs ys ⟨hb, hxs⟩ ⟨-, hys⟩
      exact ⟨hb, List.forall_mem_append.2 ⟨hxs, hys⟩⟩
    · intro e he hn _
      exact ⟨(h e he).isBase_base hn (hs e he),
        List.forall_mem_singleton.2 (h e he).normal_exponent⟩
  rw [collectProduct_eq_bind] at hr
  obtain ⟨bs, hbs, hr⟩ := bind_eq_ok hr
  simp only at hr
  split at hr
  · cases hr
    trivial
  split at hr
  · cases hr
    trivial
  · cases hr
    refine algebraic_joinProduct
      (List.forall_mem_append.2 ⟨?_, List.forall_mem_append.2 ⟨?_, ?_⟩⟩) s
    · intro e he
      exact .inr (eq_rational_of_mem_coefficientFactor he ▸ rfl)
    · intro e he
      obtain ⟨a, ha, he⟩ := List.mem_flatMap.1 he
      exact .inl ((h a ha).of_mem_openedProduct e he)
    · intro e he
      obtain ⟨b, hb, hbe⟩ := exists_of_forall₂ (mapM_eq_ok_iff.1 hbs).flip he
      exact .inl ((hbases b hb).1.normal_ofBase ih (hbases b hb).2 hbe)

/-- A tidy result of a product of normal forms is in normal form. -/
theorem normal_of_finishProduct {n : Nat} (ih : NormalizesWithin n)
    (hr : finishProduct (simplifyWithin n) s es = .ok r) (htidy : Tidy r) : Normal r := by
  have hunsigned : ∀ e ∈ unsigned es, Normal e := by
    rw [unsigned_eq fun e he => (h e he).copy_eq]
    exact List.forall_mem_map.2 fun e he => (h e he).sign_false
  rw [finishProduct] at hr
  split at hr
  · cases hr
    exact Fraction.reduce_reduce _
  · obtain ⟨c, hc, hr⟩ := bind_eq_ok hr
    split at hr
    · rename_i heq
      obtain rfl : c = product s (unsigned es) := by simpa using heq
      cases hr
      exact normal_product_iff.2 ⟨hunsigned, (shaped_product_iff.1 htidy).2⟩
    · exact ih (algebraic_of_collectProduct hunsigned ih negated_of_mem_unsigned hc) hr

end Product

/-! ### Powers -/

section Power

variable {b x : Expr} (hb : Normal b) (hx : Normal x) (hnum : b.isNumber = false)
  {s : Bool} {r : Expr}

include hb hx hnum

/-- Rewriting a power brings no number base. -/
theorem algebraic_of_rewritePower {n : Nat} (ih : NormalizesWithin n)
    (hr : rewritePower (simplifyWithin n) s b x = .ok r) : Algebraic r := by
  have hone : ∀ {r}, signedOne s = .ok r → Algebraic r := by
    intro r hr
    cases s <;> cases hr
    trivial
  rw [rewritePower] at hr
  obtain ⟨q, rfl, -⟩ | hrule | hrule | ⟨t, b', x', rfl, hrule⟩ | ⟨-, -, -, hrule⟩ :=
    powerRule_cases b x
  · cases hnum
  · rw [hrule] at hr
    exact hone hr
  · rw [hrule] at hr
    cases hr
    exact Child.algebraic_withSign (.inl hb) _
  · obtain ⟨hb', hx', hf⟩ := normal_power_iff.1 hb
    have hxs : ∀ e ∈ [x', x], Child e :=
      List.forall_mem_cons.2 ⟨.inl hx', List.forall_mem_singleton.2 (.inl hx)⟩
    have hcopy : copy (mkProduct false [x', x]) = mkProduct false [x', x] := by
      rw [mkProduct_eq fun e he => (hxs e he).copy_eq, copy,
        copyAll_eq fun e he => (hxs e (mem_sort.1 he)).copy_eq, (ordered_sort _).sort_eq]
    rw [hrule] at hr
    refine (ih ?_ hr).algebraic
    rw [mkPower_eq hb'.copy_eq hcopy]
    exact algebraic_power hb' hf.noNumber (algebraic_mkProduct hxs false) s
  · rw [hrule] at hr
    split at hr <;> rename_i heq <;> split at heq <;> cases heq <;> cases hr
    · have hb' := hb.sign_other hnum false
      rw [hb.withSign_eq, mkPower_eq hb'.copy_eq hx.copy_eq]
      exact algebraic_power hb' ((sign_isNumber false b).trans hnum) hx.algebraic _
    · rw [mkPower_eq hb.copy_eq hx.copy_eq]
      exact algebraic_power hb hnum hx.algebraic _

/-- A tidy result of a power of normal forms is in normal form. -/
theorem normal_of_finishPower {n : Nat} (ih : NormalizesWithin n)
    (hr : finishPower (simplifyWithin n) s b x = .ok r) (htidy : Tidy r) : Normal r := by
  rw [finishPower, exactPower?_of_other hnum] at hr
  obtain ⟨q, hq, hr⟩ := bind_eq_ok hr
  cases hq
  obtain ⟨c, hc, hr⟩ := bind_eq_ok hr
  split at hr
  · rename_i hcond
    obtain rfl : c = power s b x := by
      simpa using (Bool.and_eq_true_iff.1 hcond).2
    cases hr
    obtain ⟨-, -, hf⟩ := shaped_power_iff.1 htidy
    exact normal_power_iff.2 ⟨hb, hx, hnum, hf.noPower, hf.unsigned, hf.noUnit⟩
  · exact ih (algebraic_of_rewritePower hb hx hnum ih hc) hr

end Power

/-! ### The theorem -/

/-- Simplifying gives normal forms, by induction on the depth. -/
theorem normalizesWithin (n : Nat) : NormalizesWithin n := by
  induction n with
  | zero => exact fun _ => nofun
  | succ n ih =>
    intro e r ha hr
    have htidy := tidy_of_simplifyWithin hr
    have hchildren {es rs : List Expr} (hes : ∀ e ∈ es, Algebraic e)
        (hrs : es.mapM (simplifyWithin n) = .ok rs) : ∀ r ∈ rs, Normal r := by
      intro r hr
      obtain ⟨e, he, her⟩ := exists_of_forall₂ (mapM_eq_ok_iff.1 hrs).flip hr
      exact ih (hes e he) her
    cases e with
    | rational q =>
      cases hr
      exact Fraction.reduce_reduce q
    | symbol s c =>
      cases hr
      trivial
    | sum s es =>
      obtain ⟨rs, hrs, hr⟩ := bind_eq_ok hr
      exact normal_of_finishSum (hchildren (algebraic_sum_iff.1 ha) hrs) ih hr htidy
    | product s es =>
      obtain ⟨rs, hrs, hr⟩ := bind_eq_ok hr
      exact normal_of_finishProduct (hchildren (algebraic_product_iff.1 ha) hrs) ih hr htidy
    | power s b x =>
      rw [Algebraic] at ha
      obtain ⟨hb, hx, hnum⟩ := ha
      obtain ⟨b', hb', hr⟩ := bind_eq_ok hr
      obtain ⟨x', hx', hr⟩ := bind_eq_ok hr
      have hnum' : b'.isNumber = false := by
        by_contra hne
        obtain ⟨q, rfl⟩ := isNumber_iff.1 (eq_true_of_ne_false hne)
        exact hnum n q hb'
      exact normal_of_finishPower (ih hb hb') (ih hx hx') hnum' ih hr htidy

/-- Any result of an algebraic expression is normal, whatever the depth was. -/
theorem Algebraic.normal_of_simplifyWithin {e r : Expr} (h : Algebraic e) {n : Nat}
    (hr : simplifyWithin n e = .ok r) : Normal r :=
  normalizesWithin n h hr

/-- Simplifying an algebraic expression never runs out of depth, and a result is normal. -/
theorem Algebraic.simplify_settles {e : Expr} (h : Algebraic e) : Ends Normal (simplify e) :=
  ⟨(simplify_lightens e).ends, fun _ => h.normal_of_simplifyWithin⟩

end SymScript.Expr
