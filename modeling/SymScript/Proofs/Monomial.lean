import SymScript.Proofs.Laurent

/-!
# Monomials

A monomial is a number, a letter, a positive whole power of a letter, or a product of monomials.
Simplifying a monomial gives a monomial.  Simplifying a sum of monomials, also a nested one, gives a
monomial or a sum of monomials that is not nested and keeps its sign.
-/

namespace SymScript.Expr

mutual

/-- Numbers, letters, positive whole powers of letters, and products of monomials. -/
def Monomial : Expr → Prop
  | rational _ | symbol .. => True
  | product _ es => MonomialAll es
  | power _ (symbol false _) (rational q) => q.den = 1 ∧ q.negated = false ∧ q.num ≠ 0
  | power .. | sum .. => False

def MonomialAll : List Expr → Prop
  | [] => True
  | e :: es => Monomial e ∧ MonomialAll es

end

mutual

/-- Monomials, and sums of monomials nested to any depth. -/
def MonomialSum : Expr → Prop
  | sum _ es => MonomialSumAll es
  | e => Monomial e

def MonomialSumAll : List Expr → Prop
  | [] => True
  | e :: es => MonomialSum e ∧ MonomialSumAll es

end

theorem monomialAll_iff {es : List Expr} : MonomialAll es ↔ ∀ e ∈ es, Monomial e := by
  induction es with
  | nil => simp [MonomialAll]
  | cons e es ih => simp [MonomialAll, ih]

theorem monomialSumAll_iff {es : List Expr} : MonomialSumAll es ↔ ∀ e ∈ es, MonomialSum e := by
  induction es with
  | nil => simp [MonomialSumAll]
  | cons e es ih => simp [MonomialSumAll, ih]

theorem monomial_product_iff {s : Bool} {es : List Expr} :
    Monomial (product s es) ↔ ∀ e ∈ es, Monomial e := by
  rw [Monomial, monomialAll_iff]

theorem monomialSum_sum_iff {s : Bool} {es : List Expr} :
    MonomialSum (sum s es) ↔ ∀ e ∈ es, MonomialSum e := by
  rw [MonomialSum, monomialSumAll_iff]

/-- A power is a monomial if it is a letter to a positive whole number. -/
theorem monomial_power_iff {s : Bool} {b x : Expr} : Monomial (power s b x) ↔
    ∃ c q, b = symbol false c ∧ x = rational q ∧ q.den = 1 ∧ q.negated = false ∧ q.num ≠ 0 := by
  constructor
  · intro h
    match b, x with
    | symbol false c, rational q => exact ⟨c, q, rfl, rfl, h⟩
  · rintro ⟨c, q, rfl, rfl, h⟩
    exact h

/-- A monomial is a sum of one. -/
theorem Monomial.monomialSum {e : Expr} (h : Monomial e) : MonomialSum e := by
  cases e with
  | sum => cases h
  | _ => exact h

mutual

theorem Monomial.laurent : ∀ {e : Expr}, Monomial e → Laurent e
  | rational _, _ => trivial
  | symbol .., _ => trivial
  | product _ es, h => by
    rw [Monomial] at h
    rw [Laurent]
    exact MonomialAll.laurentAll h
  | power s b x, h => by
    obtain ⟨c, q, rfl, rfl, hd, -, hq⟩ := monomial_power_iff.1 h
    exact ⟨hd, hq⟩

theorem MonomialAll.laurentAll : ∀ {es : List Expr}, MonomialAll es → LaurentAll es
  | [], _ => trivial
  | e :: es, h => by
    rw [MonomialAll] at h
    exact ⟨Monomial.laurent h.1, MonomialAll.laurentAll h.2⟩

end

mutual

theorem MonomialSum.laurent : ∀ {e : Expr}, MonomialSum e → Laurent e
  | sum _ es, h => by
    rw [MonomialSum] at h
    rw [Laurent]
    exact MonomialSumAll.laurentAll h
  | rational _, _ => trivial
  | symbol .., _ => trivial
  | product .., h => Monomial.laurent h
  | power .., h => Monomial.laurent h

theorem MonomialSumAll.laurentAll : ∀ {es : List Expr}, MonomialSumAll es → LaurentAll es
  | [], _ => trivial
  | e :: es, h => by
    rw [MonomialSumAll] at h
    exact ⟨MonomialSum.laurent h.1, MonomialSumAll.laurentAll h.2⟩

end

/-- A monomial under any sign is one. -/
theorem Monomial.sign {e : Expr} (h : Monomial e) (s : Bool) : Monomial (e.sign s) := by
  cases e with
  | rational | symbol => trivial
  | sum => cases h
  | product t es => exact monomial_product_iff.2 (monomial_product_iff.1 h)
  | power t b x => exact monomial_power_iff.2 (monomial_power_iff.1 h)

mutual

theorem Monomial.copy : ∀ {e : Expr}, Monomial e → Monomial (copy e)
  | rational _, _ => trivial
  | symbol .., _ => trivial
  | product s es, h => by
    rw [Monomial] at h
    rw [Expr.copy, monomial_product_iff]
    intro e he
    exact monomialAll_iff.1 (MonomialAll.copyAll h) e (mem_sort.1 he)
  | power s b x, h => by
    obtain ⟨c, q, rfl, rfl, hq⟩ := monomial_power_iff.1 h
    exact hq

theorem MonomialAll.copyAll : ∀ {es : List Expr}, MonomialAll es → MonomialAll (copyAll es)
  | [], _ => trivial
  | e :: es, h => by
    rw [MonomialAll] at h
    exact ⟨Monomial.copy h.1, MonomialAll.copyAll h.2⟩

end

/-- A copy of a monomial under any sign is a monomial. -/
theorem Monomial.withSign {e : Expr} (h : Monomial e) (s : Bool) : Monomial (e.withSign s) :=
  h.copy.sign s

/-- Sorted copies of monomials are monomials. -/
theorem monomial_sort_copyAll {es : List Expr} (h : ∀ e ∈ es, Monomial e) :
    ∀ e ∈ sort (copyAll es), Monomial e := by
  intro e he
  exact monomialAll_iff.1 (monomialAll_iff.2 h).copyAll e (mem_sort.1 he)

/-- Joined monomials are a monomial. -/
theorem monomial_joinProduct {es : List Expr} (h : ∀ e ∈ es, Monomial e) (s : Bool) :
    Monomial (joinProduct s es) := by
  match es with
  | [e] => exact (h e (List.mem_singleton_self e)).withSign _
  | [] | _ :: _ :: _ => exact monomial_product_iff.2 (monomial_sort_copyAll h)

/-- A monomial without its coefficient is a monomial. -/
theorem Normal.monomial_term {e : Expr} (h : Normal e) (hn : e.isNumber = false)
    (hm : Monomial e) : Monomial e.term.1 :=
  h.shaped.forall_term hn (fun s _ h => h.sign s) (fun _ _ => monomial_product_iff) hm

/-! ### Products of monomials -/

/-- A positive whole number, as an exponent. -/
def IsPositive (x : Expr) : Prop := ∃ q, x = rational q ∧ q.den = 1 ∧ q.negated = false ∧ q.num ≠ 0

theorem IsPositive.isWhole {x : Expr} (h : IsPositive x) : IsWhole x := by
  obtain ⟨q, rfl, hd, -, hq⟩ := h
  exact ⟨q, rfl, hd, hq⟩

/-- A positive exponent is a positive integer. -/
theorem IsPositive.integer_pos {x : Expr} (h : IsPositive x) : 0 < integer x := by
  obtain ⟨q, rfl, hd, hs, hq⟩ := h
  rw [integer_rational hd, Fraction.signedNum, hs]
  simpa using Nat.pos_of_ne_zero hq

/-- A letter with exponents, as the factors of a monomial are collected into. -/
structure LetterBase (b : Expr) (xs : List Expr) : Prop where
  letter : ∃ c, b = symbol false c
  nonempty : xs ≠ []
  positive : ∀ x ∈ xs, IsPositive x

/-- Exponents of one letter may be joined. -/
theorem LetterBase.append {b : Expr} {xs ys : List Expr} (hx : LetterBase b xs)
    (hy : LetterBase b ys) : LetterBase b (xs ++ ys) where
  letter := hx.letter
  nonempty := List.append_ne_nil_of_left_ne_nil hx.nonempty ys
  positive := List.forall_mem_append.2 ⟨hx.positive, hy.positive⟩

/-- A monomial that is one factor is a letter with an exponent. -/
theorem Monomial.letterBase {e : Expr} (h : Monomial e) (hn : e.isNumber = false)
    (hp : e.shape ≠ .product) (hs : e.negated = false) : LetterBase e.base [e.exponent] := by
  have hone : IsPositive (.ofNat 1) := ⟨.ofNat 1, rfl, rfl, rfl, Nat.one_ne_zero⟩
  cases e with
  | rational => cases hn
  | product => exact absurd rfl hp
  | sum => cases h
  | symbol s c =>
    obtain rfl : s = false := hs
    exact ⟨⟨c, rfl⟩, by simp, List.forall_mem_singleton.2 hone⟩
  | power s b x =>
    obtain ⟨c, q, rfl, rfl, hq⟩ := monomial_power_iff.1 h
    exact ⟨⟨c, rfl⟩, by simp, List.forall_mem_singleton.2 ⟨q, rfl, hq⟩⟩

/-- A letter raised to the sum of positive exponents is a monomial. -/
theorem ofBase_monomial {b : Expr} {xs : List Expr} (h : LetterBase b xs) (n : Nat) :
    Gives Monomial (ofBase (simplifyWithin n) (b, xs)) := by
  rw [ofBase_eq]
  refine (joinExponents_gives h.nonempty (fun x hx => (h.positive x hx).isWhole) n).bind ?_
  rintro _ ⟨q, rfl, hd, hs⟩
  refine .ok ?_
  obtain ⟨c, rfl⟩ := h.letter
  simp only [raised]
  split
  · trivial
  rename_i hz
  split
  · trivial
  have hpos : 0 ≤ q.signedNum := by
    rw [hs]
    refine List.sum_nonneg (List.forall_mem_map.2 fun x hx => ?_)
    exact (h.positive x hx).integer_pos.le
  have hq : q.num ≠ 0 := by simpa [Fraction.isZero] using hz
  refine monomial_power_iff.2 ⟨c, q, rfl, rfl, hd, ?_, hq⟩
  by_contra hneg
  rw [Fraction.signedNum, if_pos (eq_true_of_ne_false hneg)] at hpos
  omega

section Product

variable {es : List Expr} (hm : ∀ e ∈ es, Monomial e)

include hm

/-- Collecting the factors of monomials gives a monomial. -/
theorem collectProduct_monomial (hs : ∀ e ∈ es, e.negated = false) (n : Nat) (s : Bool) :
    Gives Monomial (collectProduct (simplifyWithin n) s es) := by
  have hbases : ∀ b ∈ bases es, LetterBase b.1 b.2 := by
    apply forall_bases (P := LetterBase) (fun _ _ _ => .append)
    intro e he hnum hp
    exact (hm e he).letterBase hnum hp (hs e he)
  rw [collectProduct_eq_bind]
  refine (Gives.mapM fun b hb => ofBase_monomial (hbases b hb) n).bind fun bs hbs => ?_
  have hopened : ∀ e ∈ es.flatMap openedProduct, Monomial e := by
    intro e he
    obtain ⟨a, ha, he⟩ := List.mem_flatMap.1 he
    cases a with
    | product t as => exact monomial_product_iff.1 (hm _ ha) e he
    | _ => cases he
  simp only
  split
  · exact .ok trivial
  split
  · exact .ok trivial
  · refine .ok (monomial_joinProduct ?_ s)
    intro e he
    rcases List.mem_append.1 he with he | he
    · exact eq_rational_of_mem_coefficientFactor he ▸ trivial
    rcases List.mem_append.1 he with he | he
    · exact hopened e he
    · exact forall_of_forall₂ hbs (fun _ _ h => h) e he

/-- A product of monomials simplifies to a monomial. -/
theorem finishProduct_monomial (hn : ∀ e ∈ es, Normal e) (n : Nat)
    (ih : ∀ e, Monomial e → Gives Monomial (simplifyWithin n e)) (s : Bool) :
    Gives Monomial (finishProduct (simplifyWithin n) s es) := by
  rw [finishProduct]
  split
  · exact .ok trivial
  have hunsigned : ∀ e ∈ unsigned es, Monomial e ∧ e.negated = false := by
    rw [unsigned_eq fun e he => (hn e he).copy_eq]
    exact List.forall_mem_map.2 fun e he => ⟨(hm e he).sign false, sign_negated false e⟩
  refine (collectProduct_monomial (fun e he => (hunsigned e he).1) (fun e he => (hunsigned e he).2)
    n (productSign s es)).bind fun r hr => ?_
  split
  · exact .ok hr
  · exact ih r hr

end Product

/-- A monomial simplifies to a monomial. -/
theorem Monomial.simplifyWithin_gives (n : Nat) {e : Expr} (h : Monomial e) :
    Gives Monomial (simplifyWithin n e) := by
  induction n generalizing e with
  | zero => exact .inl rfl
  | succ n ih =>
    cases e with
    | rational | symbol => exact .ok trivial
    | sum => cases h
    | product s es =>
      have hes := monomial_product_iff.1 h
      have hchildren : Gives (List.Forall₂ (fun _ r => Monomial r ∧ Normal r) es)
          (es.mapM (simplifyWithin n)) := by
        refine Gives.mapM fun e he => ?_
        rcases ih (hes e he) with hend | ⟨r, hr, hm⟩
        · exact .inl hend
        · exact .inr ⟨r, hr, hm, (hes e he).laurent.grouped.algebraic.normal_of_simplifyWithin hr⟩
      refine hchildren.bind fun rs hrs => ?_
      have hrs := forall_of_forall₂ hrs fun _ _ h => h
      exact finishProduct_monomial (fun r hr => (hrs r hr).1) (fun r hr => (hrs r hr).2) n
        (fun e he => ih he) s
    | power s b x =>
      obtain ⟨c, q, rfl, rfl, hd, hs, hq⟩ := monomial_power_iff.1 h
      by_cases hone : q = .ofNat 1
      · subst hone
        exact (simplifyWithin_first_power (n + 1) s c).mono fun r hr => hr ▸ trivial
      · have hn := normal_letter_power s c hd hq hone
        exact (hn.simplifyWithin_cases (n + 1)).imp_right fun hok => ⟨_, hok, h⟩

/-! ### Sums of monomials -/

/-- A monomial, or a sum of monomials with the given sign. -/
def Flat (s : Bool) (r : Expr) : Prop := Monomial r ∨ ∃ es, r = sum s es ∧ ∀ e ∈ es, Monomial e

/-- Joined monomials are a flat sum. -/
theorem flat_joinSum {es : List Expr} (h : ∀ e ∈ es, Monomial e) (s : Bool) :
    Flat s (joinSum s es) := by
  match es with
  | [] => exact .inl trivial
  | [e] => exact .inl ((h e (List.mem_singleton_self e)).withSign _)
  | _ :: _ :: _ => exact .inr ⟨_, rfl, monomial_sort_copyAll h⟩

/-- A monomial with its coefficient is a monomial. -/
theorem ofTerm_monomial (n : Nat) {t : Expr × Fraction} (ht : Monomial t.1) :
    Gives Monomial (ofTerm (simplifyWithin n) t) := by
  rw [ofTerm]
  split
  · exact .ok ht
  split
  · exact .ok (ht.withSign _)
  · apply Monomial.simplifyWithin_gives
    refine monomial_product_iff.2 (monomial_sort_copyAll ?_)
    exact List.forall_mem_cons.2 ⟨trivial, List.forall_mem_singleton.2 ht⟩

/-- Collecting the addends of flat sums gives a flat sum. -/
theorem collectSum_flat {es : List Expr} (hf : ∀ e ∈ es, ∃ t, Flat t e) (hn : ∀ e ∈ es, Normal e)
    (n : Nat) (s : Bool) : Gives (Flat s) (collectSum (simplifyWithin n) s es) := by
  have hterms : ∀ t ∈ terms es, Monomial t.1 := by
    apply forall_terms
    intro e he hnum hsum
    obtain ⟨t, hm | ⟨as, rfl, -⟩⟩ := hf e he
    · exact (hn e he).monomial_term hnum hm
    · exact absurd rfl hsum
  rw [collectSum_eq_bind]
  refine (Gives.mapM fun t ht => ofTerm_monomial n (hterms t ht)).bind fun ts hts => .ok ?_
  refine flat_joinSum (List.forall_mem_append.2 ⟨List.forall_mem_append.2 ⟨?_, ?_⟩, ?_⟩) s
  · intro e he
    obtain ⟨a, ha, he⟩ := List.mem_flatMap.1 he
    obtain ⟨t, hm | ⟨as, rfl, has⟩⟩ := hf a ha
    · cases a with
      | sum => cases hm
      | _ => cases he
    · cases t with
      | false => exact has e he
      | true =>
        obtain ⟨b, hb, rfl⟩ := List.mem_map.1 he
        exact (has b hb).withSign _
  · intro e he
    exact eq_rational_of_mem_totalAddend he ▸ trivial
  · exact forall_of_forall₂ hts fun _ _ h => h

/-- A sum of monomials simplifies to a monomial or to a sum of monomials, with the same sign. -/
theorem simplifyWithin_flat (n : Nat) {s : Bool} {es : List Expr} (h : ∀ e ∈ es, MonomialSum e) :
    Gives (Flat s) (simplifyWithin n (sum s es)) := by
  induction n generalizing s es with
  | zero => exact .inl rfl
  | succ n ih =>
    have hchildren : Gives (List.Forall₂ (fun _ r => (∃ t, Flat t r) ∧ Normal r) es)
        (es.mapM (simplifyWithin n)) := by
      refine Gives.mapM fun e he => ?_
      have hflat : Gives (fun r => ∃ t, Flat t r) (simplifyWithin n e) := by
        have hs := h e he
        cases e with
        | sum t as => exact (ih (monomialSum_sum_iff.1 hs)).mono fun r hr => ⟨t, hr⟩
        | _ => exact (Monomial.simplifyWithin_gives n hs).mono fun r hr => ⟨false, .inl hr⟩
      rcases hflat with hend | ⟨r, hr, hf⟩
      · exact .inl hend
      · exact .inr ⟨r, hr, hf, (h e he).laurent.grouped.algebraic.normal_of_simplifyWithin hr⟩
    refine hchildren.bind fun rs hrs => ?_
    have hrs := forall_of_forall₂ hrs fun _ _ h => h
    rw [finishSum]
    split
    · exact .ok (.inl trivial)
    refine (collectSum_flat (fun r hr => (hrs r hr).1) (fun r hr => (hrs r hr).2) n s).bind
      fun r hr => ?_
    split
    · exact .ok hr
    rcases hr with hm | ⟨as, rfl, has⟩
    · exact (hm.simplifyWithin_gives n).mono fun r hr => .inl hr
    · exact ih fun e he => (has e he).monomialSum

end SymScript.Expr
