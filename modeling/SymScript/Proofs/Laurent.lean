import SymScript.Proofs.Normalization
import SymScript.Proofs.Value

/-!
# Simplification keeps the value of a Laurent polynomial

A Laurent polynomial is written with numbers, letters, sums, products and whole powers of letters.
Simplifying it never fails, and keeps its value wherever it is defined: wherever no letter is zero,
and where letters are zero as long as none of these has a negative power.

Equal sums among the factors of a product become powers of a sum, so the expressions met on the way
are a little more general: `Grouped` allows positive powers of normal sums as well.  Such a power is
normal itself, and is never taken apart again.
-/

namespace SymScript.Expr

/-! ### Laurent polynomials -/

mutual

/-- Powers are of letters without a sign, to whole numbers other than zero. -/
def Laurent : Expr → Prop
  | rational _ | symbol .. => True
  | sum _ es | product _ es => LaurentAll es
  | power _ (symbol false _) (rational q) => q.den = 1 ∧ q.num ≠ 0
  | power .. => False

def LaurentAll : List Expr → Prop
  | [] => True
  | e :: es => Laurent e ∧ LaurentAll es

end

mutual

/-- Powers are of letters, to whole numbers other than zero, or positive and of normal sums. -/
def Grouped : Expr → Prop
  | rational _ | symbol .. => True
  | sum _ es | product _ es => GroupedAll es
  | power s b x => ∃ q, x = rational q ∧ q.den = 1 ∧ q.num ≠ 0 ∧ ((∃ c, b = symbol false c) ∨
      (Grouped b ∧ b.shape = .sum ∧ q.negated = false ∧ Normal (power s b x)))

def GroupedAll : List Expr → Prop
  | [] => True
  | e :: es => Grouped e ∧ GroupedAll es

end

/-- A list is grouped if all its members are. -/
theorem groupedAll_iff {es : List Expr} : GroupedAll es ↔ ∀ e ∈ es, Grouped e := by
  induction es with
  | nil => simp [GroupedAll]
  | cons e es ih => simp [GroupedAll, ih]

/-- A sum is grouped if its addends are. -/
theorem grouped_sum_iff {s : Bool} {es : List Expr} :
    Grouped (sum s es) ↔ ∀ e ∈ es, Grouped e := by
  rw [Grouped, groupedAll_iff]

/-- A product is grouped if its factors are. -/
theorem grouped_product_iff {s : Bool} {es : List Expr} :
    Grouped (product s es) ↔ ∀ e ∈ es, Grouped e := by
  rw [Grouped, groupedAll_iff]

mutual

/-- A Laurent polynomial is grouped: its powers are powers of letters. -/
theorem Laurent.grouped : ∀ {e : Expr}, Laurent e → Grouped e
  | rational _, _ => trivial
  | symbol .., _ => trivial
  | sum s es, h | product s es, h => by
    rw [Laurent] at h
    rw [Grouped]
    exact LaurentAll.groupedAll h
  | power s (symbol false c) (rational q), h => ⟨q, rfl, h.1, h.2, .inl ⟨c, rfl⟩⟩

theorem LaurentAll.groupedAll : ∀ {es : List Expr}, LaurentAll es → GroupedAll es
  | [], _ => trivial
  | e :: es, h => by
    rw [LaurentAll] at h
    exact ⟨Laurent.grouped h.1, LaurentAll.groupedAll h.2⟩

end

/-- Signs do not matter to being grouped. -/
theorem Grouped.sign {e : Expr} (h : Grouped e) (s : Bool) : Grouped (e.sign s) := by
  cases e with
  | rational | symbol => trivial
  | sum t es => exact grouped_sum_iff.2 (grouped_sum_iff.1 h)
  | product t es => exact grouped_product_iff.2 (grouped_product_iff.1 h)
  | power t b x =>
    rw [Grouped] at h
    obtain ⟨q, rfl, hd, hq, hb⟩ := h
    rw [Expr.sign, Grouped]
    refine ⟨q, rfl, hd, hq, hb.imp_right ?_⟩
    rintro ⟨hb, hshape, hpos, hn⟩
    exact ⟨hb, hshape, hpos, hn.sign_other rfl s⟩

mutual

/-- A copy of a grouped expression is grouped. -/
theorem Grouped.copy : ∀ {e : Expr}, Grouped e → Grouped (copy e)
  | rational _, _ => trivial
  | symbol .., _ => trivial
  | sum s es, h | product s es, h => by
    rw [Grouped] at h
    rw [Expr.copy, Grouped, groupedAll_iff]
    exact fun e he => groupedAll_iff.1 (GroupedAll.copyAll h) e (mem_sort.1 he)
  | power s b x, h => by
    rw [Grouped] at h
    obtain ⟨q, rfl, hd, hq, hb⟩ := h
    rw [Expr.copy, Expr.copy, Grouped]
    refine ⟨q, rfl, hd, hq, hb.imp ?_ ?_⟩
    · rintro ⟨c, rfl⟩
      exact ⟨c, rfl⟩
    · rintro ⟨hb, hshape, hpos, hn⟩
      rw [(normal_power_iff.1 hn).1.copy_eq]
      exact ⟨hb, hshape, hpos, hn⟩

theorem GroupedAll.copyAll : ∀ {es : List Expr}, GroupedAll es → GroupedAll (copyAll es)
  | [], _ => trivial
  | e :: es, h => by
    rw [GroupedAll] at h
    exact ⟨Grouped.copy h.1, GroupedAll.copyAll h.2⟩

end

/-! ### Predicates that children pass on -/

/-- What holds of all numbers, and of a sum or a product exactly if it holds of its children,
whatever the signs and the order. -/
structure Hereditary (P : Expr → Prop) : Prop where
  number : ∀ q, P (rational q)
  sign : ∀ {e : Expr}, P e → ∀ s, P (e.sign s)
  copy : ∀ {e : Expr}, P e → P (copy e)
  sum_iff : ∀ {s : Bool} {es : List Expr}, P (sum s es) ↔ ∀ e ∈ es, P e
  product_iff : ∀ {s : Bool} {es : List Expr}, P (product s es) ↔ ∀ e ∈ es, P e

/-- Being grouped passes between sums and products and their children. -/
theorem hereditary_grouped : Hereditary Grouped :=
  ⟨fun _ => trivial, Grouped.sign, Grouped.copy, grouped_sum_iff, grouped_product_iff⟩

/-- Having a value passes between sums and products and their children. -/
theorem hereditary_defined {K : Type*} [Field K] (ρ : Char → K) : Hereditary (Defined ρ) :=
  ⟨fun _ => trivial, Defined.sign, Defined.copy, defined_sum_iff, defined_product_iff⟩

namespace Hereditary

variable {P Q : Expr → Prop}

/-- Two hereditary predicates are one. -/
theorem and (hP : Hereditary P) (hQ : Hereditary Q) : Hereditary fun e => P e ∧ Q e where
  number q := ⟨hP.number q, hQ.number q⟩
  sign h s := ⟨hP.sign h.1 s, hQ.sign h.2 s⟩
  copy h := ⟨hP.copy h.1, hQ.copy h.2⟩
  sum_iff := (and_congr hP.sum_iff hQ.sum_iff).trans forall₂_and.symm
  product_iff := (and_congr hP.product_iff hQ.product_iff).trans forall₂_and.symm

variable (hP : Hereditary P)

include hP

/-- A copy with another sign keeps what is hereditary. -/
theorem withSign {e : Expr} (h : P e) (s : Bool) : P (e.withSign s) := hP.sign (hP.copy h) s

/-- Sorted copies keep what is hereditary. -/
theorem sort_copyAll {es : List Expr} (h : ∀ e ∈ es, P e) : ∀ e ∈ sort (copyAll es), P e := by
  have hcopy : ∀ e ∈ copyAll es, P e := by
    induction es with
    | nil => exact nofun
    | cons e es ih =>
      obtain ⟨he, hes⟩ := List.forall_mem_cons.1 h
      exact List.forall_mem_cons.2 ⟨hP.copy he, ih hes⟩
  exact fun e he => hcopy e (mem_sort.1 he)

/-- The sum of a list, or its only member, keeps what is hereditary. -/
theorem joinSum {es : List Expr} (h : ∀ e ∈ es, P e) (s : Bool) : P (joinSum s es) := by
  match es with
  | [] => exact hP.number _
  | [e] => exact hP.withSign (h e (List.mem_singleton_self e)) _
  | _ :: _ :: _ => exact hP.sum_iff.2 (hP.sort_copyAll h)

/-- The product of a list, or its only member, keeps what is hereditary. -/
theorem joinProduct {es : List Expr} (h : ∀ e ∈ es, P e) (s : Bool) : P (joinProduct s es) := by
  match es with
  | [e] => exact hP.withSign (h e (List.mem_singleton_self e)) _
  | [] | _ :: _ :: _ => exact hP.product_iff.2 (hP.sort_copyAll h)

/-- What is hereditary holds of the addends of a nested sum. -/
theorem of_mem_openedSum {e : Expr} (h : P e) : ∀ a ∈ openedSum e, P a := by
  intro a ha
  cases e with
  | sum s es =>
    have hes := hP.sum_iff.1 h
    cases s with
    | false => exact hes a ha
    | true =>
      obtain ⟨b, hb, rfl⟩ := List.mem_map.1 ha
      exact hP.withSign (hes b hb) _
  | _ => cases ha

/-- What is hereditary holds of an addend without its coefficient. -/
theorem term {e : Expr} (hn : Normal e) (hnum : e.isNumber = false) (h : P e) : P e.term.1 :=
  hn.shaped.forall_term hnum (fun s _ h => hP.sign h s) (fun _ _ => hP.product_iff) h

end Hereditary

mutual

/-- In a grouped expression no number is raised to a power. -/
theorem Grouped.algebraic : ∀ {e : Expr}, Grouped e → Algebraic e
  | rational _, _ => trivial
  | symbol .., _ => trivial
  | sum s es, h | product s es, h => by
    rw [Grouped] at h
    rw [Algebraic]
    exact GroupedAll.algebraicAll h
  | power s b x, h => by
    rw [Grouped] at h
    obtain ⟨q, rfl, -, -, ⟨c, rfl⟩ | ⟨-, -, -, hn⟩⟩ := h
    · rw [Algebraic]
      exact ⟨trivial, trivial, fun n q => by cases n <;> nofun⟩
    · exact hn.algebraic

theorem GroupedAll.algebraicAll : ∀ {es : List Expr}, GroupedAll es → AlgebraicAll es
  | [], _ => trivial
  | e :: es, h => by
    rw [GroupedAll] at h
    exact ⟨Grouped.algebraic h.1, GroupedAll.algebraicAll h.2⟩

end

/-! ### Outcomes that keep the value -/

/-- The outcome satisfies `P`, unless the depth did not suffice. -/
def Gives {α : Type} (P : α → Prop) (x : Except AlgebraError α) : Prop :=
  x = .error .endless ∨ ∃ a, x = .ok a ∧ P a

theorem Gives.ok {α : Type} {P : α → Prop} {a : α} (h : P a) : Gives P (.ok a) := .inr ⟨a, rfl, h⟩

/-- Outcomes in a row: each step starts from what the one before gave. -/
theorem Gives.bind {α β : Type} {P : α → Prop} {Q : β → Prop} {x : Except AlgebraError α}
    {f : α → Except AlgebraError β} (h : Gives P x) (hf : ∀ a, P a → Gives Q (f a)) :
    Gives Q (x >>= f) := by
  rcases h with rfl | ⟨a, rfl, ha⟩
  · exact .inl rfl
  · exact hf a ha

/-- What an outcome satisfies may be weakened. -/
theorem Gives.mono {α : Type} {P Q : α → Prop} {x : Except AlgebraError α} (h : Gives P x)
    (hPQ : ∀ a, P a → Q a) : Gives Q x := by
  rcases h with h | ⟨a, h, ha⟩
  · exact .inl h
  · exact .inr ⟨a, h, hPQ a ha⟩

/-- A list of outcomes, member by member. -/
theorem Gives.mapM {α β : Type} {R : α → β → Prop} {f : α → Except AlgebraError β} {as : List α}
    (h : ∀ a ∈ as, Gives (R a) (f a)) : Gives (List.Forall₂ R as) (as.mapM f) := by
  induction as with
  | nil => exact .ok .nil
  | cons a as ih =>
    obtain ⟨ha, has⟩ := List.forall_mem_cons.1 h
    rw [List.mapM_cons]
    exact ha.bind fun b hb => (ih has).bind fun bs hbs => .ok (.cons hb hbs)

variable {K : Type*} [Field K] {ρ : Char → K}

/-- A grouped expression that has a value. -/
def GroupedAt (ρ : Char → K) (e : Expr) : Prop := Grouped e ∧ Defined ρ e

theorem hereditary_groupedAt (ρ : Char → K) : Hereditary (GroupedAt ρ) :=
  hereditary_grouped.and (hereditary_defined ρ)

/-- The second expression is grouped and has the value of the first one. -/
def Keeps (ρ : Char → K) (e r : Expr) : Prop := GroupedAt ρ r ∧ value ρ r = value ρ e

/-! ### Sums -/

/-- The test for a list of numbers gives the numbers. -/
theorem eq_map_of_numbers? {es : List Expr} {q : Fraction} {qs : List Fraction}
    (h : numbers? es = some (q, qs)) : es = (q :: qs).map rational := by
  have ho : others es = [] := by
    by_contra ho
    rw [numbers?_eq_none ho] at h
    cases h
  have hes := eq_map_numbers ho
  cases hq : numbers es with
  | nil =>
    rw [hes, hq] at h
    cases h
  | cons r rs =>
    rw [hes, hq, numbers?_map_rational] at h
    cases h
    rw [← hq]
    exact hes

/-- A number in lowest terms, under another sign, has the value with that sign. -/
theorem value_reduce_withSign (s : Bool) (q : Fraction) :
    value ρ (rational (q.withSign (s != q.negated)).reduce) = signed s (q.toRat : K) := by
  rw [value, Fraction.toRat_reduce, cast_toRat_withSign]
  cases s <;> cases q.negated <;> rfl

/-- An addend has the value of its coefficient times that of the rest. -/
theorem Normal.value_term {e : Expr} (h : Normal e) (hn : e.isNumber = false) :
    value ρ e = e.term.2.toRat * value ρ e.term.1 := by
  obtain ⟨hbare, hscaled⟩ := h.term_spec hn
  conv_lhs => rw [← hscaled]
  exact value_scaled _ hbare.unsigned

/-- Outcomes that have the values that they should, as a list of values. -/
theorem map_value_of_forall₂ {α : Type} {w : α → K} {P : α → Expr → Prop} {as : List α}
    {rs : List Expr} (h : List.Forall₂ (fun a r => P a r ∧ value ρ r = w a) as rs) :
    rs.map (value ρ) = as.map w := by
  induction h with
  | nil => rfl
  | cons har _ ih => rw [List.map_cons, List.map_cons, har.2, ih]

/-- The numbers of a sum, added up, have the value of their sum. -/
theorem valueSum_totalAddend (qs : List Fraction) : valueSum ρ (totalAddend qs) =
    ((qs.foldl (· + ·) (Fraction.ofNat 0)).toRat : K) := by
  simp only [totalAddend]
  generalize qs.foldl (· + ·) (Fraction.ofNat 0) = q
  split
  · rename_i hz
    have hq : q.num = 0 := by simpa [Fraction.isZero] using hz
    simp [valueSum, Fraction.toRat, Fraction.signedNum, hq]
  · simp [valueSum, value]

section Sum

variable {f : Expr → Except AlgebraError Expr} (hf : ∀ e, GroupedAt ρ e → Gives (Keeps ρ e) (f e))

include hf

/-- Putting an addend together again gives the coefficient times the rest. -/
theorem ofTerm_gives {t : Expr × Fraction} (ht : GroupedAt ρ t.1) :
    Gives (fun r => GroupedAt ρ r ∧ value ρ r = t.2.toRat * value ρ t.1) (ofTerm f t) := by
  obtain ⟨e, c⟩ := t
  have hP := hereditary_groupedAt ρ
  rw [ofTerm]
  split
  · rename_i hone
    obtain ⟨hnum, hs⟩ : c.num = c.den ∧ c.negated = false := by simpa [Fraction.isOne] using hone
    have hc : c.toRat = 1 := by simp [Fraction.toRat, Fraction.signedNum, hnum, hs, c.den_cast_ne]
    exact .ok ⟨ht, by simp [hc]⟩
  split
  · rename_i hone hnum
    have hnum : c.num = c.den := by simpa using hnum
    have hs : c.negated = true := by simpa [Fraction.isOne, hnum] using hone
    have hc : c.toRat = -1 := by
      simp [Fraction.toRat, Fraction.signedNum, hnum, hs, c.den_cast_ne]
    exact .ok ⟨hP.withSign ht _, by simp [hc, value_flip]⟩
  · refine (hf _ ?_).mono fun r hr => ⟨hr.1, ?_⟩
    · refine hP.product_iff.2 (hP.sort_copyAll ?_)
      exact List.forall_mem_cons.2 ⟨hP.number _, List.forall_mem_singleton.2 ht⟩
    · rw [hr.2, value_mkProduct, signed_false, valueProduct, valueProduct, valueProduct,
        value, mul_one]

variable [CharZero K] {es : List Expr} (hg : ∀ e ∈ es, GroupedAt ρ e) (hn : ∀ e ∈ es, Normal e)

include hg hn

/-- Collecting the addends of a sum keeps its value. -/
theorem collectSum_gives (s : Bool) : Gives (Keeps ρ (sum s es)) (collectSum f s es) := by
  have hP := hereditary_groupedAt ρ
  have hterms : ∀ t ∈ terms es, GroupedAt ρ t.1 := by
    apply forall_terms
    intro e he hnum _
    exact hP.term (hn e he) hnum (hg e he)
  rw [collectSum_eq_bind]
  refine (Gives.mapM fun t ht => ofTerm_gives hf (hterms t ht)).bind fun ts hts => .ok ⟨?_, ?_⟩
  · refine hP.joinSum (List.forall_mem_append.2 ⟨List.forall_mem_append.2 ⟨?_, ?_⟩, ?_⟩) s
    · intro e he
      obtain ⟨a, ha, he⟩ := List.mem_flatMap.1 he
      exact hP.of_mem_openedSum (hg a ha) e he
    · intro e he
      exact eq_rational_of_mem_totalAddend he ▸ hP.number _
    · exact forall_of_forall₂ hts fun _ _ h => h.1
  · have hgather : valueSum ρ ts = valueSum ρ (properAddends es) := by
      rw [valueSum_eq, map_value_of_forall₂ hts, terms, sum_gatherAll_eq, List.map_map, valueSum_eq]
      · congr 1
        refine List.map_congr_left fun e he => ?_
        obtain ⟨hm, hnum, -⟩ := mem_properAddends.1 he
        exact ((hn e hm).value_term hnum).symm
      · intro k u v
        rw [Fraction.toRat_add, Rat.cast_add, add_mul]
    rw [value_joinSum, valueSum_append, valueSum_append, valueSum_totalAddend,
      cast_foldl_add (ρ := ρ), hgather, value, valueSum_addends es, Fraction.toRat_ofNat,
      Nat.cast_zero, Rat.cast_zero, zero_add]

/-- Finishing a sum keeps its value, whether its addends are all numbers or not. -/
theorem finishSum_gives (s : Bool) : Gives (Keeps ρ (sum s es)) (finishSum f s es) := by
  rw [finishSum]
  split
  · rename_i q qs hq
    rw [eq_map_of_numbers? hq]
    refine .ok ⟨(hereditary_groupedAt ρ).number _, ?_⟩
    rw [value_reduce_withSign, cast_foldl_add, value, List.map_cons, valueSum, value]
  · refine (collectSum_gives hf hg hn s).bind fun r hr => ?_
    split
    · exact .ok hr
    · exact (hf r hr.1).mono fun r' hr' => ⟨hr'.1, hr'.2.trans hr.2⟩

end Sum

/-! ### Exponents -/

/-- A whole number other than zero, as an exponent. -/
def IsWhole (x : Expr) : Prop := ∃ q, x = rational q ∧ q.den = 1 ∧ q.num ≠ 0

/-- A whole number as an exponent is its numerator with its sign. -/
theorem integer_rational {q : Fraction} (h : q.den = 1) : integer (rational q) = q.signedNum := by
  rw [integer, h, Nat.cast_one, Int.ediv_one]

/-- A whole number is simplified already. -/
theorem IsWhole.simplifyWithin_gives {x : Expr} (h : IsWhole x) (n : Nat) :
    Gives (x = ·) (simplifyWithin n x) := by
  obtain ⟨q, rfl, hd, hq⟩ := h
  cases n with
  | zero => exact .inl rfl
  | succ n => exact .ok (congrArg _ (Fraction.reduce_of_whole hd hq).symm)

/-- Whole numbers add up to a whole number. -/
theorem foldl_add_whole {q : Fraction} {qs : List Fraction} (h : ∀ r ∈ q :: qs, r.den = 1) :
    (qs.foldl (· + ·) q).den = 1 ∧
      (qs.foldl (· + ·) q).signedNum = q.signedNum + (qs.map Fraction.signedNum).sum := by
  induction qs generalizing q with
  | nil => exact ⟨h q List.mem_cons_self, by simp⟩
  | cons r qs ih =>
    obtain ⟨hq, hr, hqs⟩ : q.den = 1 ∧ r.den = 1 ∧ ∀ r ∈ qs, r.den = 1 := by simpa using h
    have hsum := Fraction.add_den_of_whole hq hr
    obtain ⟨hd, hs⟩ := ih (q := q + r) (List.forall_mem_cons.2 ⟨hsum, hqs⟩)
    refine ⟨hd, ?_⟩
    rw [List.foldl_cons, hs, Fraction.signedNum_add_of_whole hq hr, List.map_cons, List.sum_cons,
      add_assoc]

/-- A sum of whole numbers simplifies to a whole number. -/
theorem simplifyWithin_whole {xs : List Expr} (hne : xs ≠ []) (h : ∀ x ∈ xs, IsWhole x) (n : Nat) :
    Gives (fun r => ∃ q, r = rational q ∧ q.den = 1 ∧ q.signedNum = (xs.map integer).sum)
      (simplifyWithin n (sum false xs)) := by
  cases n with
  | zero => exact .inl rfl
  | succ n =>
    refine (Gives.mapM fun x hx => (h x hx).simplifyWithin_gives n).bind fun rs hrs => ?_
    obtain rfl : xs = rs := List.forall₂_eq_eq_eq ▸ hrs
    obtain ⟨q, qs, rfl⟩ : ∃ q qs, xs = (q :: qs).map rational := by
      have ho : others xs = [] := by
        refine List.eq_nil_iff_forall_not_mem.2 fun x hx => ?_
        obtain ⟨hm, hn⟩ := mem_others.1 hx
        obtain ⟨q, rfl, -⟩ := h x hm
        cases hn
      have hxs := eq_map_numbers ho
      cases hq : numbers xs with
      | nil =>
        rw [hq] at hxs
        exact absurd hxs hne
      | cons q qs => exact ⟨q, qs, hq ▸ hxs⟩
    rw [finishSum, numbers?_map_rational]
    have hden : ∀ r ∈ q :: qs, r.den = 1 := by
      intro r hr
      obtain ⟨q', hq', hd, -⟩ := h _ (List.mem_map_of_mem hr)
      cases hq'
      exact hd
    obtain ⟨hd, hs⟩ := foldl_add_whole hden
    refine .ok ⟨_, rfl, Fraction.reduce_den_of_whole hd, ?_⟩
    rw [Bool.false_bne, Fraction.withSign_self, Fraction.signedNum_reduce_of_whole hd, hs,
      List.map_map]
    have hint : (q :: qs).map (integer ∘ rational) = (q :: qs).map Fraction.signedNum :=
      List.map_congr_left fun r hr => integer_rational (hden r hr)
    rw [hint, List.map_cons, List.sum_cons]

/-! ### Products -/

/-- A base with exponents, as the factors of a grouped product are collected into. -/
structure GroupedBase (ρ : Char → K) (b : Expr) (xs : List Expr) : Prop where
  isBase : IsBase b
  grouped : GroupedAt ρ b
  shape : (∃ c, b = symbol false c) ∨ (b.shape = .sum ∧ ∀ x ∈ xs, 0 ≤ integer x)
  defined : value ρ b ≠ 0 ∨ ∀ x ∈ xs, 0 ≤ integer x
  nonempty : xs ≠ []
  whole : ∀ x ∈ xs, IsWhole x

/-- Exponents of one base may be listed one after the other. -/
theorem GroupedBase.append {b : Expr} {xs ys : List Expr} (hx : GroupedBase ρ b xs)
    (hy : GroupedBase ρ b ys) : GroupedBase ρ b (xs ++ ys) where
  isBase := hx.isBase
  grouped := hx.grouped
  shape := by
    rcases hx.shape with hc | ⟨hs, hxs⟩
    · exact .inl hc
    · rcases hy.shape with hc | ⟨-, hys⟩
      · exact .inl hc
      · exact .inr ⟨hs, List.forall_mem_append.2 ⟨hxs, hys⟩⟩
  defined := by
    rcases hx.defined with h | hxs
    · exact .inl h
    · rcases hy.defined with h | hys
      · exact .inl h
      · exact .inr (List.forall_mem_append.2 ⟨hxs, hys⟩)
  nonempty := List.append_ne_nil_of_left_ne_nil hx.nonempty ys
  whole := List.forall_mem_append.2 ⟨hx.whole, hy.whole⟩

/-- A factor gives its base and its exponent. -/
theorem GroupedAt.groupedBase {e : Expr} (hg : GroupedAt ρ e) (hn : Normal e)
    (hnum : e.isNumber = false) (hp : e.shape ≠ .product) (hs : e.negated = false) :
    GroupedBase ρ e.base [e.exponent] := by
  have hbase := hn.isBase_base hnum hs
  have hone : IsWhole (.ofNat 1) := ⟨.ofNat 1, rfl, rfl, Nat.one_ne_zero⟩
  have hpos : ∀ x ∈ [Expr.ofNat 1], 0 ≤ integer x := List.forall_mem_singleton.2 (by decide)
  cases e with
  | rational => cases hnum
  | product => exact absurd rfl hp
  | symbol s c =>
    obtain rfl : s = false := hs
    exact ⟨hbase, hg, .inl ⟨c, rfl⟩, .inr hpos, by simp, List.forall_mem_singleton.2 hone⟩
  | sum s es =>
    exact ⟨hbase, hg, .inr ⟨rfl, hpos⟩, .inr hpos, by simp, List.forall_mem_singleton.2 hone⟩
  | power s b x =>
    obtain ⟨hgrouped, hdefined⟩ := hg
    rw [Grouped] at hgrouped
    rw [Defined] at hdefined
    obtain ⟨q, rfl, hd, hq, hb⟩ := hgrouped
    refine ⟨hbase, ⟨?_, hdefined.1⟩, ?_, hdefined.2.imp_right List.forall_mem_singleton.2, by simp,
      List.forall_mem_singleton.2 ⟨q, rfl, hd, hq⟩⟩
    · rcases hb with ⟨c, rfl⟩ | ⟨hb, -⟩
      · trivial
      · exact hb
    · refine hb.imp_right ?_
      rintro ⟨-, hshape, hpos, -⟩
      refine ⟨hshape, List.forall_mem_singleton.2 ?_⟩
      change 0 ≤ integer (rational q)
      rw [integer_rational hd, Fraction.signedNum, hpos]
      simp

/-- The exponents of one base are added up. -/
theorem joinExponents_gives {xs : List Expr} (hne : xs ≠ []) (h : ∀ x ∈ xs, IsWhole x) (n : Nat) :
    Gives (fun r => ∃ q, r = rational q ∧ q.den = 1 ∧ q.signedNum = (xs.map integer).sum)
      (joinExponents (simplifyWithin n) xs) := by
  unfold joinExponents
  split
  · rename_i x
    obtain ⟨q, rfl, hd, -⟩ := h x (List.mem_singleton_self x)
    refine .ok ⟨q, rfl, hd, ?_⟩
    rw [List.map_singleton, List.sum_singleton, integer_rational hd]
  · have hcopy : ∀ x ∈ xs, copy x = x := by
      intro x hx
      obtain ⟨q, rfl, -⟩ := h x hx
      rfl
    have hsum : ((sort xs).map integer).sum = (xs.map integer).sum :=
      ((sort_perm xs).map integer).sum_eq
    rw [mkSum_eq hcopy, ← hsum]
    refine simplifyWithin_whole ?_ (fun x hx => h x (mem_sort.1 hx)) n
    intro hnil
    exact hne (List.length_eq_zero_iff.1 (by rw [← length_sort, hnil, List.length_nil]))

/-- A base with the exponent that its factors add up to is grouped again. -/
theorem raised_grouped {b : Expr} {q : Fraction} (hb : IsBase b) (hg : GroupedAt ρ b)
    (hd : q.den = 1) (hshape : (∃ c, b = symbol false c) ∨ (b.shape = .sum ∧ 0 ≤ q.signedNum))
    (hdef : value ρ b ≠ 0 ∨ 0 ≤ q.signedNum) :
    GroupedAt ρ (raised b (rational q)) ∧ (raised b (rational q)).negated = false := by
  simp only [raised]
  split
  · exact ⟨(hereditary_groupedAt ρ).number _, rfl⟩
  rename_i hz
  split
  · exact ⟨hg, hb.unsigned⟩
  rename_i ho
  have hq : q.num ≠ 0 := by simpa [Fraction.isZero] using hz
  have hx : Normal (rational q) := Fraction.reduce_of_whole hd hq
  rw [mkPower_eq hb.normal.copy_eq rfl]
  refine ⟨⟨?_, ?_⟩, rfl⟩
  · rw [Grouped]
    refine ⟨q, rfl, hd, hq, hshape.imp_right ?_⟩
    rintro ⟨hs, hpos⟩
    refine ⟨hg.1, hs, ?_,
      normal_power_iff.2 ⟨hb.normal, hx, hb.noNumber, hb.noPower, hb.unsigned, ?_⟩⟩
    · by_contra hneg
      rw [Fraction.signedNum, if_pos (eq_true_of_ne_false hneg)] at hpos
      omega
    · rintro r ⟨⟩
      exact ⟨eq_false_of_ne_true hz, eq_false_of_ne_true ho⟩
  · rw [Defined, integer_rational hd]
    exact ⟨hg.2, hdef⟩

/-- The value of a base under an exponent, where an exponent of zero or one is worked out. -/
theorem value_raised (b : Expr) {q : Fraction} (hd : q.den = 1) :
    value ρ (raised b (rational q)) = value ρ b ^ q.signedNum := by
  simp only [raised]
  split
  · rename_i hz
    have hq : q.num = 0 := by simpa [Fraction.isZero] using hz
    simp [Fraction.signedNum, hq]
  split
  · rename_i ho
    obtain ⟨hq, hs⟩ : q.num = q.den ∧ q.negated = false := by simpa [Fraction.isOne] using ho
    simp [Fraction.signedNum, hq, hs, hd]
  · rw [value_mkPower, integer_rational hd, signed_false]

/-- Powers of one base multiply by adding the exponents, if it is not zero or no exponent is
negative. -/
theorem prod_zpow {a : K} {zs : List ℤ} (h : a ≠ 0 ∨ ∀ z ∈ zs, 0 ≤ z) :
    (zs.map (a ^ ·)).prod = a ^ zs.sum := by
  induction zs with
  | nil => simp
  | cons z zs ih =>
    rw [List.map_cons, List.prod_cons, List.sum_cons]
    rcases h with h | h
    · rw [ih (.inl h), zpow_add₀ h]
    · obtain ⟨hz, hzs⟩ := List.forall_mem_cons.1 h
      rw [ih (.inr hzs), zpow_add' ?_]
      have := List.sum_nonneg hzs
      omega

/-- A base with its exponents gives the product of the powers. -/
theorem ofBase_gives {b : Expr} {xs : List Expr} (h : GroupedBase ρ b xs) (n : Nat) :
    Gives (fun r => (GroupedAt ρ r ∧ r.negated = false) ∧
      value ρ r = (xs.map fun x => value ρ b ^ integer x).prod)
      (ofBase (simplifyWithin n) (b, xs)) := by
  have hsum (hpos : ∀ x ∈ xs, 0 ≤ integer x) : 0 ≤ (xs.map integer).sum :=
    List.sum_nonneg (List.forall_mem_map.2 hpos)
  rw [ofBase_eq]
  refine (joinExponents_gives h.nonempty h.whole n).bind ?_
  rintro _ ⟨q, rfl, hd, hs⟩
  refine .ok ⟨raised_grouped h.isBase h.grouped hd (h.shape.imp_right ?_)
    (h.defined.imp_right fun hpos => hs ▸ hsum hpos), ?_⟩
  · rintro ⟨hshape, hpos⟩
    exact ⟨hshape, hs ▸ hsum hpos⟩
  · rw [value_raised b hd, hs, ← prod_zpow, List.map_map]
    · rfl
    · exact h.defined.imp_right List.forall_mem_map.2

/-- Numbers without signs multiply to a number without a sign. -/
theorem foldl_mul_unsigned {q : Fraction} {qs : List Fraction} (hq : q.negated = false)
    (h : ∀ r ∈ qs, r.negated = false) : (qs.foldl (· * ·) q).negated = false := by
  induction qs generalizing q with
  | nil => exact hq
  | cons r qs ih =>
    obtain ⟨hr, hqs⟩ := List.forall_mem_cons.1 h
    exact ih (by simp [hq, hr]) hqs

/-- The numbers of a product, multiplied, have the value of their product. -/
theorem valueProduct_coefficientFactor {qs : List Fraction} (hs : ∀ q ∈ qs, q.negated = false) :
    valueProduct ρ (coefficientFactor qs) =
      ((qs.foldl (· * ·) (Fraction.ofNat 1)).toRat : K) := by
  have hunsigned := foldl_mul_unsigned (q := .ofNat 1) rfl hs
  simp only [coefficientFactor]
  generalize qs.foldl (· * ·) (Fraction.ofNat 1) = c at hunsigned ⊢
  split
  · rename_i ho
    have hq : c.num = c.den := by simpa [Fraction.isOne, hunsigned] using ho
    simp [valueProduct, Fraction.toRat, Fraction.signedNum, hq, hunsigned, c.den_cast_ne]
  · simp [valueProduct, value]

section Product

variable [CharZero K] {es : List Expr} (hg : ∀ e ∈ es, GroupedAt ρ e) (hn : ∀ e ∈ es, Normal e)

include hg hn

/-- Collecting the factors of a product keeps its value. -/
theorem collectProduct_gives (hs : ∀ e ∈ es, e.negated = false) (n : Nat) (s : Bool) :
    Gives (Keeps ρ (product s es)) (collectProduct (simplifyWithin n) s es) := by
  have hP := hereditary_groupedAt ρ
  have hbases : ∀ b ∈ bases es, GroupedBase ρ b.1 b.2 := by
    apply forall_bases (P := GroupedBase ρ) (fun _ _ _ => .append)
    intro e he hnum hp
    exact (hg e he).groupedBase (hn e he) hnum hp (hs e he)
  rw [collectProduct_eq_bind]
  refine (Gives.mapM fun b hb => ofBase_gives (hbases b hb) n).bind fun bs hbs => ?_
  have hnumbers : ∀ q ∈ numbers es, q.negated = false := fun q hq => hs _ (mem_numbers.1 hq)
  have hfactors : ∀ e ∈ coefficientFactor (numbers es) ++ (es.flatMap openedProduct ++ bs),
      GroupedAt ρ e ∧ e.negated = false := by
    intro e he
    rcases List.mem_append.1 he with he | he
    · obtain rfl := eq_rational_of_mem_coefficientFactor he
      exact ⟨hP.number _, foldl_mul_unsigned rfl hnumbers⟩
    rcases List.mem_append.1 he with he | he
    · obtain ⟨a, ha, he⟩ := List.mem_flatMap.1 he
      cases a with
      | product t as =>
        exact ⟨hP.product_iff.1 (hg _ ha) e he,
          (normal_product_iff.1 (hn _ ha)).2.2.2.unsigned e he⟩
      | _ => cases he
    · exact forall_of_forall₂ hbs (fun _ _ h => h.1) e he
  have hgather : valueProduct ρ bs = valueProduct ρ (properFactors es) := by
    rw [valueProduct_eq, map_value_of_forall₂ hbs, bases, prod_gatherAll, List.map_map,
      valueProduct_eq]
    · congr 1
      refine List.map_congr_left fun e he => ?_
      rw [value_base (hs e (mem_properFactors.1 he).1)]
      exact List.prod_singleton
    · intro k u v
      simp only [List.map_append, List.prod_append]
  have hvalue : valueProduct ρ es =
      valueProduct ρ (coefficientFactor (numbers es) ++ (es.flatMap openedProduct ++ bs)) := by
    rw [valueProduct_append, valueProduct_append, valueProduct_coefficientFactor hnumbers, hgather,
      valueProduct_factors hs, cast_foldl_mul (ρ := ρ)]
    simp only [Fraction.toRat_ofNat, Nat.cast_one, Rat.cast_one, one_mul]
    ring
  simp only
  split
  · rename_i hempty
    refine .ok ⟨hP.number _, ?_⟩
    rw [value, value, hvalue, List.isEmpty_iff.1 hempty, List.append_nil,
      valueProduct_coefficientFactor hnumbers, cast_toRat_withSign, foldl_mul_unsigned rfl hnumbers,
      Bool.bne_false]
  split
  · rename_i hz
    refine .ok ⟨hP.number _, ?_⟩
    rw [value, hvalue, valueProduct_append, valueProduct_coefficientFactor hnumbers]
    have hq : ((numbers es).foldl (· * ·) (Fraction.ofNat 1)).num = 0 := by
      simpa [Fraction.isZero] using hz
    simp [Fraction.toRat, Fraction.signedNum, hq]
  · refine .ok ⟨hP.joinProduct (fun e he => (hfactors e he).1) s, ?_⟩
    rw [value_joinProduct s fun e he => (hfactors e he).2, value, hvalue]

/-- Finishing a product keeps its value: the signs of the factors go to the product first. -/
theorem finishProduct_gives (n : Nat)
    (ih : ∀ e, GroupedAt ρ e → Gives (Keeps ρ e) (simplifyWithin n e)) (s : Bool) :
    Gives (Keeps ρ (product s es)) (finishProduct (simplifyWithin n) s es) := by
  rw [finishProduct]
  split
  · rename_i q qs hq
    rw [eq_map_of_numbers? hq]
    refine .ok ⟨(hereditary_groupedAt ρ).number _, ?_⟩
    rw [value_reduce_withSign, cast_foldl_mul, value, List.map_cons, valueProduct, value]
  · have hu := unsigned_eq fun e he => (hn e he).copy_eq
    have hkeep : value ρ (product (productSign s es) (unsigned es)) = value ρ (product s es) :=
      signed_productSign s es
    have hgrouped : ∀ e ∈ unsigned es, GroupedAt ρ e := by
      rw [hu]
      exact List.forall_mem_map.2 fun e he => (hereditary_groupedAt ρ).sign (hg e he) false
    have hnormal : ∀ e ∈ unsigned es, Normal e := by
      rw [hu]
      exact List.forall_mem_map.2 fun e he => (hn e he).sign_false
    have hsign : ∀ e ∈ unsigned es, e.negated = false := by
      rw [hu]
      exact List.forall_mem_map.2 fun e _ => sign_negated false e
    refine (collectProduct_gives hgrouped hnormal hsign n (productSign s es)).bind fun r hr => ?_
    rw [Keeps, hkeep] at hr
    split
    · exact .ok hr
    · exact (ih r hr.1).mono fun r' hr' => ⟨hr'.1, hr'.2.trans hr.2⟩

end Product

/-! ### The theorem -/

/-- A whole power of a letter is normal, unless it is the first power. -/
theorem normal_letter_power (s : Bool) (c : Char) {q : Fraction} (hd : q.den = 1) (hq : q.num ≠ 0)
    (hone : q ≠ .ofNat 1) : Normal (power s (symbol false c) (rational q)) := by
  refine normal_power_iff.2 ⟨trivial, Fraction.reduce_of_whole hd hq, rfl, nofun, rfl, ?_⟩
  rintro r ⟨⟩
  refine ⟨by simpa [Fraction.isZero] using hq, ?_⟩
  by_contra ho
  obtain ⟨hn, hs⟩ : q.num = q.den ∧ q.negated = false := by simpa [Fraction.isOne] using ho
  exact hone (Fraction.ext hs (hn.trans hd) hd)

/-- The first power of a letter is the letter. -/
theorem simplifyWithin_first_power (n : Nat) (s : Bool) (c : Char) :
    Gives (· = symbol s c) (simplifyWithin n (power s (symbol false c) (.ofNat 1))) := by
  match n with
  | 0 => exact .inl rfl
  | 1 => exact .inl rfl
  | n + 2 => cases s <;> exact .ok rfl

/-- Simplifying keeps the value of a grouped expression that has one, by induction on the depth of
the calls. -/
theorem GroupedAt.simplifyWithin_gives [CharZero K] (n : Nat) {e : Expr} (h : GroupedAt ρ e) :
    Gives (Keeps ρ e) (simplifyWithin n e) := by
  have hP := hereditary_groupedAt ρ
  induction n generalizing e with
  | zero => exact .inl rfl
  | succ n ih =>
    have hchildren {es : List Expr} (hes : ∀ e ∈ es, GroupedAt ρ e) :
        Gives (List.Forall₂ (fun e r => (GroupedAt ρ r ∧ Normal r) ∧ value ρ r = value ρ e) es)
          (es.mapM (simplifyWithin n)) := by
      refine Gives.mapM fun e he => ?_
      rcases ih (hes e he) with hend | ⟨r, hr, hk⟩
      · exact .inl hend
      · exact .inr ⟨r, hr, ⟨hk.1, (hes e he).1.algebraic.normal_of_simplifyWithin hr⟩, hk.2⟩
    cases e with
    | rational q => exact .ok ⟨hP.number _, by rw [value, Fraction.toRat_reduce, value]⟩
    | symbol s c => exact .ok ⟨h, rfl⟩
    | sum s es =>
      refine (hchildren (hP.sum_iff.1 h)).bind fun rs hrs => ?_
      have hrs' := forall_of_forall₂ hrs fun _ _ h => h.1
      have hval : value ρ (sum s rs) = value ρ (sum s es) := by
        rw [value, valueSum_eq, map_value_of_forall₂ hrs, ← valueSum_eq, value]
      refine (finishSum_gives (fun e he => ih he) (fun r hr => (hrs' r hr).1)
        (fun r hr => (hrs' r hr).2) s).mono fun r hr => ⟨hr.1, hr.2.trans hval⟩
    | product s es =>
      refine (hchildren (hP.product_iff.1 h)).bind fun rs hrs => ?_
      have hrs' := forall_of_forall₂ hrs fun _ _ h => h.1
      have hval : value ρ (product s rs) = value ρ (product s es) := by
        rw [value, valueProduct_eq, map_value_of_forall₂ hrs, ← valueProduct_eq, value]
      refine (finishProduct_gives (fun r hr => (hrs' r hr).1) (fun r hr => (hrs' r hr).2) n
        (fun e he => ih he) s).mono fun r hr => ⟨hr.1, hr.2.trans hval⟩
    | power s b x =>
      obtain ⟨hgrouped, -⟩ := id h
      rw [Grouped] at hgrouped
      obtain ⟨q, rfl, hd, hq, hb⟩ := hgrouped
      have hnormal (hn : Normal (power s b (rational q))) :
          Gives (Keeps ρ (power s b (rational q)))
          (simplifyWithin (n + 1) (power s b (rational q))) :=
        (hn.simplifyWithin_cases (n + 1)).imp_right fun hok => ⟨_, hok, h, rfl⟩
      rcases hb with ⟨c, rfl⟩ | ⟨-, -, -, hn⟩
      · by_cases hone : q = .ofNat 1
        · subst hone
          refine (simplifyWithin_first_power (n + 1) s c).mono ?_
          rintro _ rfl
          have hint : integer (rational (Fraction.ofNat 1)) = 1 := rfl
          exact ⟨⟨trivial, trivial⟩, by simp [value, hint]⟩
        · exact hnormal (normal_letter_power s c hd hq hone)
      · exact hnormal hn

mutual

/-- Where no letter is zero, a grouped expression has a value. -/
theorem Grouped.defined (hρ : ∀ c, ρ c ≠ 0) : ∀ {e : Expr}, Grouped e → Defined ρ e
  | rational _, _ => trivial
  | symbol .., _ => trivial
  | sum s es, h | product s es, h => by
    rw [Grouped] at h
    rw [Defined]
    exact GroupedAll.definedAll hρ h
  | power s b x, h => by
    rw [Grouped] at h
    obtain ⟨q, rfl, hd, -, ⟨c, rfl⟩ | ⟨hb, -, hpos, -⟩⟩ := h
    · exact ⟨trivial, .inl (hρ c)⟩
    · refine ⟨Grouped.defined hρ hb, .inr ?_⟩
      rw [integer_rational hd, Fraction.signedNum, hpos]
      simp

theorem GroupedAll.definedAll (hρ : ∀ c, ρ c ≠ 0) :
    ∀ {es : List Expr}, GroupedAll es → DefinedAll ρ es
  | [], _ => trivial
  | e :: es, h => by
    rw [GroupedAll] at h
    exact ⟨Grouped.defined hρ h.1, GroupedAll.definedAll hρ h.2⟩

end

/-- Where no letter is zero, every grouped expression has a value, and simplifying keeps it. -/
theorem Grouped.simplifyWithin_gives [CharZero K] (hρ : ∀ c, ρ c ≠ 0) (n : Nat) {e : Expr}
    (h : Grouped e) : Gives (fun r => Grouped r ∧ value ρ r = value ρ e) (simplifyWithin n e) :=
  (GroupedAt.simplifyWithin_gives n ⟨h, h.defined hρ⟩).mono fun _ hr => ⟨hr.1.1, hr.2⟩

/-- Simplifying a grouped expression gives a normal one, which has the same value wherever the first
one has a value. -/
theorem Grouped.simplify_defined {e : Expr} (h : Grouped e) : ∃ r, simplify e = .ok r ∧ Normal r ∧
    Grouped r ∧ ∀ ρ : Char → ℚ, Defined ρ e → Defined ρ r ∧ value ρ r = value ρ e := by
  have hends := h.algebraic.simplify_settles.ends
  have hone := h.simplifyWithin_gives (ρ := fun _ => (1 : ℚ)) (fun _ => one_ne_zero) e.simplifyBound
  obtain ⟨r, hr, hg, -⟩ := hone.resolve_left hends
  refine ⟨r, hr, h.algebraic.normal_of_simplifyWithin hr, hg, fun ρ hρ => ?_⟩
  obtain ⟨r', hr', hg', hv⟩ :=
    (GroupedAt.simplifyWithin_gives e.simplifyBound ⟨h, hρ⟩).resolve_left hends
  obtain rfl : r = r' := Except.ok.inj (hr.symm.trans hr')
  exact ⟨hg'.2, hv⟩

/-- Simplifying a Laurent polynomial gives an expression of the same value wherever no letter is
zero; its powers have whole exponents too.  This is about expressions, and so about terms without
shared nodes, which are simplified as their expressions are (`TermGraph.Edit.simplify_unshared`). -/
theorem Laurent.simplify_value {e : Expr} (h : Laurent e) : ∃ r, simplify e = .ok r ∧ Grouped r ∧
    ∀ ρ : Char → ℚ, (∀ c, ρ c ≠ 0) → value ρ r = value ρ e := by
  have hends := h.grouped.algebraic.simplify_settles.ends
  have hone := h.grouped.simplifyWithin_gives (ρ := fun _ => (1 : ℚ)) (fun _ => one_ne_zero)
    e.simplifyBound
  obtain ⟨r, hr, hg, -⟩ := hone.resolve_left hends
  refine ⟨r, hr, hg, fun ρ hρ => ?_⟩
  obtain ⟨r', hr', -, hv⟩ := (h.grouped.simplifyWithin_gives hρ e.simplifyBound).resolve_left hends
  rw [hr] at hr'
  cases hr'
  exact hv

/-- Two equal sums, a negative power and a negated product, where every letter is two. -/
theorem simplify_value_mixed :
    let square := product true [sum false [symbol false 'x', symbol true 'y'],
      sum false [symbol false 'x', symbol true 'y'],
      power false (symbol false 'x') (rational { negated := true, num := 3, den := 1 })]
    Laurent square ∧ ∃ r, simplify square = .ok r ∧
      value (fun _ => (2 : ℚ)) r = value (fun _ => (2 : ℚ)) square := by
  intro square
  have h : Laurent square := by simp [square, Laurent, LaurentAll]
  obtain ⟨r, hr, -, hv⟩ := Laurent.simplify_value h
  exact ⟨h, r, hr, hv _ fun _ => two_ne_zero⟩

end SymScript.Expr
