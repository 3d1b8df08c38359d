import SymScript.Proofs.FixedPoint

/-!
# What collecting does to the mass

Addends and factors weigh as much as what is sorted out of them, and a little more for every nested
sum or product.  Adding up numbers, the coefficients of equal terms and the exponents of equal bases
saves mass.  So a list of addends or factors is heavier than what it is collected into, unless there
is nothing to collect.
-/

namespace SymScript.Expr

/-- Bounds on the members bound the list. -/
theorem massAll_le_sum_of_forall₂ {α : Type} {w : α → Nat} {as : List α} {rs : List Expr}
    (h : List.Forall₂ (fun a r => mass r ≤ w a) as rs) : massAll rs ≤ (as.map w).sum := by
  rw [massAll_eq_sum]
  exact List.Forall₂.sum_le_sum (List.forall₂_map_left_iff.2 (List.forall₂_map_right_iff.2 h.flip))

@[simp] theorem mass_mkSum (s : Bool) (es : List Expr) : mass (mkSum s es) = massAll es + 2 := by
  rw [mkSum, mass, massAll_sort, massAll_copyAll]

@[simp] theorem mass_mkProduct (s : Bool) (es : List Expr) :
    mass (mkProduct s es) = massAll es + 1 := by
  rw [mkProduct, mass, massAll_sort, massAll_copyAll]

@[simp] theorem mass_mkPower (s : Bool) (b x : Expr) :
    mass (mkPower s b x) = mass b + mass x + 2 := by
  rw [mkPower, mass, mass_copy, mass_copy]

theorem massAll_unsigned (es : List Expr) : massAll (unsigned es) = massAll es :=
  massAll_map (mass_withSign false) es

/-! ### Sums -/

/-- Joining addends loses mass unless it makes a sum. -/
theorem joinSum_cases (s : Bool) (es : List Expr) :
    mass (joinSum s es) < massAll es + 2 ∨ (2 ≤ es.length ∧ joinSum s es = mkSum s es) := by
  match es with
  | [] => exact .inl (Nat.lt_succ_self 1)
  | [e] =>
    refine .inl ?_
    rw [joinSum, mass_withSign, massAll_cons]
    omega
  | _ :: _ :: _ => exact .inr ⟨by simp, rfl⟩

/-- Opening a sum loses nothing but the sum. -/
theorem massAll_openedSum (s : Bool) (es : List Expr) :
    massAll (openedSum (sum s es)) = massAll es := by
  cases s with
  | false => rfl
  | true => exact massAll_map (fun e => mass_withSign _ e) es

/-- Addends weigh as much as what is sorted out of them, and a nested sum two more. -/
theorem massAll_addends (es : List Expr) :
    massAll es = massAll (es.flatMap openedSum) + 2 * es.countP (fun e => e.shape == .sum) +
      (numbers es).length + massAll (properAddends es) := by
  induction es with
  | nil => rfl
  | cons e es ih =>
    rw [massAll_cons, ih, List.flatMap_cons, massAll_append]
    cases e with
    | rational q =>
      change _ = massAll [] + _ + 2 * List.countP _ (_ :: es) + ((numbers es).length + 1) +
        massAll (properAddends es)
      rw [List.countP_cons_of_neg Bool.false_ne_true, massAll_nil, mass]
      omega
    | sum s as =>
      change _ = _ + 2 * List.countP _ (_ :: es) + (numbers es).length + massAll (properAddends es)
      rw [List.countP_cons_of_pos rfl, massAll_openedSum, mass]
      omega
    | _ =>
      change _ = massAll [] + _ + 2 * List.countP _ (_ :: es) + (numbers es).length +
        (_ + massAll (properAddends es))
      rw [List.countP_cons_of_neg Bool.false_ne_true, massAll_nil]
      omega

/-- Adding numbers up loses mass, unless there is at most one and it is not zero. -/
theorem massAll_totalAddend (qs : List Fraction) : massAll (totalAddend qs) ≤ qs.length ∧
    (massAll (totalAddend qs) = qs.length → qs.length ≤ 1 ∧ ∀ q ∈ qs, q.isZero = false) := by
  have hle : massAll (totalAddend qs) ≤ 1 := by
    simp only [totalAddend]
    split <;> simp [mass]
  rcases qs with _ | ⟨q, _ | ⟨r, qs⟩⟩
  · exact ⟨Nat.le_refl _, fun _ => ⟨Nat.zero_le _, List.forall_mem_nil _⟩⟩
  · refine ⟨hle, fun heq => ⟨Nat.le_refl _, List.forall_mem_singleton.2 ?_⟩⟩
    by_contra hq
    have hq : q.num = 0 := by simpa [Fraction.isZero] using hq
    have hz : (Fraction.ofNat 0 + q).isZero = true := by
      have hs : (Fraction.ofNat 0 + q).signedNum = 0 := by
        rw [Fraction.signedNum_add]
        simp [Fraction.signedNum, hq]
      rw [Fraction.isZero, ← Fraction.natAbs_signedNum, hs]
      rfl
    have : totalAddend [q] = [] := if_pos hz
    rw [this] at heq
    cases heq
  · refine ⟨Nat.le_trans hle (by simp), fun heq => absurd hle ?_⟩
    rw [heq, List.length_cons, List.length_cons]
    omega

/-- The mass of a term with its coefficient. -/
theorem termMass_bounds (t : Expr × Fraction) :
    mass t.1 ≤ termMass t ∧ termMass t ≤ mass t.1 + 2 := by
  rw [termMass]
  split
  · omega
  split <;> omega

section Sum

variable {es : List Expr} (h : ∀ e ∈ es, Tidy e)

include h

/-- Adding up the coefficients of equal terms saves mass. -/
theorem sum_termMass_terms : ((terms es).map termMass).sum ≤ massAll (properAddends es) ∧
    (((terms es).map termMass).sum = massAll (properAddends es) →
      ((properAddends es).map fun e => e.term.1).Nodup) := by
  have hmass : (((properAddends es).map term).map termMass).sum = massAll (properAddends es) := by
    rw [massAll_eq_sum, List.map_map]
    congr 1
    refine List.map_congr_left fun e he => ?_
    obtain ⟨hm, hn, -⟩ := mem_properAddends.1 he
    exact ((h e hm).term_spec hn).2.2
  have hthree : ∀ t ∈ (properAddends es).map term, 3 ≤ mass t.1 := by
    intro t ht
    obtain ⟨e, he, rfl⟩ := List.mem_map.1 ht
    obtain ⟨hm, hn, -⟩ := mem_properAddends.1 he
    obtain ⟨hcore, htidy, -⟩ := (h e hm).term_spec hn
    exact htidy.three_le_mass hcore.noNumber
  have hsave (f : Expr) (u v : Fraction) (hf : 3 ≤ mass f) :
      termMass (f, u + v) < termMass (f, u) + termMass (f, v) := by
    have h₁ := termMass_bounds (f, u + v)
    have h₂ := termMass_bounds (f, u)
    have h₃ := termMass_bounds (f, v)
    simp only at h₁ h₂ h₃
    omega
  have := sum_gatherAll (Q := fun f (_ : Fraction) => 3 ≤ mass f) (fun _ _ _ hu _ => hu)
    (fun f u v hf _ => hsave f u v hf) hthree
  rwa [hmass, List.map_map] at this

/-- Collecting addends saves mass, unless there is nothing to collect. -/
theorem massAll_collectedSum {ts : List Expr} (hts : massAll ts ≤ ((terms es).map termMass).sum) :
    massAll (es.flatMap openedSum ++ totalAddend (numbers es) ++ ts) ≤ massAll es ∧
      (massAll (es.flatMap openedSum ++ totalAddend (numbers es) ++ ts) = massAll es →
        SumForm es) := by
  obtain ⟨hgather, hnodup⟩ := sum_termMass_terms h
  obtain ⟨htotal, hone⟩ := massAll_totalAddend (numbers es)
  have hes := massAll_addends es
  rw [massAll_append, massAll_append]
  refine ⟨by omega, fun heq => ?_⟩
  have hcount : es.countP (fun e => e.shape == .sum) = 0 := by omega
  have hsum : ∀ e ∈ es, e.shape ≠ .sum := by simpa [List.countP_eq_zero] using hcount
  obtain ⟨hnumbers, hzero⟩ := hone (by omega)
  refine ⟨hsum, hnumbers, hzero, ?_⟩
  rw [← properAddends_eq hsum]
  exact hnodup (by omega)

end Sum

/-! ### Products -/

/-- Joining factors loses mass unless it makes a product. -/
theorem joinProduct_cases (s : Bool) {es : List Expr} (h : es ≠ []) :
    mass (joinProduct s es) < massAll es + 1 ∨
      (2 ≤ es.length ∧ joinProduct s es = mkProduct s es) := by
  match es with
  | [] => exact absurd rfl h
  | [e] =>
    refine .inl ?_
    rw [joinProduct, mass_withSign, massAll_cons]
    omega
  | _ :: _ :: _ => exact .inr ⟨by simp, rfl⟩

/-- Factors weigh as much as what is sorted out of them, and a nested product one more. -/
theorem massAll_factors (es : List Expr) :
    massAll es = massAll (es.flatMap openedProduct) + es.countP (fun e => e.shape == .product) +
      (numbers es).length + massAll (properFactors es) := by
  induction es with
  | nil => rfl
  | cons e es ih =>
    rw [massAll_cons, ih, List.flatMap_cons, massAll_append]
    cases e with
    | rational q =>
      change _ = massAll [] + _ + List.countP _ (_ :: es) + ((numbers es).length + 1) +
        massAll (properFactors es)
      rw [List.countP_cons_of_neg Bool.false_ne_true, massAll_nil, mass]
      omega
    | product s as =>
      change _ = massAll as + _ + List.countP _ (_ :: es) + (numbers es).length +
        massAll (properFactors es)
      rw [List.countP_cons_of_pos rfl, mass]
      omega
    | _ =>
      change _ = massAll [] + _ + List.countP _ (_ :: es) + (numbers es).length +
        (_ + massAll (properFactors es))
      rw [List.countP_cons_of_neg Bool.false_ne_true, massAll_nil]
      omega

/-- Multiplying numbers loses mass, unless there is at most one and it is not one. -/
theorem massAll_coefficientFactor {qs : List Fraction} (hs : ∀ q ∈ qs, q.negated = false)
    (hz : (qs.foldl (· * ·) (Fraction.ofNat 1)).isZero = false) :
    massAll (coefficientFactor qs) ≤ qs.length ∧ (massAll (coefficientFactor qs) = qs.length →
      qs.length ≤ 1 ∧ ∀ q ∈ qs, q.isZero = false ∧ q.isOne = false) := by
  have hle : massAll (coefficientFactor qs) ≤ 1 := by
    simp only [coefficientFactor]
    split <;> simp [mass]
  rcases qs with _ | ⟨q, _ | ⟨r, qs⟩⟩
  · exact ⟨Nat.le_refl _, fun _ => ⟨Nat.zero_le _, List.forall_mem_nil _⟩⟩
  · have hq := one_mul_of_unsigned (hs q (List.mem_singleton_self q))
    refine ⟨hle, fun heq => ⟨Nat.le_refl _, List.forall_mem_singleton.2 ?_⟩⟩
    rw [List.foldl_cons, List.foldl_nil, hq] at hz
    refine ⟨hz, ?_⟩
    by_contra ho
    have hone : (Fraction.ofNat 1 * q).isOne = true := by
      rw [hq]
      exact eq_true_of_ne_false ho
    have : coefficientFactor [q] = [] := if_pos hone
    rw [this] at heq
    cases heq
  · refine ⟨Nat.le_trans hle (by simp), fun heq => absurd hle ?_⟩
    rw [heq, List.length_cons, List.length_cons]
    omega

theorem mass_raised_le (b x : Expr) : mass (raised b x) ≤ mass b + mass x + 2 := by
  have := mass_pos b
  cases x with
  | rational q =>
    simp only [raised]
    split
    · exact Nat.le_trans this (by omega)
    split
    · omega
    · rw [mass_mkPower]
  | _ =>
    rw [raised, mass_mkPower]
    rintro q ⟨⟩

/-- The heaviest that a base with exponents can be written. -/
def baseMass (b : Expr × List Expr) : Nat :=
  match b.2 with
  | [x] => if x = .ofNat 1 then mass b.1 else mass b.1 + mass x + 2
  | xs => mass b.1 + massAll xs + 4

/-- The mass of a base with its exponents. -/
theorem baseMass_le (b : Expr) (xs : List Expr) : baseMass (b, xs) ≤ mass b + massAll xs + 4 := by
  match xs with
  | [x] =>
    simp only [baseMass, massAll_cons, massAll_nil]
    split <;> omega
  | [] | _ :: _ :: _ => exact Nat.le_refl _

/-- A bare base has its own mass, and others have more. -/
theorem baseMass_cases (b : Expr) (xs : List Expr) :
    (xs = [.ofNat 1] ∧ baseMass (b, xs) = mass b) ∨ mass b + massAll xs + 2 ≤ baseMass (b, xs) := by
  match xs with
  | [x] =>
    simp only [baseMass, massAll_cons, massAll_nil]
    split
    · rename_i hone
      exact .inl ⟨congrArg (fun y => [y]) hone, rfl⟩
    · exact .inr (Nat.le_refl _)
  | [] | _ :: _ :: _ => exact .inr (Nat.add_le_add_left (by decide) _)

/-- A base that stands for its first power is a letter or a sum, and heavy enough for a square. -/
def Squares (b : Expr) (xs : List Expr) : Prop := xs = [.ofNat 1] → 7 ≤ mass b

theorem Squares.append {b : Expr} {xs ys : List Expr} (hx : Squares b xs) (hy : Squares b ys) :
    Squares b (xs ++ ys) := by
  intro h
  rcases List.append_eq_singleton_iff.1 h with ⟨-, h⟩ | ⟨h, -⟩
  · exact hy h
  · exact hx h

/-- Joining the exponents of one base loses mass. -/
theorem Squares.baseMass_append {b : Expr} {xs ys : List Expr} (hx : Squares b xs)
    (hy : Squares b ys) : baseMass (b, xs ++ ys) < baseMass (b, xs) + baseMass (b, ys) := by
  have hle := baseMass_le b (xs ++ ys)
  have hpos := mass_pos b
  have hone : massAll [.ofNat 1] = 1 := rfl
  rw [massAll_append] at hle
  rcases baseMass_cases b xs with ⟨rfl, h₁⟩ | h₁ <;> rcases baseMass_cases b ys with ⟨rfl, h₂⟩ | h₂
  · have := hx rfl
    omega
  · have := hx rfl
    omega
  · have := hy rfl
    omega
  · omega

/-- The base of a tidy factor with its exponent. -/
theorem Tidy.squares_base {e : Expr} (h : Tidy e) (hn : e.isNumber = false)
    (hp : e.shape ≠ .product) : Squares e.base [e.exponent] := by
  intro hone
  cases e with
  | rational => cases hn
  | product => exact absurd rfl hp
  | symbol => exact Nat.le_succ 7
  | sum s es => exact Shaped.seven_le_mass_sum h
  | power s b x =>
    obtain rfl : x = .ofNat 1 := (List.cons.inj hone).1
    cases ((shaped_power_iff.1 h).2.2.noUnit _ rfl).2

/-- The mass of a tidy factor is that of its base with its exponent. -/
theorem Tidy.baseMass_eq {e : Expr} (h : Tidy e) : baseMass (e.base, [e.exponent]) = mass e := by
  cases e with
  | power s b x =>
    have hx : x ≠ .ofNat 1 := by
      rintro rfl
      cases ((shaped_power_iff.1 h).2.2.noUnit _ rfl).2
    simp [baseMass, base, exponent, mass, hx]
  | _ => simp only [baseMass, base, exponent, if_true]

section Product

variable {es : List Expr} (h : ∀ e ∈ es, Tidy e)

include h

/-- Adding up the exponents of equal bases saves mass. -/
theorem sum_baseMass_bases : ((bases es).map baseMass).sum ≤ massAll (properFactors es) ∧
    (((bases es).map baseMass).sum = massAll (properFactors es) →
      ((properFactors es).map base).Nodup) := by
  have hmass : (((properFactors es).map fun e => (e.base, [e.exponent])).map baseMass).sum =
      massAll (properFactors es) := by
    rw [massAll_eq_sum, List.map_map]
    congr 1
    exact List.map_congr_left fun e he => (h e (mem_properFactors.1 he).1).baseMass_eq
  have hsquares : ∀ b ∈ (properFactors es).map fun e => (e.base, [e.exponent]),
      Squares b.1 b.2 := by
    intro b hb
    obtain ⟨e, he, rfl⟩ := List.mem_map.1 hb
    obtain ⟨hm, hn, hp⟩ := mem_properFactors.1 he
    exact (h e hm).squares_base hn hp
  have := sum_gatherAll (fun _ _ _ => Squares.append)
    (fun _ _ _ => Squares.baseMass_append) hsquares
  rwa [hmass, List.map_map] at this

variable (hs : ∀ e ∈ es, e.negated = false)

include hs

/-- Collecting factors saves mass, unless there is nothing to collect or all vanishes. -/
theorem massAll_collectedProduct {bs : List Expr}
    (hz : ((numbers es).foldl (· * ·) (Fraction.ofNat 1)).isZero = false)
    (hbs : massAll bs ≤ ((bases es).map baseMass).sum) :
    massAll (coefficientFactor (numbers es) ++ (es.flatMap openedProduct ++ bs)) ≤ massAll es ∧
      (massAll (coefficientFactor (numbers es) ++ (es.flatMap openedProduct ++ bs)) = massAll es →
        ProductForm es) := by
  obtain ⟨hgather, hnodup⟩ := sum_baseMass_bases h
  obtain ⟨hcoeff, hone⟩ :=
    massAll_coefficientFactor (fun q hq => hs _ (mem_numbers.1 hq)) hz
  have hes := massAll_factors es
  rw [massAll_append, massAll_append]
  refine ⟨by omega, fun heq => ?_⟩
  have hcount : es.countP (fun e => e.shape == .product) = 0 := by omega
  have hproduct : ∀ e ∈ es, e.shape ≠ .product := by simpa [List.countP_eq_zero] using hcount
  obtain ⟨hnumbers, hunit⟩ := hone (by omega)
  refine ⟨hs, hproduct, hnumbers, hunit, ?_⟩
  rw [← properFactors_eq hproduct]
  exact hnodup (by omega)

end Product

end SymScript.Expr
