import SymScript.Proofs.Mass

/-!
# Simplification ends

Simplifying any expression ends, with a result or a failure of its own, within a depth of twice its
mass.  A round on a node simplifies its children, which makes none of them heavier, and collects
them. What comes out is lighter than the node, so that the next round is covered by induction, or
there was nothing to collect.

In the second case the round must not go on for ever between expressions of the same mass.  A result
that weighs as much as what it came from is stable: a number that is not in lowest terms comes from
a power of numbers only, which is heavier.  So if no child became lighter all of them are stable,
and so is the node itself once its children are in order; a stable node ends the rounds.
-/

namespace SymScript.Expr

/-! ### Outcomes -/

/-- There was depth enough, and a result satisfies `P`. -/
structure Ends {α : Type} (P : α → Prop) (x : Except AlgebraError α) : Prop where
  ends : x ≠ .error .endless
  result : ∀ a, x = .ok a → P a

namespace Ends

variable {α β : Type} {P Q : α → Prop} {x : Except AlgebraError α}

theorem ok {a : α} (h : P a) : Ends P (.ok a) where
  ends := nofun
  result b hb := by
    cases hb
    exact h

/-- A failure for another reason ends. -/
theorem error {a : AlgebraError} (h : a ≠ .endless) : Ends P (.error a) where
  ends := by
    rintro ⟨⟩
    exact h rfl
  result := nofun

theorem mono (h : Ends P x) (hPQ : ∀ a, P a → Q a) : Ends Q x where
  ends := h.ends
  result a ha := hPQ a (h.result a ha)

/-- Computations in a row end if each does. -/
theorem bind {R : β → Prop} {f : α → Except AlgebraError β} (hx : x ≠ .error .endless)
    (hf : ∀ a, x = .ok a → Ends R (f a)) : Ends R (x >>= f) := by
  cases x with
  | ok a => exact hf a rfl
  | error a =>
    refine .error ?_
    rintro rfl
    exact hx rfl

/-- A list of computations ends if each does. -/
theorem mapM {R : α → β → Prop} {f : α → Except AlgebraError β} {as : List α}
    (h : ∀ a ∈ as, Ends (R a) (f a)) : Ends (List.Forall₂ R as) (as.mapM f) := by
  induction as with
  | nil => exact .ok .nil
  | cons a as ih =>
    obtain ⟨ha, has⟩ := List.forall_mem_cons.1 h
    rw [List.mapM_cons]
    refine .bind ha.ends fun b hb => .bind (ih has).ends fun bs hbs => .ok ?_
    exact .cons (ha.result b hb) ((ih has).result bs hbs)

end Ends

/-- A result that weighs as much as what it came from.  It has the same shape, except that the empty
product is a number, and there was no product to open in a product. -/
structure Kept (e r : Expr) : Prop where
  stable : Stable r
  shape : r.shape = e.shape ∨ e.factors = []
  flat : e.shape = .product → ∀ a ∈ e.factors, a.shape = .product → a.factors = []

/-- A result is tidy and no heavier than what it came from. -/
structure Lightens (e r : Expr) : Prop where
  tidy : Tidy r
  mass_le : mass r ≤ mass e
  kept : mass r = mass e → Kept e r

/-- A tidy result with less mass is lighter. -/
theorem Lightens.of_lt {e r : Expr} (h : Tidy r) (hlt : mass r < mass e) : Lightens e r :=
  ⟨h, Nat.le_of_lt hlt, fun heq => absurd hlt (heq ▸ Nat.lt_irrefl _)⟩

/-- A result that is kept counts as lighter. -/
theorem Kept.lightens {e r : Expr} (h : Kept e r) (hm : mass r = mass e) : Lightens e r :=
  ⟨h.stable.tidy, Nat.le_of_eq hm, fun _ => h⟩

/-- What is claimed of all expressions within the depth `n`. -/
def LightensWithin (n : Nat) : Prop :=
  ∀ e, 2 * mass e < n → Ends (Lightens e) (simplifyWithin n e)

/-- Lighter results are tidy. -/
theorem tidy_of_lightens {es rs : List Expr} (h : List.Forall₂ Lightens es rs) : ∀ r ∈ rs, Tidy r :=
  forall_of_forall₂ h fun _ _ h => h.tidy

/-- If the children together weigh as much as before, so does each of them. -/
theorem massAll_of_lightens {es rs : List Expr} (h : List.Forall₂ Lightens es rs) :
    massAll rs ≤ massAll es ∧ (massAll rs = massAll es → List.Forall₂ Kept es rs) := by
  induction h with
  | nil => exact ⟨Nat.le_refl _, fun _ => .nil⟩
  | @cons e r es rs he _ ih =>
    have hle := he.mass_le
    rw [massAll_cons, massAll_cons]
    refine ⟨by omega, fun heq => .cons (he.kept ?_) (ih.2 ?_)⟩ <;> omega

/-! ### Rounds -/

/-- What a round makes of `e`, whose children have been simplified to those of `e'`: something
lighter than `e'`, or nothing was collected. -/
def Round (e e' r : Expr) : Prop :=
  mass r < mass e' ∨ (mass r = mass e' ∧ (r = e' → Tidy r) ∧ (mass e' = mass e → Kept e r))

/-- A node that the round has not changed is not simplified again. -/
theorem Round.ends {n : Nat} (ih : LightensWithin n) {e e' r : Expr} (h : Round e e' r)
    (hle : mass e' ≤ mass e) (hn : 2 * mass e ≤ n + 1) (hlt : mass e < n) :
    Ends (Lightens e) (if r == e' then pure r else simplifyWithin n r) := by
  have hnext (hr : mass r < mass e) : Ends (Lightens e) (simplifyWithin n r) :=
    (ih r (by omega)).mono fun r' hr' => .of_lt hr'.tidy (Nat.lt_of_le_of_lt hr'.mass_le hr)
  rcases h with hr | ⟨hr, htidy, hkept⟩
  · rw [if_neg]
    · exact hnext (Nat.lt_of_lt_of_le hr hle)
    · intro heq
      obtain rfl : r = e' := by simpa using heq
      exact absurd hr (Nat.lt_irrefl _)
  rcases Nat.lt_or_eq_of_le hle with hlt' | heq
  · split
    · rename_i hre
      exact .ok (.of_lt (htidy (by simpa using hre)) (hr ▸ hlt'))
    · exact hnext (hr ▸ hlt')
  · have hk := hkept heq
    rw [hk.stable.simplifyWithin_eq (by omega)]
    split <;> exact .ok (hk.lightens (hr.trans heq))

/-! ### Sums -/

/-- A factor gets its coefficient.  The number is put among the factors of a product, so that no
second product weighs on the result. -/
theorem ofTerm_ends {n : Nat} (ih : LightensWithin n) {t : Expr × Fraction} (ht : Tidy t.1)
    (hn : 2 * (termMass t + 1) < n) :
    Ends (fun r => mass r ≤ termMass t) (ofTerm (simplifyWithin n) t) := by
  obtain ⟨f, c⟩ := t
  have hbounds := termMass_bounds (f, c)
  rw [ofTerm]
  split
  · exact .ok hbounds.1
  split
  · refine .ok ?_
    rw [flip, mass_withSign]
    exact hbounds.1
  rename_i hne
  have hne : c.num ≠ c.den := by simpa using hne
  have hmass : mass (mkProduct false [rational c, f]) = mass f + 2 := by
    rw [mass_mkProduct, massAll_cons, massAll_cons, massAll_nil, mass]
    omega
  have hterm : termMass (f, c) = mass f + if f.shape = .product then 1 else 2 :=
    congrArg _ (if_neg hne)
  change Ends _ (simplifyWithin n (mkProduct false [rational c, f]))
  refine (ih _ ?_).mono fun r hr => ?_
  · rw [hmass]
    split at hterm <;> omega
  · have hle := hr.mass_le
    rw [hmass] at hle
    rw [hterm]
    split
    · rename_i hp
      by_contra hlt
      have hkept := hr.kept (by omega)
      refine absurd (hkept.flat rfl f ?_ hp) ht.factors_ne_nil
      change f ∈ sort (copyAll [rational c, f])
      rw [mem_sort, copyAll, copyAll, ht.copy_eq]
      exact List.mem_cons_of_mem _ List.mem_cons_self
    · exact hle

section Sum

variable {es : List Expr} (h : ∀ e ∈ es, Tidy e)

include h

/-- The terms that are collected are tidy. -/
theorem tidy_terms : ∀ t ∈ terms es, Tidy t.1 := by
  apply forall_terms
  intro e he hn _
  exact ((h e he).term_spec hn).2.1

/-- Collecting the addends of a sum makes something lighter, or there was nothing to collect. -/
theorem collectSum_ends {n : Nat} (ih : LightensWithin n) (hn : 2 * (massAll es + 1) < n)
    (s : Bool) :
    Ends (fun r => mass r < mass (sum s es) ∨
        (mass r = mass (sum s es) ∧ SumForm es ∧ ∃ cs, 2 ≤ cs.length ∧ r = sum s (sort cs)))
      (collectSum (simplifyWithin n) s es) := by
  have hgather := (sum_termMass_terms h).1
  have hes := massAll_addends es
  have hterms : Ends (List.Forall₂ (fun t r => mass r ≤ termMass t) (terms es))
      ((terms es).mapM (ofTerm (simplifyWithin n))) := by
    refine Ends.mapM fun t ht => ofTerm_ends ih (tidy_terms h t ht) ?_
    have := List.single_le_sum (fun _ _ => Nat.zero_le _) _ (List.mem_map_of_mem (f := termMass) ht)
    omega
  rw [collectSum_eq_bind]
  refine .bind hterms.ends fun ts hts => .ok ?_
  obtain ⟨hle, hform⟩ :=
    massAll_collectedSum h (massAll_le_sum_of_forall₂ (hterms.result ts hts))
  generalize es.flatMap openedSum ++ totalAddend (numbers es) ++ ts = cs at hle hform
  rw [mass]
  rcases joinSum_cases s cs with hlt | ⟨hl, hjoin⟩
  · exact .inl (by omega)
  · rw [hjoin, mass_mkSum]
    rcases Nat.lt_or_eq_of_le hle with hlt | heq
    · exact .inl (by omega)
    · exact .inr ⟨by omega, hform heq, copyAll cs, by rwa [length_copyAll], rfl⟩

end Sum

section Sum

variable {es rs : List Expr} (h : List.Forall₂ Lightens es rs)

include h

/-- What is collected from the addends of a sum. -/
theorem round_collectSum {n : Nat} (ih : LightensWithin n) (hn : 2 * (massAll es + 1) < n)
    (s : Bool) : Ends (Round (sum s es) (sum s rs)) (collectSum (simplifyWithin n) s rs) := by
  have htidy := tidy_of_lightens h
  obtain ⟨hle, hkept⟩ := massAll_of_lightens h
  have hcollect := collectSum_ends htidy ih (by omega) s
  refine ⟨hcollect.ends, fun r hr => ?_⟩
  rcases hcollect.result r hr with hlt | ⟨heq, hform, cs, hl, hcs⟩
  · exact .inl hlt
  refine .inr ⟨heq, ?_, fun hm => ?_⟩
  · rintro rfl
    obtain rfl : rs = sort cs := (Expr.sum.inj hcs).2
    exact shaped_sum_iff.2 ⟨htidy, by rwa [length_sort], ordered_sort cs, hform⟩
  · have hstable : ∀ e ∈ rs, Stable e :=
      forall_of_forall₂ (hkept (Nat.add_right_cancel hm)) fun _ _ h => h.stable
    have hperm := numbers_append_others_perm rs
    have hterm : ∀ e ∈ others rs, ofTerm (simplifyWithin n) e.term = .ok e := by
      intro e he
      obtain ⟨hm, hnum⟩ := mem_others.1 he
      have := mass_le_massAll hm
      obtain ⟨m, rfl⟩ : ∃ m, n = m + 1 := ⟨n - 1, by omega⟩
      exact Stable.ofTerm_term (fun e he hw => he.simplifyWithin_eq hw) (hstable e hm)
        hnum (by omega)
    rw [hform.collectSum_eq hterm] at hr
    cases hr
    rcases joinSum_cases s ((numbers rs).map rational ++ others rs) with hlt | ⟨hl', hjoin⟩
    · rw [massAll_perm hperm, heq] at hlt
      exact absurd hlt (Nat.lt_irrefl _)
    · have hps : ∀ e ∈ (numbers rs).map rational ++ others rs, Stable e :=
        fun e he => hstable e (hperm.mem_iff.1 he)
      rw [hjoin, mkSum_eq fun e he => (hps e he).copy_eq]
      exact ⟨(hform.perm hperm).shaped_sort hps hl' s, .inl rfl, nofun⟩

/-- A round on a sum. -/
theorem finishSum_ends {n : Nat} (ih : LightensWithin n) (s : Bool)
    (hn : 2 * mass (sum s es) ≤ n) :
    Ends (Lightens (sum s es)) (finishSum (simplifyWithin n) s rs) := by
  have hmass (fs : List Expr) : mass (sum s fs) = massAll fs + 2 := rfl
  have hle := (massAll_of_lightens h).1
  rw [hmass] at hn
  rw [finishSum]
  split
  · exact .ok (.of_lt trivial (Nat.le_add_left 2 _))
  · have hround := round_collectSum h ih (by omega) s
    refine .bind hround.ends fun r hr => (hround.result r hr).ends ih ?_ ?_ ?_
    · rw [hmass, hmass]
      omega
    · rw [hmass]
      omega
    · rw [hmass]
      omega

end Sum

/-! ### Products -/

/-- Joining the exponents of a base ends, and gains no mass. -/
theorem ofBase_ends {n : Nat} (ih : LightensWithin n) (b : Expr) (xs : List Expr)
    (hn : 2 * baseMass (b, xs) ≤ n) :
    Ends (fun r => mass r ≤ baseMass (b, xs)) (ofBase (simplifyWithin n) (b, xs)) := by
  rw [ofBase_eq]
  by_cases hone : ∃ x, xs = [x]
  · obtain ⟨x, rfl⟩ := hone
    refine .ok ?_
    simp only [baseMass]
    split
    · rename_i hone
      rw [hone, raised_one]
    · exact mass_raised_le b x
  · have hne : ∀ x, xs ≠ [x] := fun x hx => hone ⟨x, hx⟩
    have hbase : baseMass (b, xs) = mass b + massAll xs + 4 := by
      unfold baseMass
      split
      · rename_i heq
        exact absurd heq (hne _)
      · rfl
    have hb := mass_pos b
    have hsum := ih (mkSum false xs) (by rw [mass_mkSum]; omega)
    rw [joinExponents_of_ne hne]
    refine .bind hsum.ends fun x hx => .ok ?_
    have hx := (hsum.result x hx).mass_le
    rw [mass_mkSum] at hx
    have hle := mass_raised_le b x
    omega

section Product

variable {es : List Expr} (h : ∀ e ∈ es, Tidy e) (hs : ∀ e ∈ es, e.negated = false)

include h hs

/-- Collecting the factors of a product without signs among them makes something lighter, or there
was nothing to collect. -/
theorem collectProduct_ends {n : Nat} (ih : LightensWithin n) (hn : 2 * massAll es ≤ n)
    (ho : others es ≠ []) (s : Bool) :
    Ends (fun r => mass r < massAll es + 1 ∨
        (mass r = massAll es + 1 ∧ ProductForm es ∧ ∃ cs, 2 ≤ cs.length ∧ r = product s (sort cs)))
      (collectProduct (simplifyWithin n) s es) := by
  have hgather := (sum_baseMass_bases h).1
  have hes := massAll_factors es
  have hpos : 1 ≤ massAll es := by
    obtain ⟨e, he⟩ := List.exists_mem_of_ne_nil _ ho
    exact Nat.le_trans (mass_pos e) (mass_le_massAll (mem_others.1 he).1)
  have hbases : Ends (List.Forall₂ (fun b r => mass r ≤ baseMass b) (bases es))
      ((bases es).mapM (ofBase (simplifyWithin n))) := by
    refine Ends.mapM fun b hb => ofBase_ends ih b.1 b.2 (show 2 * baseMass b ≤ n from ?_)
    have := List.single_le_sum (fun _ _ => Nat.zero_le _) _ (List.mem_map_of_mem (f := baseMass) hb)
    omega
  rw [collectProduct_eq_bind]
  refine .bind hbases.ends fun bs hbs => ?_
  simp only
  split
  · exact .ok (.inl (Nat.lt_succ_of_le hpos))
  rename_i hempty
  split
  · exact .ok (.inl (Nat.lt_succ_of_le hpos))
  rename_i hz
  obtain ⟨hle, hform⟩ := massAll_collectedProduct h hs (eq_false_of_ne_true hz)
    (massAll_le_sum_of_forall₂ (hbases.result bs hbs))
  have hne : coefficientFactor (numbers es) ++ (es.flatMap openedProduct ++ bs) ≠ [] := by
    intro hnil
    exact hempty (List.isEmpty_iff.2 (List.append_eq_nil_iff.1 hnil).2)
  generalize coefficientFactor (numbers es) ++ (es.flatMap openedProduct ++ bs) = cs
    at hle hform hne
  refine .ok ?_
  rcases joinProduct_cases s hne with hlt | ⟨hl, hjoin⟩
  · exact .inl (by omega)
  · rw [hjoin, mass_mkProduct]
    rcases Nat.lt_or_eq_of_le hle with hlt | heq
    · exact .inl (by omega)
    · exact .inr ⟨by omega, hform heq, copyAll cs, by rwa [length_copyAll], rfl⟩

end Product

/-- The empty product is one. -/
theorem round_product_nil (s : Bool) :
    Round (product s []) (product s []) (rational ((Fraction.ofNat 1).withSign s)) := by
  refine .inr ⟨rfl, nofun, fun _ => ⟨?_, .inr rfl, fun _ => nofun⟩⟩
  exact Fraction.reduce_eq_self_iff.2 ⟨Nat.coprime_one_left 1, nofun⟩

section Product

variable {es rs : List Expr} (h : List.Forall₂ Lightens es rs)

include h

/-- What is collected from the factors of a product, without their signs. -/
theorem round_collectProduct {n : Nat} (ih : LightensWithin n) (hn : 2 * massAll es ≤ n)
    (ho : others rs ≠ []) (s t : Bool) :
    Ends (Round (product s es) (product s (unsigned rs)))
      (collectProduct (simplifyWithin n) t (unsigned rs)) := by
  have htidy := tidy_of_lightens h
  obtain ⟨hle, hkept⟩ := massAll_of_lightens h
  have hunsigned := unsigned_eq fun r hr => (htidy r hr).copy_eq
  have hs : ∀ r ∈ unsigned rs, r.negated = false := negated_of_mem_unsigned
  have ho' := others_unsigned_ne_nil ho
  have htidy' : ∀ r ∈ unsigned rs, Tidy r := by
    rw [hunsigned]
    exact List.forall_mem_map.2 fun r hr => (htidy r hr).sign false
  have hcollect := collectProduct_ends htidy' hs ih (by rw [massAll_unsigned]; omega) ho' t
  refine ⟨hcollect.ends, fun r hr => ?_⟩
  rcases hcollect.result r hr with hlt | ⟨heq, hform, cs, hl, hcs⟩
  · exact .inl hlt
  refine .inr ⟨heq, ?_, fun hm => ?_⟩
  · rintro rfl
    have hsort : unsigned rs = sort cs := (Expr.product.inj hcs).2
    refine shaped_product_iff.2 ⟨htidy', ?_, ?_, hform⟩
    · rwa [hsort, length_sort]
    · rw [hsort]
      exact ordered_sort cs
  · have hmass : massAll rs = massAll es := by
      rw [mass, mass, massAll_unsigned] at hm
      exact Nat.add_right_cancel hm
    have hstable : ∀ r ∈ unsigned rs, Stable r := by
      rw [hunsigned]
      exact List.forall_mem_map.2
        (forall_of_forall₂ (hkept hmass) fun _ _ h => Shaped.sign_false h.stable)
    have hperm := numbers_append_others_perm (unsigned rs)
    rw [hform.collectProduct_eq hstable ho'] at hr
    cases hr
    have hne : (numbers (unsigned rs)).map rational ++ others (unsigned rs) ≠ [] := by
      simp [ho']
    rcases joinProduct_cases t hne with hlt | ⟨hl', hjoin⟩
    · rw [massAll_perm hperm, heq] at hlt
      exact absurd hlt (Nat.lt_irrefl _)
    · have hps : ∀ e ∈ (numbers (unsigned rs)).map rational ++ others (unsigned rs), Stable e :=
        fun e he => hstable e (hperm.mem_iff.1 he)
      rw [hjoin, mkProduct_eq fun e he => (hps e he).copy_eq]
      refine ⟨(hform.perm hperm).shaped_sort hps hl' t, .inl rfl, fun _ a ha hp => ?_⟩
      -- A product among the factors has stayed one, and would have been opened.
      obtain ⟨r, hr, hk⟩ := exists_of_forall₂ (hkept hmass) ha
      refine hk.shape.resolve_left fun hshape => ?_
      refine hform.noProduct (r.sign false) ?_ ((sign_shape false r).trans (hshape.trans hp))
      rw [hunsigned]
      exact List.mem_map_of_mem hr

/-- A round on a product. -/
theorem finishProduct_ends {n : Nat} (ih : LightensWithin n) (s : Bool)
    (hn : 2 * mass (product s es) ≤ n) :
    Ends (Lightens (product s es)) (finishProduct (simplifyWithin n) s rs) := by
  have hmass (fs : List Expr) : mass (product s fs) = massAll fs + 1 := rfl
  have hle := (massAll_of_lightens h).1
  by_cases hnil : rs = []
  · subst hnil
    cases h
    exact (round_product_nil s).ends ih (Nat.le_refl _) (by omega) (by rw [hmass] at hn ⊢; omega)
  rw [finishProduct]
  split
  · refine .ok (.of_lt trivial ?_)
    obtain ⟨r, hr⟩ := List.exists_mem_of_ne_nil _ hnil
    have := mass_pos r
    have := mass_le_massAll hr
    rw [hmass, mass]
    omega
  · rename_i hnone
    have ho := others_ne_nil_of_numbers? hnil hnone
    rw [hmass] at hn
    have hround := round_collectProduct h ih (by omega) ho s (productSign s rs)
    refine .bind hround.ends fun r hr => (hround.result r hr).ends ih ?_ ?_ ?_
    · rw [hmass, hmass, massAll_unsigned]
      omega
    · rw [hmass]
      omega
    · rw [hmass]
      omega

end Product

/-! ### Powers -/

theorem exactPower?_ne_endless (b x : Expr) : exactPower? b x ≠ .error .endless := by
  have hpow (p q : Fraction) : p.pow q ≠ .error .endless := by
    delta Fraction.pow
    split
    · split
      split <;> nofun
    · nofun
  unfold exactPower?
  split
  · rename_i p q
    intro h
    cases hq : p.pow q with
    | ok r => rw [hq] at h; cases h
    | error a =>
      rw [hq] at h
      cases h
      exact hpow p q hq
  · nofun

/-- The rule that applies, by the base and the exponent. -/
theorem powerRule_cases (b x : Expr) :
    (∃ q, b = rational q ∧ (powerRule b x = .zeroBase ∨ powerRule b x = .oneBase)) ∨
      powerRule b x = .zeroExponent ∨ powerRule b x = .oneExponent ∨
      (∃ t b' x', b = power t b' x' ∧ powerRule b x = .nested b' x') ∨
      ((∀ q, b = rational q → q.isZero = false ∧ q.isOne = false) ∧ b.shape ≠ .power ∧
        (∀ q, x = rational q → q.isZero = false ∧ q.isOne = false) ∧
        powerRule b x = if b.negated then .negatedBase else .none) := by
  have hnumber {p : Fraction → Bool} {e : Expr} (h : e.rational?.any p = true) :
      ∃ q, e = rational q := by
    cases e <;> first | exact ⟨_, rfl⟩ | cases h
  have hunits {e : Expr} (hz : ¬e.rational?.any Fraction.isZero = true)
      (ho : ¬e.rational?.any Fraction.isOne = true) (q : Fraction) (hq : e = rational q) :
      q.isZero = false ∧ q.isOne = false := by
    subst hq
    exact ⟨eq_false_of_ne_true hz, eq_false_of_ne_true ho⟩
  unfold powerRule
  split
  · rename_i hz
    obtain ⟨q, rfl⟩ := hnumber hz
    exact .inl ⟨q, rfl, .inl rfl⟩
  split
  · rename_i ho
    obtain ⟨q, rfl⟩ := hnumber ho
    exact .inl ⟨q, rfl, .inr rfl⟩
  split
  · exact .inr (.inl rfl)
  split
  · exact .inr (.inr (.inl rfl))
  rename_i hbz hbo hxz hxo
  refine .inr (.inr (.inr ?_))
  split
  · exact .inl ⟨_, _, _, rfl, rfl⟩
  · rename_i hne
    refine .inr ⟨hunits hbz hbo, fun hp => ?_, hunits hxz hxo, rfl⟩
    cases b <;> cases hp
    exact hne _ _ _ rfl

/-- The rule for negated bases applies to these only. -/
theorem negated_of_powerRule {b x : Expr} (h : powerRule b x = .negatedBase) :
    b.negated = true := by
  obtain ⟨q, -, hr | hr⟩ | hr | hr | ⟨t, b', x', rfl, hr⟩ | ⟨-, -, -, hr⟩ := powerRule_cases b x <;>
    rw [hr] at h
  case inr.inr.inr.inr =>
    by_contra hs
    rw [if_neg hs] at h
    cases h
  all_goals cases h

theorem signedOne_ends (s : Bool) : Ends (· = .ofNat 1) (signedOne s) := by
  cases s with
  | true => exact .ok rfl
  | false => exact .error nofun

/-- A rule other than that for signs makes something lighter, or there is none. -/
theorem rewritePower_ends {n : Nat} (ih : LightensWithin n) {b x : Expr}
    (hexact : exactPower? b x = .ok none) (hrule : powerRule b x ≠ .negatedBase) (s : Bool)
    (hn : 2 * mass (power s b x) ≤ n + 1) :
    Ends (fun r => mass r < mass (power s b x) ∨ (r = mkPower s b x ∧ PowerShape b x))
      (rewritePower (simplifyWithin n) s b x) := by
  have hmass (e y : Expr) : mass (power s e y) = mass e + mass y + 2 := rfl
  have hone : mass (.ofNat 1) < mass (power s b x) := Nat.le_add_left 2 _
  have hunit : Ends (fun r => mass r < mass (power s b x) ∨ (r = mkPower s b x ∧ PowerShape b x))
      (signedOne s) :=
    (signedOne_ends s).mono fun r hr => .inl (hr ▸ hone)
  rw [rewritePower]
  obtain ⟨q, -, hr | hr⟩ | hr | hr | ⟨t, b', x', rfl, hr⟩ | ⟨hbase, hp, hexponent, hr⟩ :=
    powerRule_cases b x <;> rw [hr]
  · exact .ok (.inl hone)
  · exact hunit
  · exact hunit
  · refine .ok (.inl ?_)
    rw [mass_withSign, hmass]
    omega
  · -- The exponents make a product that is one lighter than the two powers around them.
    have hlt : mass (mkPower s b' (mkProduct false [x', x])) + 1 =
        mass (power s (power t b' x') x) := by
      rw [mass_mkPower, mass_mkProduct, hmass, mass, massAll_cons, massAll_cons, massAll_nil]
      omega
    refine (ih _ (by omega)).mono fun r h => .inl ?_
    have := h.mass_le
    omega
  · cases hs : b.negated with
    | true =>
      rw [hs] at hr
      exact absurd hr hrule
    | false => exact .ok (.inr ⟨rfl, hbase, hp, hs, hexponent, hexact⟩)

/-- A power that is a number is one at once. -/
theorem finishPower_ends_of_exact {f : Expr → Except AlgebraError Expr} {s : Bool} {b x e : Expr}
    (he : 1 < mass e) (h : exactPower? b x = .ok none → Ends (Lightens e) (do
      let r ← rewritePower f s b x
      if powerRule b x != .negatedBase && r == .power s b x then return r else f r)) :
    Ends (Lightens e) (finishPower f s b x) := by
  rw [finishPower]
  refine .bind (exactPower?_ne_endless b x) fun q hq => ?_
  cases q with
  | some q => exact .ok (.of_lt trivial he)
  | none => exact h hq

/-- A round on a power whose base has no sign to give away. -/
theorem finishPower_ends_of_rule {n : Nat} (ih : LightensWithin n) {e b x : Expr} (hb : Tidy b)
    (hx : Tidy x) (hrule : powerRule b x ≠ .negatedBase) (s : Bool)
    (hle : mass (power s b x) ≤ mass e) (hshape : e.shape = .power)
    (hstable : mass (power s b x) = mass e → Stable b ∧ Stable x) (hn : 2 * mass e ≤ n + 1) :
    Ends (Lightens e) (finishPower (simplifyWithin n) s b x) := by
  have hfour : 4 ≤ mass (power s b x) := by
    have := mass_pos b
    have := mass_pos x
    rw [mass]
    omega
  refine finishPower_ends_of_exact (by omega) fun hexact => ?_
  have hrewrite := rewritePower_ends ih hexact hrule s (by omega)
  refine .bind hrewrite.ends fun r hr => ?_
  have hcond : (powerRule b x != .negatedBase && r == power s b x) = (r == power s b x) := by
    simp [hrule]
  rw [hcond]
  refine Round.ends ih ?_ hle hn (by omega)
  rcases hrewrite.result r hr with hlt | ⟨rfl, hpower⟩
  · exact .inl hlt
  · rw [mkPower_eq hb.copy_eq hx.copy_eq]
    refine .inr ⟨rfl, fun _ => shaped_power_iff.2 ⟨hb, hx, hpower⟩, fun hm => ?_⟩
    obtain ⟨hb', hx'⟩ := hstable hm
    refine ⟨shaped_power_iff.2 ⟨hb', hx', hpower⟩, .inl hshape.symm, fun hp => ?_⟩
    cases hshape.symm.trans hp

/-- A round on a power.  A base that gives its sign away takes a second round. -/
theorem finishPower_ends {n : Nat} (ih : ∀ m ≤ n, LightensWithin m) {b x b' x' : Expr}
    (hb : Lightens b b') (hx : Lightens x x') (s : Bool) (hn : 2 * mass (power s b x) ≤ n) :
    Ends (Lightens (power s b x)) (finishPower (simplifyWithin n) s b' x') := by
  have hmass (t : Bool) (e y : Expr) : mass (power t e y) = mass e + mass y + 2 := rfl
  have hble := hb.mass_le
  have hxle := hx.mass_le
  have hstable (hm : mass b' + mass x' = mass b + mass x) : Stable b' ∧ Stable x' :=
    ⟨(hb.kept (by omega)).stable, (hx.kept (by omega)).stable⟩
  by_cases hrule : powerRule b' x' = .negatedBase
  · refine finishPower_ends_of_exact (Nat.le_add_left 2 _) fun _ => ?_
    rw [rewritePower, hrule]
    change Ends _ (simplifyWithin n (mkPower (!s) (b'.withSign false) x'))
    rw [hb.tidy.withSign_eq, mkPower_eq (hb.tidy.sign false).copy_eq hx.tidy.copy_eq]
    have hmass' : mass (power (!s) (b'.sign false) x') = mass b' + mass x' + 2 := by
      rw [hmass, mass_sign]
    rcases Nat.lt_or_eq_of_le (Nat.add_le_add hble hxle) with hlt | heq
    · refine (ih n (Nat.le_refl n) _ ?_).mono fun r hr => .of_lt hr.tidy ?_
      · rw [hmass']
        rw [hmass] at hn
        omega
      · have := hr.mass_le
        rw [hmass]
        omega
    · obtain ⟨hb', hx'⟩ := hstable heq
      have hb' : Stable (b'.sign false) := Shaped.sign_false hb'
      rw [hmass] at hn
      obtain ⟨m, rfl⟩ : ∃ m, n = m + 1 := ⟨n - 1, by omega⟩
      rw [simplifyWithin, hb'.simplifyWithin_eq (by rw [mass_sign]; omega),
        hx'.simplifyWithin_eq (by omega)]
      refine finishPower_ends_of_rule (ih m (Nat.le_succ m)) hb'.tidy hx'.tidy ?_ (!s) ?_ rfl
        (fun _ => ⟨hb', hx'⟩) hn
      · intro hneg
        cases (sign_negated false b').symm.trans (negated_of_powerRule hneg)
      · rw [hmass', hmass]
        omega
  · refine finishPower_ends_of_rule (ih n (Nat.le_refl n)) hb.tidy hx.tidy hrule s ?_ rfl
      ?_ (by omega)
    · rw [hmass, hmass]
      omega
    · intro hm
      rw [hmass, hmass] at hm
      exact hstable (by omega)

/-! ### The theorem -/

/-- Any expression is simplified within a depth of twice its mass. -/
theorem lightensWithin (n : Nat) : LightensWithin n := by
  induction n using Nat.strongRecOn with
  | ind n ih =>
    intro e hn
    obtain ⟨n, rfl⟩ : ∃ m, n = m + 1 := ⟨n - 1, by omega⟩
    have ihn := ih n (Nat.lt_succ_self n)
    cases e with
    | rational q =>
      exact .ok (Kept.lightens ⟨Fraction.reduce_reduce q, .inl rfl, nofun⟩ rfl)
    | symbol s c => exact .ok (Kept.lightens ⟨trivial, .inl rfl, nofun⟩ rfl)
    | sum s es =>
      have hmass : mass (sum s es) = massAll es + 2 := rfl
      have hchildren : Ends (List.Forall₂ Lightens es) (es.mapM (simplifyWithin n)) :=
        Ends.mapM fun e he => ihn e (by have := mass_le_massAll he; omega)
      exact .bind hchildren.ends fun rs hrs =>
        finishSum_ends (hchildren.result rs hrs) ihn s (by omega)
    | product s es =>
      have hmass : mass (product s es) = massAll es + 1 := rfl
      have hchildren : Ends (List.Forall₂ Lightens es) (es.mapM (simplifyWithin n)) :=
        Ends.mapM fun e he => ihn e (by have := mass_le_massAll he; omega)
      exact .bind hchildren.ends fun rs hrs =>
        finishProduct_ends (hchildren.result rs hrs) ihn s (by omega)
    | power s b x =>
      have hmass : mass (power s b x) = mass b + mass x + 2 := rfl
      have hb := ihn b (by omega)
      have hx := ihn x (by omega)
      exact .bind hb.ends fun b' hb' => .bind hx.ends fun x' hx' =>
        finishPower_ends (fun m hm => ih m (Nat.lt_succ_of_le hm)) (hb.result b' hb')
          (hx.result x' hx') s (by omega)

/-- The bound has room for twice the mass. -/
theorem mass_lt_simplifyBound (e : Expr) : 2 * mass e < e.simplifyBound := by
  have := mass_le_size e
  have hsq : (e.size + 8) * (e.size + 8) = e.size * e.size + 16 * e.size + 64 := by ring
  rw [simplifyBound, hsq]
  have := Nat.zero_le (e.size * e.size)
  omega

/-- Simplifying ends, and gives something lighter. -/
theorem simplify_lightens (e : Expr) : Ends (Lightens e) (simplify e) :=
  lightensWithin _ e (mass_lt_simplifyBound e)

/-- Any result is tidy, whatever the depth was. -/
theorem tidy_of_simplifyWithin {n : Nat} {e r : Expr} (hr : simplifyWithin n e = .ok r) :
    Tidy r := by
  have h := simplify_lightens e
  refine (h.result r ?_).tidy
  rw [simplify, simplifyWithin_eq_of_ne h.ends (m := n) (by rw [hr]; nofun), hr]

/-- Simplifying any expression ends, by returning an expression or by failing for a reason other
than the depth of its calls.  That depth is linear in the size of the expression: no larger bound
changes the outcome. -/
theorem simplify_ends (e : Expr) :
    ((∃ r, simplify e = .ok r) ∨ ∃ a, a ≠ .endless ∧ simplify e = .error a) ∧
      ∀ n, 16 * e.size < n → simplifyWithin n e = simplify e := by
  have hends := (simplify_lightens e).ends
  constructor
  · cases hr : simplify e with
    | ok r => exact .inl ⟨r, rfl⟩
    | error a =>
      refine .inr ⟨a, ?_, rfl⟩
      rintro rfl
      exact hends hr
  · intro n hn
    have hmass := mass_le_size e
    exact simplifyWithin_eq_of_ne (lightensWithin n e (by omega)).ends hends

/-- Two equal sums, a power of a power, and a power of numbers that is not one. -/
theorem simplify_ends_mixed :
    let x := symbol false 'x'
    let twice := sum true [x, symbol true 'y', x]
    let root := power false (rational (.ofNat 2)) (rational { negated := true, num := 1, den := 2 })
    let e := product false [twice, twice, power true (power false x (.ofNat 3)) root, root]
    16 * e.size < 400 ∧ simplifyWithin 400 e = simplify e :=
  ⟨by decide, (simplify_ends _).2 400 (by decide)⟩

end SymScript.Expr
