import Mathlib.Data.List.Induction
import SymScript.Proofs.NormalForm

/-!
# Collecting addends and factors

What is sorted out of a list of addends or factors, as plain functions of the list: the numbers
added up or multiplied, what nested sums and products hold, and the rest with equal keys joined.
Joining never makes the list heavier, and leaves it as heavy as it was only if there was nothing to
join.
-/

namespace SymScript.Expr

/-! ### Joining equal keys -/

section Gather

variable {β : Type} (join : β → β → β)

/-- Gathers a list of entries from left to right. -/
def gatherAll (kvs : List (Expr × β)) : List (Expr × β) :=
  kvs.foldl (fun l kv => gather join kv.1 kv.2 l) []

/-- A new key is put at the end. -/
theorem gather_of_not_mem {k : Expr} (v : β) {l : List (Expr × β)} (h : k ∉ l.map Prod.fst) :
    gather join k v l = l ++ [(k, v)] := by
  induction l with
  | nil => rfl
  | cons kw l ih =>
    simp only [List.map_cons, List.mem_cons, not_or] at h
    rw [gather, if_neg (by simpa using Ne.symm h.1), ih h.2]
    rfl

/-- Every entry after gathering has an old key, and a value made of those of that key. -/
theorem forall_gather {P : Expr → β → Prop} (hj : ∀ k v w, P k v → P k w → P k (join v w))
    {k : Expr} {v : β} {l : List (Expr × β)} (hl : ∀ kw ∈ l, P kw.1 kw.2) (hv : P k v) :
    ∀ kw ∈ gather join k v l, P kw.1 kw.2 := by
  induction l with
  | nil =>
    intro kw h
    rw [gather, List.mem_singleton] at h
    exact h ▸ hv
  | cons ku l ih =>
    obtain ⟨hu, hl⟩ := List.forall_mem_cons.1 hl
    rw [gather]
    split
    · rename_i hk
      have hk : ku.1 = k := by simpa using hk
      exact List.forall_mem_cons.2 ⟨hj _ _ _ hu (hk ▸ hv), hl⟩
    · exact List.forall_mem_cons.2 ⟨hu, ih hl⟩

/-- What holds of all entries, and of joined values if of both, holds after joining. -/
theorem forall_gatherAll {P : Expr → β → Prop} (hj : ∀ k v w, P k v → P k w → P k (join v w))
    {kvs : List (Expr × β)} (h : ∀ kv ∈ kvs, P kv.1 kv.2) :
    ∀ kv ∈ gatherAll join kvs, P kv.1 kv.2 := by
  induction kvs using List.reverseRecOn with
  | nil => simp [gatherAll]
  | append_singleton kvs kv ih =>
    rw [gatherAll, List.foldl_append]
    refine forall_gather join hj (ih fun kw hw => h kw (List.mem_append_left _ hw)) ?_
    exact h kv (List.mem_append_right _ (List.mem_singleton_self _))

/-- Without equal keys nothing is joined. -/
theorem gatherAll_of_nodup {kvs : List (Expr × β)} (h : (kvs.map Prod.fst).Nodup) :
    gatherAll join kvs = kvs := by
  induction kvs using List.reverseRecOn with
  | nil => rfl
  | append_singleton kvs kv ih =>
    rw [List.map_append, List.nodup_append] at h
    have hkv : kv.1 ∉ kvs.map Prod.fst := fun hm => h.2.2 _ hm _ (List.mem_singleton_self _) rfl
    have ih : kvs.foldl (fun l kv => gather join kv.1 kv.2 l) [] = kvs := ih h.1
    rw [gatherAll, List.foldl_append, ih, List.foldl_cons, List.foldl_nil,
      gather_of_not_mem join _ hkv]

variable {join} {w : Expr × β → Nat} {Q : Expr → β → Prop}

/-- Joining into a key that is there makes the list lighter. -/
theorem sum_gather_of_mem {k : Expr} {v : β} {l : List (Expr × β)} (h : k ∈ l.map Prod.fst)
    (hl : ∀ kw ∈ l, Q kw.1 kw.2) (hw : ∀ u, Q k u → w (k, join u v) < w (k, u) + w (k, v)) :
    ((gather join k v l).map w).sum < (l.map w).sum + w (k, v) := by
  induction l with
  | nil => cases h
  | cons ku l ih =>
    obtain ⟨k', u⟩ := ku
    obtain ⟨hu, hl⟩ := List.forall_mem_cons.1 hl
    rw [gather]
    split
    · rename_i hk
      obtain rfl : k' = k := by simpa using hk
      have := hw u hu
      simp only [List.map_cons, List.sum_cons]
      omega
    · rename_i hk
      have hk : k ≠ k' := fun he => hk (by simp [he])
      have := ih ((List.mem_cons.1 h).resolve_left hk) hl
      simp only [List.map_cons, List.sum_cons]
      omega

/-- If joining two values saves mass, gathering saves mass unless all keys differ. -/
theorem sum_gatherAll (hj : ∀ k u v, Q k u → Q k v → Q k (join u v))
    (hw : ∀ k u v, Q k u → Q k v → w (k, join u v) < w (k, u) + w (k, v)) {kvs : List (Expr × β)}
    (h : ∀ kv ∈ kvs, Q kv.1 kv.2) :
    ((gatherAll join kvs).map w).sum ≤ (kvs.map w).sum ∧
      (((gatherAll join kvs).map w).sum = (kvs.map w).sum → (kvs.map Prod.fst).Nodup) := by
  induction kvs using List.reverseRecOn with
  | nil => simp [gatherAll]
  | append_singleton kvs kv ih =>
    have hkvs : ∀ kw ∈ kvs, Q kw.1 kw.2 := fun kw hm => h kw (List.mem_append_left _ hm)
    have hkv := h kv (List.mem_append_right _ (List.mem_singleton_self _))
    obtain ⟨hle, hnd⟩ := ih hkvs
    rw [show gatherAll join (kvs ++ [kv]) = gather join kv.1 kv.2 (gatherAll join kvs) by
      rw [gatherAll, List.foldl_append]; rfl]
    simp only [List.map_append, List.sum_append, List.map_singleton, List.sum_singleton]
    by_cases hm : kv.1 ∈ (gatherAll join kvs).map Prod.fst
    · have hlt := sum_gather_of_mem hm (forall_gatherAll join hj hkvs)
        fun u hu => hw kv.1 u kv.2 hu hkv
      refine ⟨?_, fun he => ?_⟩
      · exact Nat.le_trans (Nat.le_of_lt hlt) (Nat.add_le_add_right hle _)
      · change _ = _ + w (kv.1, kv.2) at he
        omega
    · rw [gather_of_not_mem join _ hm]
      simp only [List.map_append, List.sum_append, List.map_singleton, List.sum_singleton]
      refine ⟨Nat.add_le_add_right hle _, fun he => ?_⟩
      have hnd := hnd (Nat.add_right_cancel he)
      rw [gatherAll_of_nodup join hnd] at hm
      rw [List.nodup_append]
      refine ⟨hnd, List.nodup_singleton _, ?_⟩
      rintro a ha b hb rfl
      exact hm (List.mem_singleton.1 hb ▸ ha)

end Gather

/-! ### What is sorted out of a list -/

/-- What a nested sum gives to the sum that it stands in. -/
def openedSum : Expr → List Expr
  | sum s es => if s then es.map flip else es
  | _ => []

/-- The addends that are neither numbers nor sums. -/
def properAddends (es : List Expr) : List Expr := (others es).filter fun e => e.shape != .sum

/-- What a nested product gives to the product that it stands in. -/
def openedProduct : Expr → List Expr
  | product _ es => es
  | _ => []

/-- The factors that are neither numbers nor products. -/
def properFactors (es : List Expr) : List Expr := (others es).filter fun e => e.shape != .product

/-- The proper addends are no numbers and no sums. -/
theorem mem_properAddends {e : Expr} {es : List Expr} :
    e ∈ properAddends es ↔ e ∈ es ∧ e.isNumber = false ∧ e.shape ≠ .sum := by
  simp [properAddends, mem_others, and_assoc]

/-- The proper factors are no numbers and no products. -/
theorem mem_properFactors {e : Expr} {es : List Expr} :
    e ∈ properFactors es ↔ e ∈ es ∧ e.isNumber = false ∧ e.shape ≠ .product := by
  simp [properFactors, mem_others, and_assoc]

theorem properAddends_append (es fs : List Expr) :
    properAddends (es ++ fs) = properAddends es ++ properAddends fs := by
  rw [properAddends, others_append, List.filter_append]
  rfl

theorem properFactors_append (es fs : List Expr) :
    properFactors (es ++ fs) = properFactors es ++ properFactors fs := by
  rw [properFactors, others_append, List.filter_append]
  rfl

/-- The terms of the addends, with the coefficients of equal ones added up. -/
def terms (es : List Expr) : List (Expr × Fraction) :=
  gatherAll (· + ·) ((properAddends es).map term)

/-- The bases of the factors, with the exponents of equal ones side by side. -/
def bases (es : List Expr) : List (Expr × List Expr) :=
  gatherAll (· ++ ·) ((properFactors es).map fun e => (e.base, [e.exponent]))

/-- What holds of every proper addend without its coefficient holds of the terms. -/
theorem forall_terms {P : Expr → Prop} {es : List Expr}
    (h : ∀ e ∈ es, e.isNumber = false → e.shape ≠ .sum → P e.term.1) : ∀ t ∈ terms es, P t.1 := by
  refine forall_gatherAll (P := fun e _ => P e) _ (fun _ _ _ h _ => h) fun t ht => ?_
  obtain ⟨e, he, rfl⟩ := List.mem_map.1 ht
  obtain ⟨hm, hn, hs⟩ := mem_properAddends.1 he
  exact h e hm hn hs

/-- What holds of the base and exponent of every proper factor holds of the bases, if exponents may
be listed together. -/
theorem forall_bases {P : Expr → List Expr → Prop} {es : List Expr}
    (happend : ∀ b xs ys, P b xs → P b ys → P b (xs ++ ys))
    (h : ∀ e ∈ es, e.isNumber = false → e.shape ≠ .product → P e.base [e.exponent]) :
    ∀ b ∈ bases es, P b.1 b.2 := by
  refine forall_gatherAll (P := P) _ happend fun b hb => ?_
  obtain ⟨e, he, rfl⟩ := List.mem_map.1 hb
  obtain ⟨hm, hn, hp⟩ := mem_properFactors.1 he
  exact h e hm hn hp

/-- One addend goes to the nested addends, to the total or to the terms. -/
theorem SumParts.put_eq (p : SumParts) (e : Expr) : p.put e =
    { nested := p.nested ++ openedSum e
      total := (numbers [e]).foldl (· + ·) p.total
      terms := ((properAddends [e]).map term).foldl
        (fun l kv => gather (· + ·) kv.1 kv.2 l) p.terms } := by
  cases e <;> simp only [SumParts.put, openedSum, List.append_nil] <;> rfl

/-- The parts of a sum as functions of the list of addends. -/
theorem SumParts.ofList_eq (es : List Expr) : SumParts.ofList es =
    { nested := es.flatMap openedSum
      total := (numbers es).foldl (· + ·) (.ofNat 0)
      terms := Expr.terms es } := by
  induction es using List.reverseRecOn with
  | nil => rfl
  | append_singleton es e ih =>
    rw [SumParts.ofList, List.foldl_append, ← SumParts.ofList, ih, List.foldl_cons, List.foldl_nil,
      SumParts.put_eq, Expr.terms, Expr.terms, numbers_append, properAddends_append,
      List.flatMap_append, List.map_append, List.foldl_append, gatherAll, gatherAll,
      List.foldl_append, List.flatMap_singleton]

/-- One factor goes to the nested factors, to the coefficient or to the bases. -/
theorem ProductParts.put_eq (p : ProductParts) (e : Expr) : p.put e =
    { nested := p.nested ++ openedProduct e
      coefficient := (numbers [e]).foldl (· * ·) p.coefficient
      bases := ((properFactors [e]).map fun e => (e.base, [e.exponent])).foldl
        (fun l kv => gather (· ++ ·) kv.1 kv.2 l) p.bases } := by
  cases e <;> simp only [ProductParts.put, openedProduct, List.append_nil] <;> rfl

/-- The parts of a product as functions of the list of factors. -/
theorem ProductParts.ofList_eq (es : List Expr) : ProductParts.ofList es =
    { nested := es.flatMap openedProduct
      coefficient := (numbers es).foldl (· * ·) (.ofNat 1)
      bases := Expr.bases es } := by
  induction es using List.reverseRecOn with
  | nil => rfl
  | append_singleton es e ih =>
    rw [ProductParts.ofList, List.foldl_append, ← ProductParts.ofList, ih, List.foldl_cons,
      List.foldl_nil, ProductParts.put_eq, Expr.bases, Expr.bases, numbers_append,
      properFactors_append, List.flatMap_append, List.map_append, List.foldl_append, gatherAll,
      gatherAll,
      List.foldl_append, List.flatMap_singleton]

/-! ### Rounds -/

/-- The total of the numbers as an addend, if it is not zero. -/
def totalAddend (qs : List Fraction) : List Expr :=
  let total := qs.foldl (· + ·) (Fraction.ofNat 0)
  if total.isZero then [] else [rational total]

/-- The product of the numbers as a factor, if it is not one. -/
def coefficientFactor (qs : List Fraction) : List Expr :=
  let coefficient := qs.foldl (· * ·) (Fraction.ofNat 1)
  if coefficient.isOne then [] else [rational coefficient]

/-- The total is a number, if it is there at all. -/
theorem eq_rational_of_mem_totalAddend {qs : List Fraction} {e : Expr} (h : e ∈ totalAddend qs) :
    e = rational (qs.foldl (· + ·) (Fraction.ofNat 0)) := by
  simp only [totalAddend] at h
  split at h
  · cases h
  · exact List.mem_singleton.1 h

theorem eq_rational_of_mem_coefficientFactor {qs : List Fraction} {e : Expr}
    (h : e ∈ coefficientFactor qs) : e = rational (qs.foldl (· * ·) (Fraction.ofNat 1)) := by
  simp only [coefficientFactor] at h
  split at h
  · cases h
  · exact List.mem_singleton.1 h

/-- Collecting addends: the nested ones, the total, and the terms put together again. -/
theorem collectSum_eq_bind (simp : Expr → Except AlgebraError Expr) (s : Bool) (es : List Expr) :
    collectSum simp s es = do
      let ts ← (terms es).mapM (ofTerm simp)
      return joinSum s (es.flatMap openedSum ++ totalAddend (numbers es) ++ ts) := by
  rw [collectSum, SumParts.ofList_eq]
  rfl

/-- Collecting factors: the nested ones, the coefficient, and the bases with their exponents. A
coefficient of zero takes the rest away. -/
theorem collectProduct_eq_bind (simp : Expr → Except AlgebraError Expr) (s : Bool)
    (es : List Expr) : collectProduct simp s es =
      ((bases es).mapM (ofBase simp) >>= fun bs =>
        let coefficient := (numbers es).foldl (· * ·) (Fraction.ofNat 1)
        let fs := es.flatMap openedProduct ++ bs
        if fs.isEmpty then .ok (rational (coefficient.withSign s))
        else if coefficient.isZero then .ok (.ofNat 0)
        else .ok (joinProduct s (coefficientFactor (numbers es) ++ fs))) := by
  rw [collectProduct, ProductParts.ofList_eq]
  refine bind_congr fun bs => ?_
  simp only [coefficientFactor]
  by_cases hone : ((numbers es).foldl (· * ·) (Fraction.ofNat 1)).isOne = true
  · rw [if_pos hone, if_pos hone]
    rfl
  · rw [if_neg hone, if_neg hone]
    rfl

/-- Other than one exponent are added up and simplified. -/
theorem joinExponents_of_ne {f : Expr → Except AlgebraError Expr} {xs : List Expr}
    (h : ∀ x, xs ≠ [x]) : joinExponents f xs = f (mkSum false xs) := by
  unfold joinExponents
  split
  · exact absurd rfl (h _)
  · rfl

/-- A base with its exponent as one factor. -/
def raised (b x : Expr) : Expr :=
  match x with
  | .rational q =>
    if q.isZero then .ofNat 1 else if q.isOne then b else mkPower false b (.rational q)
  | x => mkPower false b x

/-- An exponent of one is left out. -/
theorem raised_one (b : Expr) : raised b (.ofNat 1) = b := rfl

/-- A base is raised to its exponents, joined. -/
theorem ofBase_eq (f : Expr → Except AlgebraError Expr) (b : Expr) (xs : List Expr) :
    ofBase f (b, xs) = joinExponents f xs >>= fun x => .ok (raised b x) := by
  unfold ofBase
  congr 1
  funext x
  cases x with
  | rational q =>
    simp only [raised]
    split
    · rfl
    split <;> rfl
  | _ => rfl

/-! ### Factors with coefficients -/

/-- The factors of a product, or the expression alone. -/
def factors : Expr → List Expr
  | product _ fs => fs
  | e => [e]

/-- What is no product is its own only factor. -/
theorem factors_of_ne_product {e : Expr} (h : e.shape ≠ .product) : e.factors = [e] := by
  cases e <;> first | rfl | exact absurd rfl h

/-- What is left of an addend without its sign and its coefficient. -/
structure Core (f : Expr) : Prop where
  noNumber : f.isNumber = false
  unsigned : f.negated = false
  noCoefficient : numbers f.factors = []

/-- A factor without a sign and without a number of its own. -/
structure Bare (f : Expr) : Prop extends Core f where
  normal : Normal f

/-- A factor with a coefficient, as simplification writes it. -/
def scaled (c : Fraction) (f : Expr) : Expr :=
  if c.num = 0 then .ofNat 0
  else if c.num = c.den then f.sign c.negated
  else .product c.negated (.rational (c.reduce.withSign false) :: f.factors)

/-- A coefficient other than zero and one is the first factor. -/
theorem scaled_of_ne {c : Fraction} (hz : c.num ≠ 0) (ho : c.num ≠ c.den) (f : Expr) :
    scaled c f = .product c.negated (.rational (c.reduce.withSign false) :: f.factors) := by
  rw [scaled, if_neg hz, if_neg ho]

/-- Nothing comes before a number but numbers. -/
theorem lt_rational_of_other {e : Expr} (h : e.isNumber = false) (q : Fraction) :
    lt e (rational q) = false := by
  cases e <;> first | rfl | cases h

/-- A number may stand in front of what is no number. -/
theorem ordered_cons_rational {es : List Expr} (h : Ordered es) (q : Fraction)
    (hn : numbers es = []) : Ordered (rational q :: es) := by
  cases es with
  | nil => exact .singleton _
  | cons e es =>
    refine List.isChain_cons_cons.2 ⟨lt_rational_of_other ?_ q, h⟩
    cases he : e.isNumber with
    | false => rfl
    | true =>
      obtain ⟨r, rfl⟩ := isNumber_iff.1 he
      cases hn

theorem others_eq_self {es : List Expr} (h : numbers es = []) : others es = es := by
  refine List.filter_eq_self.2 fun e he => ?_
  cases hn : e.isNumber with
  | false => rfl
  | true =>
    obtain ⟨q, rfl⟩ := isNumber_iff.1 hn
    rw [List.eq_nil_iff_forall_not_mem] at h
    exact absurd (mem_numbers.2 he) (h q)

theorem numbers_eq_nil {es : List Expr} (h : ∀ e ∈ es, e.isNumber = false) : numbers es = [] := by
  refine List.eq_nil_iff_forall_not_mem.2 fun q hq => ?_
  cases h _ (mem_numbers.1 hq)

/-- A number that is neither zero nor one comes before factors that hold no number. -/
theorem ProductForm.cons_rational {es : List Expr} (h : ProductForm es) (hn : numbers es = [])
    {q : Fraction} (hs : q.negated = false) (hz : q.isZero = false) (ho : q.isOne = false) :
    ProductForm (rational q :: es) where
  unsigned := List.forall_mem_cons.2 ⟨hs, h.unsigned⟩
  noProduct := List.forall_mem_cons.2 ⟨nofun, h.noProduct⟩
  oneNumber := by rw [numbers_cons_rational, hn]; exact Nat.le_refl _
  noUnit := by
    rw [numbers_cons_rational, hn]
    exact List.forall_mem_singleton.2 ⟨hz, ho⟩
  distinct := by rw [others_cons_rational]; exact h.distinct

/-- The factors behind the first one have the form of a product too. -/
theorem ProductForm.tail {e : Expr} {es : List Expr} (h : ProductForm (e :: es)) :
    ProductForm es where
  unsigned := (List.forall_mem_cons.1 h.unsigned).2
  noProduct := (List.forall_mem_cons.1 h.noProduct).2
  oneNumber := Nat.le_trans ((List.sublist_cons_self e es).filterMap rational?).length_le
    h.oneNumber
  noUnit q hq := h.noUnit q (mem_numbers.2 (List.mem_cons_of_mem _ (mem_numbers.1 hq)))
  distinct := h.distinct.sublist (((List.sublist_cons_self e es).filter _).map _)

section Shaped

variable {number : Fraction → Prop} {raise : Expr → Expr → Prop} {f t : Expr}

/-- The number of a product, if there is one, comes first. -/
theorem Shaped.numbers_cases {s : Bool} {fs : List Expr} (h : Shaped number raise (product s fs)) :
    numbers fs = [] ∨ ∃ q gs, fs = rational q :: gs ∧ numbers gs = [] := by
  obtain ⟨-, -, ho, hf⟩ := shaped_product_iff.1 h
  have heq := ho.eq_numbers_append_others
  cases hn : numbers fs with
  | nil => exact .inl rfl
  | cons q qs =>
    have hqs : qs = [] := List.length_eq_zero_iff.1 (by simpa [hn] using hf.oneNumber)
    rw [hn, hqs] at heq
    refine .inr ⟨q, others fs, heq.symm, ?_⟩
    exact numbers_eq_nil fun e he => (mem_others.1 he).2

/-- The factors of a shaped expression are shaped. -/
theorem Shaped.shaped_factors (h : Shaped number raise f) :
    ∀ e ∈ f.factors, Shaped number raise e := by
  cases f with
  | product s fs => exact (shaped_product_iff.1 h).1
  | rational => exact List.forall_mem_singleton.2 h
  | symbol => exact List.forall_mem_singleton.2 h
  | sum => exact List.forall_mem_singleton.2 h
  | power => exact List.forall_mem_singleton.2 h

/-- The factors of a shaped expression are in order. -/
theorem Shaped.ordered_factors (h : Shaped number raise f) : Ordered f.factors := by
  cases f with
  | product s fs => exact (shaped_product_iff.1 h).2.2.1
  | rational => exact .singleton _
  | symbol => exact .singleton _
  | sum => exact .singleton _
  | power => exact .singleton _

/-- A shaped expression has a factor. -/
theorem Shaped.factors_ne_nil (h : Shaped number raise f) : f.factors ≠ [] := by
  cases f with
  | product s fs =>
    intro he
    have hl := (shaped_product_iff.1 h).2.1
    rw [show fs = [] from he] at hl
    exact absurd hl (by decide)
  | _ => exact List.cons_ne_nil _ _

/-- The factors of an expression without a coefficient have the form of a product. -/
theorem Core.productForm_factors (h : Core f) (hf : Shaped number raise f) :
    ProductForm f.factors := by
  by_cases hp : f.shape = .product
  · cases f <;> cases hp
    exact (shaped_product_iff.1 hf).2.2.2
  · have hn := h.noCoefficient
    rw [factors_of_ne_product hp] at hn ⊢
    exact {
      unsigned := List.forall_mem_singleton.2 h.unsigned
      noProduct := List.forall_mem_singleton.2 hp
      oneNumber := by rw [hn]; exact Nat.zero_le _
      noUnit := by rw [hn]; simp
      distinct := by rw [others_eq_self hn]; exact List.nodup_singleton _ }

/-- A coefficient on an expression without one gives a shaped expression. -/
theorem Core.shaped_scaled (h : Core f) (hf : Shaped (fun q => q.reduce = q) raise f)
    (c : Fraction) : Shaped (fun q => q.reduce = q) raise (scaled c f) := by
  rw [scaled]
  split
  · rfl
  split
  · exact hf.sign_other h.noNumber _
  rename_i hz ho
  have hq : (c.reduce.withSign false).num ≠ (c.reduce.withSign false).den := by
    intro he
    exact ho (Nat.div_left_inj (Nat.gcd_dvd_left _ _) (Nat.gcd_dvd_right _ _) |>.1 he)
  have hq₀ : (c.reduce.withSign false).num ≠ 0 := fun he => hz (Fraction.reduce_num_eq_zero.1 he)
  refine shaped_product_iff.2 ⟨List.forall_mem_cons.2 ⟨?_, hf.shaped_factors⟩, ?_, ?_, ?_⟩
  · exact Fraction.reduce_eq_self_iff.2 ⟨c.reduce_coprime, fun _ => rfl⟩
  · have := List.length_pos_iff.2 hf.factors_ne_nil
    rw [List.length_cons]
    omega
  · exact ordered_cons_rational hf.ordered_factors _ h.noCoefficient
  · exact (h.productForm_factors hf).cons_rational h.noCoefficient rfl
      (by simpa [Fraction.isZero] using hq₀) (by simpa [Fraction.isOne] using hq)

/-- A product of the given factors, or the only one. -/
def joined : List Expr → Expr
  | [f] => f
  | fs => .product false fs

/-- Joining factors that are no products and taking the factors again changes nothing. -/
theorem factors_joined {gs : List Expr} (h : ∀ g ∈ gs, g.shape ≠ .product) :
    (joined gs).factors = gs := by
  match gs with
  | [] => rfl
  | [g] => exact factors_of_ne_product (h g (List.mem_singleton_self g))
  | _ :: _ :: _ => rfl

theorem unit_mul (s : Bool) {q : Fraction} (h : q.negated = false) :
    (Fraction.ofNat 1).withSign s * q = q.withSign s :=
  Fraction.ext (by simp [h]) (Nat.one_mul _) (Nat.one_mul _)

/-- An addend without a number of its own has the coefficient one or minus one. -/
theorem Shaped.term_of_numbers_nil (h : Shaped number raise t) (hn : numbers t.factors = []) :
    t.term = (t.sign false, (Fraction.ofNat 1).withSign t.negated) := by
  cases t with
  | product s fs =>
    simp only [term, h.withSign_eq, Expr.sign]
    split
    · rename_i heq
      cases heq
      cases hn
    · rename_i heq
      cases heq
      cases hn
    · rfl
  | _ => simp only [term, h.withSign_eq, Expr.sign]

/-- An addend that starts with a number has it as its coefficient. -/
theorem Shaped.term_of_rational {s : Bool} {q : Fraction} {gs : List Expr}
    (h : Shaped number raise (product s (rational q :: gs))) :
    (product s (rational q :: gs)).term = (joined gs, q.withSign s) := by
  obtain ⟨hes, -, ho, hf⟩ := shaped_product_iff.1 h
  have hq : q.negated = false := hf.unsigned _ List.mem_cons_self
  have hgs : ∀ e ∈ gs, copy e = e := fun e he => (hes e (List.mem_cons_of_mem _ he)).copy_eq
  simp only [term, h.withSign_eq, Expr.sign]
  split
  · rename_i heq
    cases heq
    rw [unit_mul _ hq]
    rfl
  · rename_i hne heq
    cases heq
    rw [unit_mul _ hq, mkProduct, copyAll_eq hgs, ho.tail.sort_eq, joined]
    · rfl
    · exact fun g hg => hne g hg
  · rename_i hne
    exact absurd rfl (hne _ _ _)

/-- What holds of a product if it holds of its factors, whatever the signs, holds of the factor of
an addend. -/
theorem Shaped.forall_term {P : Expr → Prop} (h : Shaped number raise t) (hn : t.isNumber = false)
    (hsign : ∀ s e, P e → P (e.sign s)) (hproduct : ∀ s es, P (product s es) ↔ ∀ e ∈ es, P e)
    (ht : P t) : P t.term.1 := by
  by_cases hf : numbers t.factors = []
  · rw [h.term_of_numbers_nil hf]
    exact hsign false t ht
  · cases t with
    | product s fs =>
      obtain hfs | ⟨q, gs, rfl, -⟩ := h.numbers_cases
      · exact absurd hfs hf
      rw [h.term_of_rational]
      have hgs := (List.forall_mem_cons.1 ((hproduct _ _).1 ht)).2
      match gs with
      | [g] => exact hgs g (List.mem_singleton_self g)
      | [] | _ :: _ :: _ => exact (hproduct _ _).2 hgs
    | rational => cases hn
    | _ => exact absurd rfl hf

/-- An expression without numbers among its factors is a core once its sign is off. -/
theorem core_sign (hn : t.isNumber = false) (hf : numbers t.factors = []) :
    Core (t.sign false) where
  noNumber := by rw [sign_isNumber, hn]
  unsigned := sign_negated _ _
  noCoefficient := by
    cases t with
    | product => exact hf
    | rational => cases hn
    | _ => rfl

/-- The factors behind a coefficient make a core. -/
theorem Shaped.core_joined {s : Bool} {q : Fraction} {gs : List Expr}
    (h : Shaped number raise (product s (rational q :: gs))) (hn : numbers gs = []) :
    Core (joined gs) ∧ Shaped number raise (joined gs) := by
  obtain ⟨hes, hl, ho, hf⟩ := shaped_product_iff.1 h
  have hgs : ∀ e ∈ gs, Shaped number raise e := (List.forall_mem_cons.1 hes).2
  have hn' : numbers (joined gs).factors = [] := by
    rw [factors_joined (List.forall_mem_cons.1 hf.noProduct).2, hn]
  match gs with
  | [] => exact absurd hl (by simp)
  | [g] =>
    refine ⟨⟨?_, ?_, hn'⟩, hgs g (List.mem_singleton_self g)⟩
    · have := others_eq_self hn ▸ List.mem_singleton_self g
      exact (mem_others.1 this).2
    · exact hf.tail.unsigned g (List.mem_singleton_self g)
  | _ :: _ :: _ =>
    exact ⟨⟨rfl, rfl, hn'⟩, shaped_product_iff.2 ⟨hgs, by simp, ho.tail, hf.tail⟩⟩

/-- The heaviest that a factor with a coefficient can be written. -/
def termMass (t : Expr × Fraction) : Nat :=
  mass t.1 + if t.2.num = t.2.den then 0 else if t.1.shape = .product then 1 else 2

/-- A coefficient weighs no more than the entry for the term. -/
theorem mass_scaled_le (c : Fraction) (f : Expr) : mass (scaled c f) ≤ termMass (f, c) := by
  rw [scaled, termMass]
  have := mass_pos f
  split
  · exact Nat.le_trans this (Nat.le_add_right _ _)
  split
  · rw [mass_sign]
    exact Nat.le_refl _
  simp only [mass, massAll_cons]
  split
  · rename_i hp
    cases f <;> cases hp
    simp only [factors, mass]
    omega
  · rename_i hp
    rw [factors_of_ne_product hp, massAll_cons, massAll_nil]
    omega

/-- Splitting an addend loses nothing: its parts are those of a factor with a coefficient, and they
weigh as much. -/
theorem Shaped.term_spec (h : Shaped number raise t) (hn : t.isNumber = false) :
    Core t.term.1 ∧ Shaped number raise t.term.1 ∧ termMass t.term = mass t := by
  by_cases hf : numbers t.factors = []
  · rw [h.term_of_numbers_nil hf]
    exact ⟨core_sign hn hf, h.sign_other hn false, by simp [termMass]⟩
  · cases t with
    | product s fs =>
      obtain hfs | ⟨q, gs, rfl, hgs⟩ := h.numbers_cases
      · exact absurd hfs hf
      obtain ⟨-, -, -, hform⟩ := shaped_product_iff.1 h
      have hs : q.negated = false := hform.unsigned _ List.mem_cons_self
      have ho : q.num ≠ q.den := by
        simpa [Fraction.isOne, hs] using (hform.noUnit q List.mem_cons_self).2
      rw [h.term_of_rational]
      obtain ⟨hcore, hjoined⟩ := h.core_joined hgs
      refine ⟨hcore, hjoined, ?_⟩
      change mass (joined gs) + (if q.num = q.den then 0 else _) = _
      rw [if_neg ho]
      match gs with
      | [] => exact absurd (shaped_product_iff.1 h).2.1 (by simp)
      | [g] =>
        have hg : (joined [g]).shape ≠ .product :=
          hform.tail.noProduct g (List.mem_singleton_self g)
        rw [if_neg hg]
        simp only [joined, mass, massAll_cons, massAll_nil]
        omega
      | _ :: _ :: _ =>
        simp only [joined, shape, if_true, mass, massAll_cons]
        omega
    | rational => cases hn
    | symbol => exact absurd rfl hf
    | sum => exact absurd rfl hf
    | power => exact absurd rfl hf

/-- Where numbers are in lowest terms, the parts of an addend give it back. -/
theorem Shaped.scaled_term (h : Shaped (fun q => q.reduce = q) raise t) (hn : t.isNumber = false) :
    scaled t.term.2 t.term.1 = t := by
  by_cases hf : numbers t.factors = []
  · rw [h.term_of_numbers_nil hf, scaled, if_neg (by simp), if_pos (by simp)]
    simp
  · cases t with
    | product s fs =>
      obtain hfs | ⟨q, gs, rfl, hgs⟩ := h.numbers_cases
      · exact absurd hfs hf
      obtain ⟨hes, -, -, hform⟩ := shaped_product_iff.1 h
      have hs : q.negated = false := hform.unsigned _ List.mem_cons_self
      obtain ⟨hz, ho⟩ := hform.noUnit q List.mem_cons_self
      have hz : q.num ≠ 0 := by simpa [Fraction.isZero] using hz
      have ho : q.num ≠ q.den := by simpa [Fraction.isOne, hs] using ho
      have hq : q.reduce = q := (List.forall_mem_cons.1 hes).1
      have hqs : (q.withSign s).reduce.withSign false = q := by
        have hr : (q.withSign s).reduce = q.withSign s :=
          Fraction.reduce_eq_self_iff.2 ⟨(Fraction.reduce_eq_self_iff.1 hq).1,
            fun h0 => absurd h0 hz⟩
        rw [hr]
        exact Fraction.ext hs.symm rfl rfl
      rw [h.term_of_rational]
      change scaled (q.withSign s) (joined gs) = _
      rw [scaled_of_ne (c := q.withSign s) hz ho, hqs,
        factors_joined (List.forall_mem_cons.1 hform.noProduct).2]
      rfl
    | rational => cases hn
    | symbol => exact absurd rfl hf
    | sum => exact absurd rfl hf
    | power => exact absurd rfl hf

end Shaped

namespace Bare

variable {f : Expr} (h : Bare f)

include h

theorem normal_factors : ∀ e ∈ f.factors, Normal e :=
  fun e he => (normal_iff_shaped e).2 (h.normal.shaped.shaped_factors e he)

theorem ordered_factors : Ordered f.factors := h.normal.shaped.ordered_factors

/-- The factors of a bare expression have the form of a product. -/
theorem productForm_factors : ProductForm f.factors := h.toCore.productForm_factors h.normal.shaped

theorem factors_ne_nil : f.factors ≠ [] := h.normal.shaped.factors_ne_nil

end Bare

/-- The parts of a normal addend are normal, and give it back. -/
theorem Normal.term_spec {t : Expr} (h : Normal t) (hn : t.isNumber = false) :
    Bare t.term.1 ∧ scaled t.term.2 t.term.1 = t := by
  obtain ⟨hcore, hshaped, -⟩ := h.shaped.term_spec hn
  exact ⟨⟨hcore, (normal_iff_shaped _).2 hshaped⟩, h.shaped.scaled_term hn⟩

end SymScript.Expr
