import SymScript.Proofs.Arithmetic

/-!
# Simplification sees children through their results

What a sum, a product or a power simplifies to depends only on what its children simplify to.  A
node can therefore be simplified with its children replaced by their results, which are normal;
where these have values the result has the value that the node makes of them.
-/

namespace SymScript.Expr

/-! ### Enough depth -/

/-- From the bound on, the depth does not matter. -/
theorem simplifyWithin_eq_simplify (e : Expr) {n : Nat} (h : e.simplifyBound ≤ n) :
    simplifyWithin n e = simplify e :=
  simplifyWithin_mono h e (simplify_lightens e).ends

/-- A normal form simplifies to itself. -/
theorem Normal.simplify_eq {e : Expr} (h : Normal e) : simplify e = .ok e := by
  have hbound := mass_lt_simplifyBound e
  exact h.stable.simplifyWithin_eq (by omega)

/-- The bound grows with the size. -/
theorem simplifyBound_mono {e f : Expr} (h : e.size ≤ f.size) : e.simplifyBound ≤ f.simplifyBound :=
  Nat.mul_le_mul (Nat.add_le_add_right h 8) (Nat.add_le_add_right h 8)

/-- A member is no larger than the list. -/
theorem size_le_sizeAll {e : Expr} {es : List Expr} (h : e ∈ es) : e.size ≤ sizeAll es := by
  induction es with
  | nil => cases h
  | cons d es ih =>
    rw [sizeAll]
    rcases List.mem_cons.1 h with rfl | h
    · exact Nat.le_add_right _ _
    · exact (ih h).trans (Nat.le_add_left _ _)

/-- From the bounds of all members on, the depth does not matter for a list. -/
theorem mapM_simplifyWithin {es : List Expr} {n : Nat} (h : ∀ e ∈ es, e.simplifyBound ≤ n) :
    es.mapM (simplifyWithin n) = es.mapM simplify := by
  induction es with
  | nil => rfl
  | cons e es ih =>
    obtain ⟨he, hes⟩ := List.forall_mem_cons.1 h
    rw [List.mapM_cons, List.mapM_cons, simplifyWithin_eq_simplify e he, ih hes]

/-! ### Congruence -/

/-- A sum is simplified by simplifying its addends and finishing the results. -/
theorem simplify_sum_eq (s : Bool) (es : List Expr) {n : Nat} (hn : (sum s es).simplifyBound ≤ n) :
    simplify (sum s es) = es.mapM simplify >>= finishSum (simplifyWithin n) s := by
  rw [← simplifyWithin_eq_simplify _ (Nat.le_succ_of_le hn), simplifyWithin, mapM_simplifyWithin]
  intro e he
  exact (simplifyBound_mono ((size_le_sizeAll he).trans (Nat.le_succ _))).trans hn

/-- A product is simplified by simplifying its factors and finishing the results. -/
theorem simplify_product_eq (s : Bool) (es : List Expr) {n : Nat}
    (hn : (product s es).simplifyBound ≤ n) :
    simplify (product s es) = es.mapM simplify >>= finishProduct (simplifyWithin n) s := by
  rw [← simplifyWithin_eq_simplify _ (Nat.le_succ_of_le hn), simplifyWithin, mapM_simplifyWithin]
  intro e he
  exact (simplifyBound_mono ((size_le_sizeAll he).trans (Nat.le_succ _))).trans hn

/-- A power is simplified by simplifying its parts and finishing the results. -/
theorem simplify_power_eq (s : Bool) (b x : Expr) {n : Nat} (hn : (power s b x).simplifyBound ≤ n) :
    simplify (power s b x) =
      simplify b >>= fun b' => simplify x >>= finishPower (simplifyWithin n) s b' := by
  have hb : b.simplifyBound ≤ n := (simplifyBound_mono (by rw [size]; omega)).trans hn
  have hx : x.simplifyBound ≤ n := (simplifyBound_mono (by rw [size]; omega)).trans hn
  rw [← simplifyWithin_eq_simplify _ (Nat.le_succ_of_le hn), simplifyWithin,
    simplifyWithin_eq_simplify b hb, simplifyWithin_eq_simplify x hx]

/-- A sum depends on the simplified addends only. -/
theorem simplify_sum_congr {es fs : List Expr} (h : es.mapM simplify = fs.mapM simplify)
    (s : Bool) : simplify (sum s es) = simplify (sum s fs) := by
  rw [simplify_sum_eq s es (Nat.le_max_left _ (sum s fs).simplifyBound),
    simplify_sum_eq s fs (Nat.le_max_right (sum s es).simplifyBound _), h]

/-- A product depends on the simplified factors only. -/
theorem simplify_product_congr {es fs : List Expr} (h : es.mapM simplify = fs.mapM simplify)
    (s : Bool) : simplify (product s es) = simplify (product s fs) := by
  rw [simplify_product_eq s es (Nat.le_max_left _ (product s fs).simplifyBound),
    simplify_product_eq s fs (Nat.le_max_right (product s es).simplifyBound _), h]

/-- A power depends on its simplified parts only. -/
theorem simplify_power_congr {b x b' x' : Expr} (hb : simplify b = simplify b')
    (hx : simplify x = simplify x') (s : Bool) :
    simplify (power s b x) = simplify (power s b' x') := by
  rw [simplify_power_eq s b x (Nat.le_max_left _ (power s b' x').simplifyBound),
    simplify_power_eq s b' x' (Nat.le_max_right (power s b x).simplifyBound _), hb, hx]

/-! ### Copies -/

mutual

/-- Copying again changes nothing. -/
theorem copy_copy : ∀ e : Expr, copy (copy e) = copy e
  | rational _ => rfl
  | symbol .. => rfl
  | sum s es | product s es => by
    rw [copy, copy, copyAll_eq fun e he => copy_of_mem_copyAll es e (mem_sort.1 he),
      (ordered_sort _).sort_eq]
  | power s b x => by rw [copy, copy, copy_copy b, copy_copy x]

/-- The members of a copied list are their own copies. -/
theorem copy_of_mem_copyAll : ∀ (es : List Expr), ∀ e ∈ copyAll es, copy e = e
  | [], e, he => by cases he
  | d :: es, e, he => by
    rw [copyAll] at he
    rcases List.mem_cons.1 he with rfl | he
    · exact copy_copy d
    · exact copy_of_mem_copyAll es e he

end

/-- A sum that is made is its own copy. -/
theorem copy_mkSum (s : Bool) (es : List Expr) : copy (mkSum s es) = mkSum s es :=
  copy_copy (sum s es)

/-- A product that is made is its own copy. -/
theorem copy_mkProduct (s : Bool) (es : List Expr) : copy (mkProduct s es) = mkProduct s es :=
  copy_copy (product s es)

/-- A power that is made is its own copy. -/
theorem copy_mkPower (s : Bool) (b x : Expr) : copy (mkPower s b x) = mkPower s b x :=
  copy_copy (power s b x)

theorem copyAll_eq_map (es : List Expr) : copyAll es = es.map copy := by
  induction es with
  | nil => rfl
  | cons e es ih => rw [copyAll, ih, List.map_cons]

/-! ### Values of results -/

/-- The expression simplifies to one with these values, which has a value whatever the values of its
letters. -/
def Yields (e : Expr) (w : (Char → ℚ) → ℚ) : Prop :=
  ∃ r, simplify e = .ok r ∧ Normal r ∧ Total r ∧ ∀ ρ, value ρ r = w ρ

/-- What simplifies alike yields the same values. -/
theorem Yields.congr {e f : Expr} {w : (Char → ℚ) → ℚ} (hf : Yields f w)
    (h : simplify e = simplify f) : Yields e w := by
  rw [Yields, h]
  exact hf

/-- A total expression yields its own values. -/
theorem yields_of_total {e : Expr} (h : Total e) : Yields e fun ρ => value ρ e := by
  obtain ⟨r, hr, hn, hg, hkeeps⟩ := h.1.simplify_defined
  exact ⟨r, hr, hn, ⟨hg, fun ρ => (hkeeps ρ (h.2 ρ)).1⟩, fun ρ => (hkeeps ρ (h.2 ρ)).2⟩

section Lists

variable {es : List Expr} {ws : List ((Char → ℚ) → ℚ)}

/-- The results of a list, which can stand in its place. -/
theorem exists_results (h : List.Forall₂ Yields es ws) :
    ∃ rs : List Expr, es.mapM simplify = rs.mapM simplify ∧ (∀ r ∈ rs, Total r) ∧
      ∀ ρ, rs.map (value ρ) = ws.map (· ρ) := by
  induction h with
  | nil => exact ⟨[], rfl, List.forall_mem_nil _, fun _ => rfl⟩
  | cons he _ ih =>
    obtain ⟨r, hr, hn, ht, hv⟩ := he
    obtain ⟨rs, hrs, hts, hvs⟩ := ih
    refine ⟨r :: rs, ?_, List.forall_mem_cons.2 ⟨ht, hts⟩, fun ρ => ?_⟩
    · rw [List.mapM_cons, List.mapM_cons, hr, hn.simplify_eq, hrs]
    · rw [List.map_cons, List.map_cons, hv, hvs]

/-- A sum yields the sums of what its addends yield. -/
theorem yields_sum (h : List.Forall₂ Yields es ws) (s : Bool) :
    Yields (sum s es) fun ρ => signed s (ws.map (· ρ)).sum := by
  obtain ⟨rs, hrs, ht, hv⟩ := exists_results h
  have hyields := (yields_of_total (hereditary_total.sum_iff.2 ht)).congr (simplify_sum_congr hrs s)
  simpa only [value, valueSum_eq, hv] using hyields

/-- A product yields the products of what its factors yield. -/
theorem yields_product (h : List.Forall₂ Yields es ws) (s : Bool) :
    Yields (product s es) fun ρ => signed s (ws.map (· ρ)).prod := by
  obtain ⟨rs, hrs, ht, hv⟩ := exists_results h
  have hyields := (yields_of_total (hereditary_total.product_iff.2 ht)).congr
    (simplify_product_congr hrs s)
  simpa only [value, valueProduct_eq, hv] using hyields

/-- Children are copied and sorted when a node is made of them. -/
theorem exists_perm_of_copies (h : List.Forall₂ (fun e w => Yields (copy e) w) es ws) :
    ∃ us, List.Forall₂ Yields (sort (copyAll es)) us ∧ us.Perm ws := by
  have hcopies : List.Forall₂ Yields (copyAll es) ws := by
    rw [copyAll_eq_map]
    exact List.forall₂_map_left_iff.2 h
  exact List.perm_comp_forall₂ (sort_perm _) hcopies

/-- A sum that is made yields the sums of what the copies of its addends yield. -/
theorem yields_mkSum (h : List.Forall₂ (fun e w => Yields (copy e) w) es ws) (s : Bool) :
    Yields (mkSum s es) fun ρ => signed s (ws.map (· ρ)).sum := by
  obtain ⟨us, hus, hperm⟩ := exists_perm_of_copies h
  have hyields := yields_sum hus s
  simpa only [mkSum, (hperm.map _).sum_eq] using hyields

/-- A product that is made yields the products of what the copies of its factors yield. -/
theorem yields_mkProduct (h : List.Forall₂ (fun e w => Yields (copy e) w) es ws) (s : Bool) :
    Yields (mkProduct s es) fun ρ => signed s (ws.map (· ρ)).prod := by
  obtain ⟨us, hus, hperm⟩ := exists_perm_of_copies h
  have hyields := yields_product hus s
  simpa only [mkProduct, (hperm.map _).prod_eq] using hyields

end Lists

/-! ### Expressions that keep their values -/

/-- A copy of the expression simplifies to one with its values. -/
def Faithful (e : Expr) : Prop := Yields (copy e) fun ρ => value ρ e

/-- A total normal form keeps its values. -/
theorem Normal.faithful {e : Expr} (hn : Normal e) (ht : Total e) : Faithful e := by
  rw [Faithful, hn.copy_eq]
  exact yields_of_total ht

section Faithful

variable {es : List Expr} (h : ∀ e ∈ es, Faithful e)

include h

theorem forall₂_of_faithful :
    List.Forall₂ (fun e w => Yields (copy e) w) es (es.map fun e ρ => value ρ e) :=
  List.forall₂_map_right_iff.2 (List.forall₂_same.2 h)

/-- A sum of members that keep their values yields the sum of these. -/
theorem yields_mkSum_of_faithful (s : Bool) :
    Yields (mkSum s es) fun ρ => signed s (valueSum ρ es) := by
  have hsum := yields_mkSum (forall₂_of_faithful h) s
  simpa only [valueSum_eq, List.map_map, Function.comp_def] using hsum

/-- A product of members that keep their values yields the product of these. -/
theorem yields_mkProduct_of_faithful (s : Bool) :
    Yields (mkProduct s es) fun ρ => signed s (valueProduct ρ es) := by
  have hproduct := yields_mkProduct (forall₂_of_faithful h) s
  simpa only [valueProduct_eq, List.map_map, Function.comp_def] using hproduct

/-- A product of members that keep their values keeps its values. -/
theorem faithful_mkProduct (s : Bool) : Faithful (mkProduct s es) := by
  simpa only [Faithful, copy_mkProduct, value_mkProduct] using yields_mkProduct_of_faithful h s

end Faithful

end SymScript.Expr
