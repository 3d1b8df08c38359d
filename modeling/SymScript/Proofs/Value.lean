import Mathlib.Algebra.Field.Basic
import Mathlib.Algebra.BigOperators.Group.Finset.Defs
import Mathlib.Data.Rat.Cast.CharZero
import SymScript.Proofs.Collect

/-!
# The value of an expression

An expression has a value in every field, once its letters have values there.  Copying and sorting
keep the value, a sign changes it to its opposite, and what is sorted out of a list of addends or
factors adds up or multiplies to the same value as the list.

Powers have whole exponents here: `value` reads an exponent by `integer`, which says nothing about
other exponents.  `Defined` says that no power of zero has a negative exponent.
-/

namespace SymScript.Expr

section Signed

variable {R : Type*} [Ring R]

/-- The opposite of a value, if the sign says so. -/
def signed (s : Bool) (a : R) : R := if s then -a else a

@[simp] theorem signed_false (a : R) : signed false a = a := rfl

@[simp] theorem signed_true (a : R) : signed true a = -a := rfl

/-- Two signs are one. -/
@[simp] theorem signed_signed (s t : Bool) (a : R) : signed s (signed t a) = signed (s != t) a := by
  cases s <;> cases t <;> simp

@[simp] theorem signed_zero (s : Bool) : signed s (0 : R) = 0 := by
  cases s <;> simp

/-- The sign of a factor is the sign of the product. -/
theorem signed_mul (s : Bool) (a b : R) : signed s a * b = signed s (a * b) := by
  cases s <;> simp

theorem mul_signed (s : Bool) (a b : R) : a * signed s b = signed s (a * b) := by
  cases s <;> simp

end Signed

variable {K : Type*} [Field K]

/-- The whole number that an exponent stands for. -/
def integer : Expr → ℤ
  | rational q => q.signedNum / q.den
  | _ => 0

mutual

/-- The value of an expression whose letters have the values `ρ`. -/
def value (ρ : Char → K) : Expr → K
  | rational q => (q.toRat : K)
  | symbol s c => signed s (ρ c)
  | sum s es => signed s (valueSum ρ es)
  | product s es => signed s (valueProduct ρ es)
  | power s b x => signed s (value ρ b ^ integer x)

def valueSum (ρ : Char → K) : List Expr → K
  | [] => 0
  | e :: es => value ρ e + valueSum ρ es

def valueProduct (ρ : Char → K) : List Expr → K
  | [] => 1
  | e :: es => value ρ e * valueProduct ρ es

end

variable {ρ : Char → K}

/-! ### Lists -/

/-- The value of addends is the sum of their values. -/
theorem valueSum_eq (es : List Expr) : valueSum ρ es = (es.map (value ρ)).sum := by
  induction es with
  | nil => rfl
  | cons e es ih => rw [valueSum, ih, List.map_cons, List.sum_cons]

/-- The value of factors is the product of their values. -/
theorem valueProduct_eq (es : List Expr) : valueProduct ρ es = (es.map (value ρ)).prod := by
  induction es with
  | nil => rfl
  | cons e es ih => rw [valueProduct, ih, List.map_cons, List.prod_cons]

theorem valueSum_append (es fs : List Expr) :
    valueSum ρ (es ++ fs) = valueSum ρ es + valueSum ρ fs := by
  rw [valueSum_eq, List.map_append, List.sum_append, ← valueSum_eq, ← valueSum_eq]

theorem valueProduct_append (es fs : List Expr) :
    valueProduct ρ (es ++ fs) = valueProduct ρ es * valueProduct ρ fs := by
  rw [valueProduct_eq, List.map_append, List.prod_append, ← valueProduct_eq, ← valueProduct_eq]

/-- The value of addends does not depend on their arrangement. -/
theorem valueSum_perm {es fs : List Expr} (h : es.Perm fs) : valueSum ρ es = valueSum ρ fs := by
  rw [valueSum_eq, valueSum_eq, (h.map _).sum_eq]

/-- The value of factors does not depend on their arrangement. -/
theorem valueProduct_perm {es fs : List Expr} (h : es.Perm fs) :
    valueProduct ρ es = valueProduct ρ fs := by
  rw [valueProduct_eq, valueProduct_eq, (h.map _).prod_eq]

/-- Sorting addends keeps their value. -/
theorem valueSum_sort (es : List Expr) : valueSum ρ (sort es) = valueSum ρ es :=
  valueSum_perm (sort_perm es)

/-- Sorting factors keeps their value. -/
theorem valueProduct_sort (es : List Expr) : valueProduct ρ (sort es) = valueProduct ρ es :=
  valueProduct_perm (sort_perm es)

/-! ### Copies and signs -/

theorem integer_copy (x : Expr) : integer (copy x) = integer x := by
  cases x <;> simp [copy, integer]

mutual

/-- A copy has the value of the original. -/
theorem value_copy : ∀ e : Expr, value ρ (copy e) = value ρ e
  | rational _ => rfl
  | symbol .. => rfl
  | sum s es => by rw [copy, value, valueSum_sort, valueSum_copyAll es, value]
  | product s es => by rw [copy, value, valueProduct_sort, valueProduct_copyAll es, value]
  | power s b x => by rw [copy, value, value_copy b, integer_copy, value]

theorem valueSum_copyAll : ∀ es : List Expr, valueSum ρ (copyAll es) = valueSum ρ es
  | [] => rfl
  | e :: es => by rw [copyAll, valueSum, value_copy e, valueSum_copyAll es, valueSum]

theorem valueProduct_copyAll : ∀ es : List Expr, valueProduct ρ (copyAll es) = valueProduct ρ es
  | [] => rfl
  | e :: es => by rw [copyAll, valueProduct, value_copy e, valueProduct_copyAll es, valueProduct]

end

/-- Another sign on a number is a sign on its value. -/
theorem cast_toRat_withSign (s : Bool) (q : Fraction) :
    ((q.withSign s).toRat : K) = signed (s != q.negated) (q.toRat : K) := by
  rw [Fraction.toRat_withSign]
  cases s <;> cases q.negated <;> simp

/-- Another sign on an expression is a sign on its value. -/
theorem value_sign (s : Bool) (e : Expr) :
    value ρ (e.sign s) = signed (s != e.negated) (value ρ e) := by
  cases e with
  | rational q => exact cast_toRat_withSign s q
  | _ => simp [Expr.sign, value, negated]

theorem copy_negated (e : Expr) : (copy e).negated = e.negated := by
  cases e <;> simp [copy, negated]

/-- A copy with another sign has the value with that sign. -/
theorem value_withSign (s : Bool) (e : Expr) :
    value ρ (e.withSign s) = signed (s != e.negated) (value ρ e) := by
  rw [withSign, value_sign, copy_negated, value_copy]

/-- The opposite of an expression has the opposite value. -/
theorem value_flip (e : Expr) : value ρ e.flip = -value ρ e := by
  rw [flip, value_withSign]
  cases e.negated <;> rfl

/-- The value of a sum that is made of a list. -/
theorem value_mkSum (s : Bool) (es : List Expr) :
    value ρ (mkSum s es) = signed s (valueSum ρ es) := by
  rw [mkSum, value, valueSum_sort, valueSum_copyAll]

/-- The value of a product that is made of a list. -/
theorem value_mkProduct (s : Bool) (es : List Expr) :
    value ρ (mkProduct s es) = signed s (valueProduct ρ es) := by
  rw [mkProduct, value, valueProduct_sort, valueProduct_copyAll]

/-- The value of a power that is made of a base and an exponent. -/
theorem value_mkPower (s : Bool) (b x : Expr) :
    value ρ (mkPower s b x) = signed s (value ρ b ^ integer x) := by
  rw [mkPower, value, value_copy, integer_copy]

@[simp] theorem value_ofNat (n : Nat) : value ρ (.ofNat n) = n := by
  rw [ofNat, value, Fraction.toRat_ofNat, Rat.cast_natCast]

/-- The sum of a list, its only member or zero, has the value of the addends. -/
theorem value_joinSum (s : Bool) (es : List Expr) :
    value ρ (joinSum s es) = signed s (valueSum ρ es) := by
  match es with
  | [] => simp [joinSum, valueSum]
  | [e] =>
    rw [joinSum, value_withSign, valueSum, valueSum, add_zero]
    cases s <;> cases e.negated <;> rfl
  | _ :: _ :: _ => exact value_mkSum s _

/-- The factors of a product carry no signs of their own when they are joined. -/
theorem value_joinProduct (s : Bool) {es : List Expr} (h : ∀ e ∈ es, e.negated = false) :
    value ρ (joinProduct s es) = signed s (valueProduct ρ es) := by
  match es with
  | [] => exact value_mkProduct s _
  | [e] =>
    rw [joinProduct, value_withSign, h e (List.mem_singleton_self e), Bool.bne_false, valueProduct,
      valueProduct, mul_one]
  | _ :: _ :: _ => exact value_mkProduct s _

/-! ### What is sorted out of a list -/

/-- Joining the values of equal keys keeps a product over the keys. -/
theorem prod_gather {β : Type} {M : Type*} [CommMonoid M] {join : β → β → β} {w : Expr × β → M}
    {k : Expr} {v : β} (hw : ∀ u, w (k, join u v) = w (k, u) * w (k, v)) (l : List (Expr × β)) :
    ((gather join k v l).map w).prod = (l.map w).prod * w (k, v) := by
  induction l with
  | nil => simp [gather]
  | cons ku l ih =>
    obtain ⟨k', u⟩ := ku
    rw [gather]
    split
    · rename_i hk
      obtain rfl : k' = k := by simpa using hk
      rw [List.map_cons, List.prod_cons, hw, List.map_cons, List.prod_cons, mul_right_comm]
    · rw [List.map_cons, List.prod_cons, ih, List.map_cons, List.prod_cons, mul_assoc]

/-- Gathering keeps every product of weights that joining turns into products. -/
theorem prod_gatherAll {β : Type} {M : Type*} [CommMonoid M] {join : β → β → β} {w : Expr × β → M}
    (hw : ∀ k u v, w (k, join u v) = w (k, u) * w (k, v)) (kvs : List (Expr × β)) :
    ((gatherAll join kvs).map w).prod = (kvs.map w).prod := by
  induction kvs using List.reverseRecOn with
  | nil => rfl
  | append_singleton kvs kv ih =>
    rw [gatherAll, List.foldl_append, List.foldl_cons, List.foldl_nil,
      prod_gather (fun u => hw _ u _), ← gatherAll, ih, List.map_append, List.prod_append,
      List.map_singleton, List.prod_singleton]

/-- Joining the values of equal keys keeps a sum over the keys. -/
theorem sum_gatherAll_eq {β : Type} {M : Type*} [AddCommMonoid M] {join : β → β → β}
    {w : Expr × β → M} (hw : ∀ k u v, w (k, join u v) = w (k, u) + w (k, v))
    (kvs : List (Expr × β)) : ((gatherAll join kvs).map w).sum = (kvs.map w).sum := by
  have h := prod_gatherAll (w := Multiplicative.ofAdd ∘ w)
    (fun k u v => congrArg Multiplicative.ofAdd (hw k u v)) kvs
  rw [← List.map_map, ← List.map_map, ← ofAdd_list_prod, ← ofAdd_list_prod] at h
  exact Multiplicative.ofAdd.injective h

/-- Numbers added up have the sum of their values. -/
theorem cast_foldl_add [CharZero K] (q : Fraction) (qs : List Fraction) :
    ((qs.foldl (· + ·) q).toRat : K) = q.toRat + valueSum ρ (qs.map rational) := by
  induction qs generalizing q with
  | nil => simp [valueSum]
  | cons r qs ih =>
    rw [List.foldl_cons, ih, Fraction.toRat_add, Rat.cast_add, List.map_cons, valueSum, value,
      add_assoc]

/-- Numbers multiplied have the product of their values. -/
theorem cast_foldl_mul [CharZero K] (q : Fraction) (qs : List Fraction) :
    ((qs.foldl (· * ·) q).toRat : K) = q.toRat * valueProduct ρ (qs.map rational) := by
  induction qs generalizing q with
  | nil => simp [valueProduct]
  | cons r qs ih =>
    rw [List.foldl_cons, ih, Fraction.toRat_mul, Rat.cast_mul, List.map_cons, valueProduct, value,
      mul_assoc]

/-- The addends of a nested sum take over its sign. -/
theorem valueSum_openedSum (s : Bool) (es : List Expr) :
    valueSum ρ (openedSum (sum s es)) = signed s (valueSum ρ es) := by
  cases s with
  | false => rfl
  | true =>
    change valueSum ρ (es.map flip) = -valueSum ρ es
    induction es with
    | nil => simp [valueSum]
    | cons e es ih => rw [List.map_cons, valueSum, ih, value_flip, valueSum, neg_add]

/-- Addends have the value of what is sorted out of them. -/
theorem valueSum_addends (es : List Expr) : valueSum ρ es = valueSum ρ (es.flatMap openedSum) +
    valueSum ρ ((numbers es).map rational) + valueSum ρ (properAddends es) := by
  induction es with
  | nil => exact ((add_zero _).trans (add_zero _)).symm
  | cons e es ih =>
    rw [valueSum, ih, List.flatMap_cons, valueSum_append]
    cases e with
    | rational q =>
      change _ = 0 + _ + (_ + valueSum ρ ((numbers es).map rational)) + valueSum ρ
        (properAddends es)
      ring
    | sum s as =>
      rw [valueSum_openedSum, value]
      change _ = _ + _ + valueSum ρ ((numbers es).map rational) + valueSum ρ (properAddends es)
      ring
    | _ =>
      change _ = 0 + _ + valueSum ρ ((numbers es).map rational) +
        (_ + valueSum ρ (properAddends es))
      ring

/-- Factors without signs have the value of what is sorted out of them. -/
theorem valueProduct_factors {es : List Expr} (h : ∀ e ∈ es, e.negated = false) :
    valueProduct ρ es = valueProduct ρ (es.flatMap openedProduct) *
      valueProduct ρ ((numbers es).map rational) * valueProduct ρ (properFactors es) := by
  induction es with
  | nil => exact ((mul_one _).trans (mul_one _)).symm
  | cons e es ih =>
    obtain ⟨he, hes⟩ := List.forall_mem_cons.1 h
    rw [valueProduct, ih hes, List.flatMap_cons, valueProduct_append]
    cases e with
    | rational q =>
      change _ = 1 * _ * (_ * valueProduct ρ ((numbers es).map rational)) *
        valueProduct ρ (properFactors es)
      ring
    | product s as =>
      obtain rfl : s = false := he
      rw [value, signed_false]
      change _ = valueProduct ρ as * _ * valueProduct ρ ((numbers es).map rational) *
        valueProduct ρ (properFactors es)
      ring
    | _ =>
      change _ = 1 * _ * valueProduct ρ ((numbers es).map rational) *
        (_ * valueProduct ρ (properFactors es))
      ring

/-- A product has the sign of its factors. -/
theorem signed_productSign (s : Bool) (es : List Expr) :
    signed (productSign s es) (valueProduct ρ (unsigned es)) = signed s (valueProduct ρ es) := by
  induction es generalizing s with
  | nil => rfl
  | cons e es ih =>
    rw [productSign, List.foldl_cons, ← productSign, unsigned, List.map_cons, ← unsigned,
      valueProduct, ← mul_signed, ih, value_withSign, valueProduct, signed_mul, mul_signed,
      signed_signed]
    cases s <;> cases e.negated <;> rfl

/-! ### Factors with coefficients -/

/-- The factors of an expression without a sign have its value. -/
theorem valueProduct_factors_of_unsigned {f : Expr} (h : f.negated = false) :
    valueProduct ρ f.factors = value ρ f := by
  cases f with
  | product s fs =>
    obtain rfl : s = false := h
    rfl
  | _ => simp [factors, valueProduct]

/-- A coefficient multiplies the value. -/
theorem value_scaled (c : Fraction) {f : Expr} (h : f.negated = false) :
    value ρ (scaled c f) = c.toRat * value ρ f := by
  rw [scaled]
  split
  · rename_i hz
    have hc : c.toRat = 0 := by simp [Fraction.toRat, Fraction.signedNum, hz]
    rw [hc, value_ofNat]
    simp
  split
  · rename_i hz ho
    have hone : (c.withSign false).toRat = 1 := by
      simp [Fraction.toRat, Fraction.signedNum, ho, c.den_cast_ne]
    have hc : (c.toRat : K) = signed c.negated 1 := by
      rw [← Rat.cast_one, ← hone, cast_toRat_withSign, signed_signed]
      cases c.negated <;> rfl
    rw [value_sign, h, Bool.bne_false, hc, signed_mul, one_mul]
  · rename_i hz ho
    have hs : c.reduce.negated = c.negated := by
      rw [Fraction.reduce_negated, show (c.num != 0) = true by simpa using hz, Bool.and_true]
    rw [value, valueProduct, valueProduct_factors_of_unsigned h, value, ← signed_mul,
      cast_toRat_withSign, Fraction.toRat_reduce, hs, signed_signed]
    cases c.negated <;> rfl

/-- The base and the exponent of a factor have its value. -/
theorem value_base {e : Expr} (h : e.negated = false) :
    value ρ e = value ρ e.base ^ integer e.exponent := by
  cases e with
  | power s b x =>
    obtain rfl : s = false := h
    rfl
  | _ => simp [base, exponent, integer, ofNat, Fraction.signedNum]

/-! ### Where a value is defined -/

mutual

/-- No power of zero has a negative exponent. -/
def Defined (ρ : Char → K) : Expr → Prop
  | rational _ | symbol .. => True
  | sum _ es | product _ es => DefinedAll ρ es
  | power _ b x => Defined ρ b ∧ (value ρ b ≠ 0 ∨ 0 ≤ integer x)

def DefinedAll (ρ : Char → K) : List Expr → Prop
  | [] => True
  | e :: es => Defined ρ e ∧ DefinedAll ρ es

end

/-- A list has values if all its members have. -/
theorem definedAll_iff {es : List Expr} : DefinedAll ρ es ↔ ∀ e ∈ es, Defined ρ e := by
  induction es with
  | nil => simp [DefinedAll]
  | cons e es ih => simp [DefinedAll, ih]

/-- A sum has a value where its addends have. -/
theorem defined_sum_iff {s : Bool} {es : List Expr} :
    Defined ρ (sum s es) ↔ ∀ e ∈ es, Defined ρ e := by
  rw [Defined, definedAll_iff]

/-- A product has a value where its factors have. -/
theorem defined_product_iff {s : Bool} {es : List Expr} :
    Defined ρ (product s es) ↔ ∀ e ∈ es, Defined ρ e := by
  rw [Defined, definedAll_iff]

/-- Signs do not matter to having a value. -/
theorem Defined.sign {e : Expr} (h : Defined ρ e) (s : Bool) : Defined ρ (e.sign s) := by
  cases e with
  | rational | symbol => trivial
  | sum | product | power => exact h

mutual

/-- A copy has a value where the original has. -/
theorem Defined.copy : ∀ {e : Expr}, Defined ρ e → Defined ρ (copy e)
  | rational _, _ => trivial
  | symbol .., _ => trivial
  | sum s es, h | product s es, h => by
    rw [Defined] at h
    rw [Expr.copy, Defined, definedAll_iff]
    exact fun e he => definedAll_iff.1 (DefinedAll.copyAll h) e (mem_sort.1 he)
  | power s b x, h => by
    rw [Defined] at h
    rw [Expr.copy, Defined, value_copy, integer_copy]
    exact ⟨Defined.copy h.1, h.2⟩

theorem DefinedAll.copyAll : ∀ {es : List Expr}, DefinedAll ρ es → DefinedAll ρ (copyAll es)
  | [], _ => trivial
  | e :: es, h => by
    rw [DefinedAll] at h
    exact ⟨Defined.copy h.1, DefinedAll.copyAll h.2⟩

end

end SymScript.Expr
