import Mathlib.Algebra.Field.Rat
import Mathlib.Algebra.Order.Field.Basic
import Mathlib.Algebra.Order.Ring.Rat
import Mathlib.Data.Nat.GCD.Basic
import Mathlib.Data.Rat.Lemmas
import Mathlib.Tactic.FieldSimp
import Mathlib.Tactic.Ring
import SymScript.Fraction

/-!
# The rational number of a fraction

`Fraction.toRat` forgets how a fraction is written.  Sums, products and lowest terms are exact, and
a fraction in lowest terms is the only one with its number.
-/

namespace SymScript.Fraction

/-- The number that a fraction stands for. -/
def toRat (q : Fraction) : ℚ := q.signedNum / q.den

theorem den_cast_ne (q : Fraction) : (q.den : ℚ) ≠ 0 := Nat.cast_ne_zero.2 q.den_ne

@[simp] theorem ofNat_num (n : Nat) : (ofNat n).num = n := rfl
@[simp] theorem ofNat_den (n : Nat) : (ofNat n).den = 1 := rfl
@[simp] theorem ofNat_negated (n : Nat) : (ofNat n).negated = false := rfl
@[simp] theorem withSign_num (s : Bool) (q : Fraction) : (q.withSign s).num = q.num := rfl
@[simp] theorem withSign_den (s : Bool) (q : Fraction) : (q.withSign s).den = q.den := rfl
@[simp] theorem withSign_negated (s : Bool) (q : Fraction) : (q.withSign s).negated = s := rfl
@[simp] theorem mul_num (a b : Fraction) : (a * b).num = a.num * b.num := rfl
@[simp] theorem mul_den (a b : Fraction) : (a * b).den = a.den * b.den := rfl
@[simp] theorem mul_negated (a b : Fraction) : (a * b).negated = (a.negated != b.negated) := rfl

/-- A fraction is its sign, its numerator and its denominator. -/
theorem ext {a b : Fraction} (hs : a.negated = b.negated) (hn : a.num = b.num)
    (hd : a.den = b.den) : a = b := by
  cases a
  cases b
  cases hs
  cases hn
  cases hd
  rfl

@[simp] theorem withSign_self (q : Fraction) : q.withSign q.negated = q := rfl

/-- A whole number has its own value. -/
@[simp] theorem toRat_ofNat (n : Nat) : (ofNat n).toRat = n := by
  simp [toRat, signedNum]

/-- The sign of a fraction is the sign of its number. -/
theorem toRat_withSign (s : Bool) (q : Fraction) :
    (q.withSign s).toRat = if s = q.negated then q.toRat else -q.toRat := by
  cases s <;> cases h : q.negated <;> simp [toRat, signedNum, h, neg_div]

/-! ### Arithmetic -/

/-- The value of a product is the product of the values. -/
theorem toRat_mul (a b : Fraction) : (a * b).toRat = a.toRat * b.toRat := by
  have hs : (a * b).signedNum = a.signedNum * b.signedNum := by
    cases ha : a.negated <;> cases hb : b.negated <;> simp [signedNum, ha, hb]
  rw [toRat, toRat, toRat, hs, mul_den, div_mul_div_comm]
  push_cast
  rfl

/-- A numerator over a common denominator. -/
theorem toRat_eq_div {q : Fraction} {d : Nat} (hd : d ≠ 0) (h : q.den ∣ d) :
    q.toRat = ((q.signedNum * (d / q.den : Nat) : ℤ) : ℚ) / d := by
  obtain ⟨k, rfl⟩ := h
  have hk : (k : ℚ) ≠ 0 := Nat.cast_ne_zero.2 (Nat.mul_ne_zero_iff.1 hd).2
  have hq := q.den_cast_ne
  rw [Nat.mul_div_cancel_left k (Nat.pos_of_ne_zero q.den_ne), toRat]
  push_cast
  field_simp

/-- The sum over the least common denominator has its sign apart. -/
theorem signedNum_add (a b : Fraction) :
    (a + b).signedNum = a.signedNum * (Nat.lcm a.den b.den / a.den : Nat) +
      b.signedNum * (Nat.lcm a.den b.den / b.den : Nat) := by
  change (if decide (_ < 0) then -(Int.natAbs _ : Int) else Int.natAbs _) = _
  split <;> rename_i h <;> rw [decide_eq_true_eq] at h <;> omega

theorem natAbs_signedNum (q : Fraction) : q.signedNum.natAbs = q.num := by
  rw [signedNum]
  split <;> simp

/-- Adding to zero changes at most the sign of another zero. -/
theorem ofNat_zero_add {q : Fraction} (h : q.num ≠ 0) : ofNat 0 + q = q := by
  have hn : (ofNat 0 + q).signedNum = q.signedNum := by
    rw [signedNum_add]
    simp [signedNum, Nat.div_self (Nat.pos_of_ne_zero q.den_ne)]
  have hs : (ofNat 0 + q).negated = decide ((ofNat 0 + q).signedNum < 0) := by
    rw [signedNum_add]
    rfl
  refine ext ?_ ?_ (Nat.lcm_one_left _)
  · rw [hs, hn, signedNum]
    cases q.negated <;> simp
    omega
  · rw [← natAbs_signedNum, hn, natAbs_signedNum]

/-- The value of a sum is the sum of the values. -/
theorem toRat_add (a b : Fraction) : (a + b).toRat = a.toRat + b.toRat := by
  have hl : Nat.lcm a.den b.den ≠ 0 := Nat.lcm_ne_zero a.den_ne b.den_ne
  rw [toRat_eq_div hl (Nat.dvd_lcm_left _ _), toRat_eq_div hl (Nat.dvd_lcm_right _ _), ← add_div,
    ← Int.cast_add, ← signedNum_add]
  rfl

/-- Zero is told by the numerator. -/
theorem toRat_eq_zero_iff {q : Fraction} : q.toRat = 0 ↔ q.num = 0 := by
  rw [toRat, div_eq_zero_iff, or_iff_left q.den_cast_ne, Int.cast_eq_zero, ← Int.natAbs_eq_zero,
    natAbs_signedNum]

/-! ### Lowest terms -/

theorem reduce_num (q : Fraction) : q.reduce.num = q.num / Nat.gcd q.num q.den := rfl

theorem reduce_den (q : Fraction) : q.reduce.den = q.den / Nat.gcd q.num q.den := rfl

theorem gcd_pos (q : Fraction) : 0 < Nat.gcd q.num q.den :=
  Nat.gcd_pos_of_pos_right _ (Nat.pos_of_ne_zero q.den_ne)

/-- In lowest terms nothing is left to divide out. -/
theorem reduce_coprime (q : Fraction) : Nat.Coprime q.reduce.num q.reduce.den :=
  Nat.coprime_div_gcd_div_gcd q.gcd_pos

/-- Zero stays zero. -/
@[simp] theorem reduce_num_eq_zero {q : Fraction} : q.reduce.num = 0 ↔ q.num = 0 := by
  rw [reduce_num, Nat.div_eq_zero_iff]
  constructor
  · rintro (h | h)
    · exact absurd h q.gcd_pos.ne'
    · by_contra hn
      exact absurd (Nat.le_of_dvd (Nat.pos_of_ne_zero hn) (Nat.gcd_dvd_left _ _)) (Nat.not_le.2 h)
  · rintro h
    right
    rw [h]
    exact h ▸ q.gcd_pos

/-- The sign is kept, but zero has none. -/
theorem reduce_negated (q : Fraction) : q.reduce.negated = (q.negated && q.num != 0) := by
  have h : (q.reduce.num != 0) = (q.num != 0) := by
    rw [Bool.eq_iff_iff]
    simp only [bne_iff_ne, ne_eq, reduce_num_eq_zero]
  rw [← h]
  rfl

/-- Lowest terms keep the value. -/
theorem toRat_reduce (q : Fraction) : q.reduce.toRat = q.toRat := by
  have hq := q.den_cast_ne
  have hr := q.reduce.den_cast_ne
  have hcross : (q.reduce.num : ℚ) * q.den = q.num * q.reduce.den := by
    rw [reduce_num, reduce_den]
    norm_cast
    rw [Nat.div_mul_right_comm (Nat.gcd_dvd_left _ _), Nat.mul_div_assoc _ (Nat.gcd_dvd_right _ _)]
  have hs := q.reduce_negated
  rw [toRat, toRat, div_eq_div_iff hr hq]
  by_cases h0 : q.num = 0
  · simp [signedNum, h0, reduce_num]
  · rw [show (q.num != 0) = true by simpa using h0, Bool.and_true] at hs
    cases hn : q.negated <;> rw [hn] at hs <;> simp only [signedNum, hs, hn] <;> simp <;>
      exact hcross

/-- A fraction is in lowest terms if its parts have no common divisor and zero is not negated. -/
theorem reduce_eq_self_iff {q : Fraction} :
    q.reduce = q ↔ Nat.Coprime q.num q.den ∧ (q.num = 0 → q.negated = false) := by
  constructor
  · intro h
    rw [← h]
    refine ⟨q.reduce_coprime, fun h0 => ?_⟩
    rw [reduce_negated, reduce_num_eq_zero.1 h0]
    exact Bool.and_false _
  · rintro ⟨hc, hz⟩
    refine ext ?_ (by rw [reduce_num, hc.gcd_eq_one, Nat.div_one])
      (by rw [reduce_den, hc.gcd_eq_one, Nat.div_one])
    rw [reduce_negated]
    by_cases h0 : q.num = 0
    · rw [hz h0, Bool.false_and]
    · rw [show (q.num != 0) = true by simpa using h0, Bool.and_true]

/-- What is in lowest terms stays as it is. -/
@[simp] theorem reduce_reduce (q : Fraction) : q.reduce.reduce = q.reduce := by
  refine reduce_eq_self_iff.2 ⟨q.reduce_coprime, fun h => ?_⟩
  rw [reduce_negated, reduce_num_eq_zero.1 h]
  exact Bool.and_false _

/-- One is told by equal numerator and denominator, before and after. -/
theorem reduce_num_eq_den {q : Fraction} : q.reduce.num = q.reduce.den ↔ q.num = q.den :=
  Nat.div_left_inj (Nat.gcd_dvd_left _ _) (Nat.gcd_dvd_right _ _)

/-- A fraction in lowest terms is the only one with its number. -/
theorem eq_of_toRat_eq {a b : Fraction} (ha : a.reduce = a) (hb : b.reduce = b)
    (h : a.toRat = b.toRat) : a = b := by
  obtain ⟨hac, haz⟩ := reduce_eq_self_iff.1 ha
  obtain ⟨hbc, hbz⟩ := reduce_eq_self_iff.1 hb
  have hcast : (a.signedNum : ℚ) / (a.den : ℤ) = b.signedNum / (b.den : ℤ) := by
    simpa [toRat] using h
  obtain ⟨hnum, hden⟩ := Rat.div_int_inj (by exact_mod_cast Nat.pos_of_ne_zero a.den_ne)
    (by exact_mod_cast Nat.pos_of_ne_zero b.den_ne) (by rwa [natAbs_signedNum])
    (by rwa [natAbs_signedNum]) hcast
  have hn : a.num = b.num := by rw [← natAbs_signedNum, hnum, natAbs_signedNum]
  refine ext ?_ hn (by exact_mod_cast hden)
  by_cases h0 : a.num = 0
  · rw [haz h0, hbz (hn ▸ h0)]
  · simp only [signedNum, hn] at hnum
    cases hs : a.negated <;> cases ht : b.negated <;> simp only [hs, ht] at hnum ⊢ <;>
      (simp at hnum; omega)

/-- Fractions with the same value have the same lowest terms. -/
theorem reduce_eq_of_toRat_eq {a b : Fraction} (h : a.toRat = b.toRat) : a.reduce = b.reduce :=
  eq_of_toRat_eq a.reduce_reduce b.reduce_reduce (by rw [toRat_reduce, toRat_reduce, h])

/-! ### Whole numbers -/

/-- Whole numbers add up to a whole number. -/
theorem add_den_of_whole {a b : Fraction} (ha : a.den = 1) (hb : b.den = 1) : (a + b).den = 1 := by
  change Nat.lcm a.den b.den = 1
  rw [ha, hb, Nat.lcm_one_left]

/-- Whole numbers are added with their signs. -/
theorem signedNum_add_of_whole {a b : Fraction} (ha : a.den = 1) (hb : b.den = 1) :
    (a + b).signedNum = a.signedNum + b.signedNum := by
  rw [signedNum_add, ha, hb]
  simp

/-- Lowest terms of a whole number are whole. -/
theorem reduce_den_of_whole {q : Fraction} (h : q.den = 1) : q.reduce.den = 1 := by
  rw [reduce_den, h, Nat.gcd_one_right, Nat.div_one]

/-- A whole number other than zero is in lowest terms. -/
theorem reduce_of_whole {q : Fraction} (h : q.den = 1) (hn : q.num ≠ 0) : q.reduce = q :=
  reduce_eq_self_iff.2 ⟨h ▸ Nat.coprime_one_right _, fun h0 => absurd h0 hn⟩

/-- Lowest terms keep a whole number. -/
theorem signedNum_reduce_of_whole {q : Fraction} (h : q.den = 1) :
    q.reduce.signedNum = q.signedNum := by
  by_cases hn : q.num = 0
  · simp [signedNum, reduce_num, hn]
  · rw [reduce_of_whole h hn]

end SymScript.Fraction
