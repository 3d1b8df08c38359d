import Mathlib.Data.Nat.Log
import Mathlib.Tactic.NormNum
import Mathlib.Tactic.Ring
import SymScript.Proofs.Arithmetic
import SymScript.Proofs.SimplifyInPlace
import SymScript.Proofs.SortKey

/-!
# Comparisons of numbers

A program compares numbers in the order of children, which is the order of their names.  A name is a
text, so this is the order of a dictionary: a minus comes first, then the numeral of the numerator
decides, then that of the denominator.  Numerals compare as if their first digits stood below each
other: `10` comes before `9`, and `-1` before `-2`.

`Fraction.NameBefore` says the same in terms of numbers, and `Fraction.NamedInOrder` tells a class
of pairs on which it is the order of the values.
-/

namespace SymScript

/-! ### Numerals -/

namespace Numeral

/-- The number that a list of digits spells. -/
def read (cs : List Char) : ℕ := Nat.ofDigitChars 10 cs 0

/-- A numeral by its first digit. -/
theorem read_cons (c : Char) (cs : List Char) :
    read (c :: cs) = (c.toNat - '0'.toNat) * 10 ^ cs.length + read cs := by
  rw [read, Nat.ofDigitChars_cons, Nat.mul_zero, Nat.zero_add,
    Nat.ofDigitChars_eq_ofDigitChars_zero, Nat.mul_comm, read]

/-- A numeral is below the power of ten for its length. -/
theorem read_lt {cs : List Char} (h : ∀ c ∈ cs, c.isDigit = true) : read cs < 10 ^ cs.length := by
  induction cs with
  | nil => exact Nat.one_pos
  | cons c cs ih =>
    obtain ⟨hc, hcs⟩ := List.forall_mem_cons.1 h
    have hdigit : c.toNat - '0'.toNat + 1 ≤ 10 := by
      have hbound : c.toNat ≤ 57 := (Char.isDigit_iff_toNat.1 hc).2
      change c.toNat - 48 + 1 ≤ 10
      omega
    calc read (c :: cs) = (c.toNat - '0'.toNat) * 10 ^ cs.length + read cs := read_cons c cs
      _ < (c.toNat - '0'.toNat) * 10 ^ cs.length + 10 ^ cs.length := Nat.add_lt_add_left (ih hcs) _
      _ = (c.toNat - '0'.toNat + 1) * 10 ^ cs.length := (Nat.succ_mul _ _).symm
      _ ≤ 10 * 10 ^ cs.length := Nat.mul_le_mul_right _ hdigit
      _ = 10 ^ (c :: cs).length := by rw [List.length_cons, pow_succ, Nat.mul_comm]

/-- Numbers with the same number of places compare by the first one. -/
theorem lt_of_leading {x y m u w : ℕ} (hu : u < m) (h : x < y) : x * m + u < y * m + w := by
  calc x * m + u < x * m + m := Nat.add_lt_add_left hu _
    _ = (x + 1) * m := (Nat.succ_mul _ _).symm
    _ ≤ y * m := Nat.mul_le_mul_right _ h
    _ ≤ y * m + w := Nat.le_add_right _ _

/-- Numerals are ordered as fractions after the point, and a numeral before its extensions by
zeros. -/
theorem lt_iff {cs ds : List Char} (hcs : ∀ c ∈ cs, c.isDigit = true)
    (hds : ∀ d ∈ ds, d.isDigit = true) : cs < ds ↔
      read cs * 10 ^ ds.length < read ds * 10 ^ cs.length ∨
        read cs * 10 ^ ds.length = read ds * 10 ^ cs.length ∧ cs.length < ds.length := by
  have hnil : read [] = 0 := rfl
  induction cs generalizing ds with
  | nil =>
    cases ds with
    | nil => simp [hnil]
    | cons d ds =>
      simp only [hnil, Nat.zero_mul, List.length_nil, pow_zero, Nat.mul_one, List.nil_lt_cons,
        true_iff, List.length_cons, Nat.zero_lt_succ, and_true]
      exact (Nat.eq_zero_or_pos _).symm.imp_right Eq.symm
  | cons c cs ih =>
    cases ds with
    | nil => simp [hnil]
    | cons d ds =>
      obtain ⟨hc, hcs⟩ := List.forall_mem_cons.1 hcs
      obtain ⟨hd, hds⟩ := List.forall_mem_cons.1 hds
      have hu : read cs * 10 ^ ds.length < 10 ^ cs.length * 10 ^ ds.length :=
        Nat.mul_lt_mul_of_pos_right (read_lt hcs) (Nat.pow_pos (by decide))
      have hw : read ds * 10 ^ cs.length < 10 ^ cs.length * 10 ^ ds.length := by
        rw [Nat.mul_comm (10 ^ cs.length)]
        exact Nat.mul_lt_mul_of_pos_right (read_lt hds) (Nat.pow_pos (by decide))
      have hleft : read (c :: cs) * 10 ^ (d :: ds).length = ((c.toNat - '0'.toNat) *
          (10 ^ cs.length * 10 ^ ds.length) + read cs * 10 ^ ds.length) * 10 := by
        rw [read_cons, List.length_cons]
        ring
      have hright : read (d :: ds) * 10 ^ (c :: cs).length = ((d.toNat - '0'.toNat) *
          (10 ^ cs.length * 10 ^ ds.length) + read ds * 10 ^ cs.length) * 10 := by
        rw [read_cons, List.length_cons]
        ring
      have hlt : c < d ↔ c.toNat - '0'.toNat < d.toNat - '0'.toNat := by
        have hc0 : '0'.toNat ≤ c.toNat := (Char.isDigit_iff_toNat.1 hc).1
        have hd0 : '0'.toNat ≤ d.toNat := (Char.isDigit_iff_toNat.1 hd).1
        change c.toNat < d.toNat ↔ _
        omega
      have heq : c = d ↔ c.toNat - '0'.toNat = d.toNat - '0'.toNat := by
        have hc0 : '0'.toNat ≤ c.toNat := (Char.isDigit_iff_toNat.1 hc).1
        have hd0 : '0'.toNat ≤ d.toNat := (Char.isDigit_iff_toNat.1 hd).1
        rw [← Char.toNat_inj]
        omega
      rw [List.cons_lt_cons_iff, propext (ih hcs hds), hleft, hright, hlt, heq, List.length_cons,
        List.length_cons]
      generalize c.toNat - '0'.toNat = x
      generalize d.toNat - '0'.toNat = y
      generalize 10 ^ cs.length * 10 ^ ds.length = m at hu hw ⊢
      generalize read cs * 10 ^ ds.length = u at hu ⊢
      generalize read ds * 10 ^ cs.length = w at hw ⊢
      rcases Nat.lt_trichotomy x y with h | h | h
      · have := lt_of_leading (w := w) hu h
        omega
      · subst h
        omega
      · have := lt_of_leading (w := u) hw h
        omega

/-- The length of a numeral. -/
theorem length_toDigits (n : ℕ) : (Nat.toDigits 10 n).length = Nat.log 10 n + 1 := by
  apply Nat.le_antisymm
  · rw [Nat.length_toDigits_le_iff (by decide) (Nat.succ_pos _)]
    exact Nat.lt_pow_succ_log_self (by decide) n
  · by_contra hlt
    have hlog : 0 < Nat.log 10 n := by
      have := Nat.length_toDigits_pos (b := 10) (n := n)
      omega
    have hle : (Nat.toDigits 10 n).length ≤ Nat.log 10 n := by omega
    rw [Nat.length_toDigits_le_iff (by decide) hlog] at hle
    have hn : n ≠ 0 := by
      rintro rfl
      simp at hlog
    exact absurd (Nat.pow_log_le_self 10 hn) (by omega)

/-- The numeral of `m` comes before the one of `n` in a dictionary: it is smaller once the first
digits stand below each other, or `n` has more zeros at its end. -/
def Before (m n : ℕ) : Prop :=
  m * 10 ^ Nat.log 10 n < n * 10 ^ Nat.log 10 m ∨
    m * 10 ^ Nat.log 10 n = n * 10 ^ Nat.log 10 m ∧ m < n

instance : DecidableRel Before := fun m n =>
  inferInstanceAs (Decidable (m * 10 ^ Nat.log 10 n < n * 10 ^ Nat.log 10 m ∨
    m * 10 ^ Nat.log 10 n = n * 10 ^ Nat.log 10 m ∧ m < n))

theorem isDigit_of_mem {n : ℕ} {c : Char} (h : c ∈ Nat.toDigits 10 n) : c.isDigit = true :=
  Nat.isDigit_of_mem_toDigits (by decide) (by decide) h

/-- The order of the texts of two numbers. -/
theorem toDigits_lt_iff (m n : ℕ) : Nat.toDigits 10 m < Nat.toDigits 10 n ↔ Before m n := by
  have hread (k : ℕ) : read (Nat.toDigits 10 k) = k := Nat.ofDigitChars_ten_toDigits
  have hshift (k l : ℕ) : k * 10 ^ (Nat.log 10 l + 1) = k * 10 ^ Nat.log 10 l * 10 := by
    rw [pow_succ, Nat.mul_assoc]
  rw [lt_iff (fun _ => isDigit_of_mem) (fun _ => isDigit_of_mem), hread, hread, length_toDigits,
    length_toDigits, hshift, hshift, Nat.mul_lt_mul_right (by decide),
    Nat.mul_right_cancel_iff (by decide), Nat.add_lt_add_iff_right, Before]
  refine or_congr_right (and_congr_right fun heq => ?_)
  -- With the first digits aligned the numbers are equal, so the longer numeral is the larger
  -- number.
  constructor
  · intro hlog
    by_contra hle
    have := Nat.log_mono_right (b := 10) (Nat.le_of_not_lt hle)
    omega
  · intro hlt
    by_contra hle
    have hpow : 10 ^ Nat.log 10 n ≤ 10 ^ Nat.log 10 m :=
      Nat.pow_le_pow_right (by decide) (Nat.le_of_not_lt hle)
    have := Nat.mul_lt_mul_of_lt_of_le hlt hpow (Nat.pow_pos (by decide))
    omega

/-- Numerals of one length stand in the order of their numbers. -/
theorem before_iff_of_log_eq {m n : ℕ} (h : Nat.log 10 m = Nat.log 10 n) : Before m n ↔ m < n := by
  rw [Before, h, Nat.mul_lt_mul_right (Nat.pow_pos (by decide))]
  exact or_iff_left_of_imp And.right

/-- Texts that start with numerals compare by these first, if what follows is smaller than any
digit. -/
theorem append_lt_append_iff {cs ds r t : List Char} (hr : ∀ x ∈ r.head?, ∀ d ∈ ds, x < d)
    (ht : ∀ x ∈ t.head?, ∀ c ∈ cs, x < c) : cs ++ r < ds ++ t ↔ cs < ds ∨ cs = ds ∧ r < t := by
  induction cs generalizing ds with
  | nil =>
    cases ds with
    | nil => simp
    | cons d ds =>
      cases r with
      | nil => simp
      | cons x r =>
        have hx : x < d := hr x rfl d List.mem_cons_self
        simp [List.cons_lt_cons_iff, hx]
  | cons c cs ih =>
    cases ds with
    | nil =>
      cases t with
      | nil => simp
      | cons x t =>
        have hx : x < c := ht x rfl c List.mem_cons_self
        simp [List.cons_lt_cons_iff, Char.lt_asymm hx, hx.ne']
    | cons d ds =>
      have htail := ih (fun x hx d hd => hr x hx d (List.mem_cons_of_mem _ hd))
        (fun x hx c hc => ht x hx c (List.mem_cons_of_mem _ hc))
      simp only [List.cons_append, List.cons_lt_cons_iff, htail, List.cons.injEq]
      tauto

end Numeral

/-! ### Names of fractions -/

namespace Fraction

/-- The order of names: negated fractions first; with the same sign by the numerals of the
numerators, then by those of the denominators. -/
def NameBefore (p q : Fraction) : Prop :=
  if p.negated = q.negated then
    Numeral.Before p.num q.num ∨ p.num = q.num ∧ Numeral.Before p.den q.den
  else p.negated = true

instance : DecidableRel NameBefore := fun p q =>
  inferInstanceAs (Decidable (if p.negated = q.negated then
    Numeral.Before p.num q.num ∨ p.num = q.num ∧ Numeral.Before p.den q.den else p.negated = true))

/-- The numeral one comes before all others. -/
theorem one_before_iff {n : ℕ} (h : n ≠ 0) : Numeral.Before 1 n ↔ n ≠ 1 := by
  rw [Numeral.Before, Nat.log_one_right, pow_zero, Nat.one_mul, Nat.mul_one]
  have hle := Nat.pow_log_le_self 10 h
  have hpos : 0 < 10 ^ Nat.log 10 n := Nat.pow_pos (by decide)
  omega

/-- Nothing comes before the numeral one. -/
theorem not_before_one {n : ℕ} (h : n ≠ 0) : ¬ Numeral.Before n 1 := by
  rw [Numeral.Before, Nat.log_one_right, pow_zero, Nat.one_mul, Nat.mul_one]
  have := Nat.pow_log_le_self 10 h
  omega

/-- The order of the texts of two fractions, by numerator and then denominator. -/
theorem digits_lt_iff (p q : Fraction) : p.digits.toList < q.digits.toList ↔
    Numeral.Before p.num q.num ∨ p.num = q.num ∧ Numeral.Before p.den q.den := by
  have hslash (d n : ℕ) : ∀ x ∈ (if d = 1 then [] else '/' :: Nat.toDigits 10 d).head?,
      ∀ c ∈ Nat.toDigits 10 n, x < c := by
    intro x hx c hc
    have hbound : 48 ≤ c.toNat := (Char.isDigit_iff_toNat.1 (Numeral.isDigit_of_mem hc)).1
    split at hx
    · cases hx
    · obtain rfl : '/' = x := by simpa using hx
      exact Nat.lt_of_lt_of_le (by decide) hbound
  rw [toList_digits, toList_digits, Numeral.append_lt_append_iff (hslash _ _) (hslash _ _),
    Numeral.toDigits_lt_iff, toDigits_injective.eq_iff]
  refine or_congr_right (and_congr_right fun _ => ?_)
  by_cases hp : p.den = 1
  · by_cases hq : q.den = 1
    · simp [hp, hq, one_before_iff]
    · simp [hp, hq, one_before_iff q.den_ne]
  · by_cases hq : q.den = 1
    · simp [hp, hq, not_before_one p.den_ne]
    · simp [hp, hq, Numeral.toDigits_lt_iff]

/-- The names of fractions stand in the order `NameBefore`. -/
theorem name_lt_iff (p q : Fraction) : p.name < q.name ↔ p.NameBefore q := by
  have hminus (r : Fraction) : ∃ c cs, r.digits.toList = c :: cs ∧ '-' < c := by
    rw [toList_digits]
    cases hdigits : Nat.toDigits 10 r.num with
    | nil => exact absurd hdigits Nat.toDigits_ne_nil
    | cons c cs =>
      have hc : c ∈ Nat.toDigits 10 r.num := hdigits ▸ List.mem_cons_self
      have hbound : 48 ≤ c.toNat := (Char.isDigit_iff_toNat.1 (Numeral.isDigit_of_mem hc)).1
      exact ⟨c, _, rfl, Nat.lt_of_lt_of_le (by decide) hbound⟩
  obtain ⟨c, cs, hp, hc⟩ := hminus p
  obtain ⟨d, ds, hq, hd⟩ := hminus q
  rw [String.lt_iff_toList_lt, toList_name, toList_name, NameBefore]
  cases p.negated <;> cases q.negated
  · simpa using digits_lt_iff p q
  · simp [hp, List.cons_lt_cons_iff, Char.lt_asymm hc, hc.ne']
  · simp [hq, List.cons_lt_cons_iff, hd]
  · simpa [List.cons_lt_cons_iff] using digits_lt_iff p q

/-- Numbers of different signs, or positive ones over one denominator whose numerators have equally
many digits: their names stand in the order of their values. -/
def NamedInOrder (p q : Fraction) : Prop :=
  p.negated ≠ q.negated ∨
    p.negated = false ∧ q.negated = false ∧ p.den = q.den ∧ Nat.log 10 p.num = Nat.log 10 q.num

theorem NamedInOrder.symm {p q : Fraction} (h : NamedInOrder p q) : NamedInOrder q p := by
  rcases h with h | ⟨hp, hq, hden, hlog⟩
  · exact .inl (Ne.symm h)
  · exact .inr ⟨hq, hp, hden.symm, hlog.symm⟩

/-- A fraction without a sign is not negative. -/
theorem toRat_nonneg {q : Fraction} (h : q.negated = false) : 0 ≤ q.toRat := by
  rw [toRat, signedNum, h, if_neg Bool.false_ne_true]
  exact div_nonneg (by simp) (Nat.cast_nonneg _)

/-- A fraction in lowest terms with a sign is negative. -/
theorem toRat_neg {q : Fraction} (h : q.negated = true) (hq : q.reduce = q) : q.toRat < 0 := by
  have hne : q.toRat ≠ 0 := by
    rw [Ne, toRat_eq_zero_iff]
    intro hzero
    rw [(reduce_eq_self_iff.1 hq).2 hzero] at h
    cases h
  have hle : 0 ≤ (q.withSign false).toRat := toRat_nonneg rfl
  rw [toRat_withSign, h] at hle
  simp at hle
  exact lt_of_le_of_ne hle hne

/-- For these the names are ordered as the values. -/
theorem NamedInOrder.nameBefore_iff {p q : Fraction} (h : NamedInOrder p q) (hp : p.reduce = p)
    (hq : q.reduce = q) : p.NameBefore q ↔ p.toRat < q.toRat := by
  rw [NameBefore]
  rcases h with h | ⟨hps, hqs, hden, hlog⟩
  · rw [if_neg h]
    cases hps : p.negated with
    | true =>
      have hqs : q.negated = false := by simpa [hps] using h
      exact iff_of_true rfl ((toRat_neg hps hp).trans_le (toRat_nonneg hqs))
    | false =>
      have hqs : q.negated = true := by simpa [hps] using h
      exact iff_of_false nofun ((toRat_neg hqs hq).trans_le (toRat_nonneg hps)).not_gt
  · have hpos : (0 : ℚ) < q.den := by exact_mod_cast Nat.pos_of_ne_zero q.den_ne
    rw [if_pos (hps.trans hqs.symm), Numeral.before_iff_of_log_eq hlog, hden,
      Numeral.before_iff_of_log_eq rfl, toRat, toRat, signedNum, signedNum, hps, hqs, hden,
      div_lt_div_iff_of_pos_right hpos]
    simp

/-- Negative numbers over one denominator whose numerators have equally many digits: their names
stand in the opposite order of their values. -/
def NamedInReverse (p q : Fraction) : Prop :=
  p.negated = true ∧ q.negated = true ∧ p.den = q.den ∧ Nat.log 10 p.num = Nat.log 10 q.num

theorem NamedInReverse.symm {p q : Fraction} (h : NamedInReverse p q) : NamedInReverse q p :=
  ⟨h.2.1, h.1, h.2.2.1.symm, h.2.2.2.symm⟩

/-- For these the names are ordered against the values. -/
theorem NamedInReverse.nameBefore_iff {p q : Fraction} (h : NamedInReverse p q) :
    p.NameBefore q ↔ p.toRat > q.toRat := by
  obtain ⟨hp, hq, hden, hlog⟩ := h
  have hpos : (0 : ℚ) < q.den := by exact_mod_cast Nat.pos_of_ne_zero q.den_ne
  rw [NameBefore, if_pos (hp.trans hq.symm), Numeral.before_iff_of_log_eq hlog, hden,
    Numeral.before_iff_of_log_eq rfl, gt_iff_lt, toRat, toRat, signedNum, signedNum, hp, hq, hden,
    div_lt_div_iff_of_pos_right hpos]
  simp

end Fraction

/-! ### Numbers as terms -/

namespace TermGraph

/-- A node that shows a fraction, as a plain one does. -/
structure ShowsAt (g : TermGraph) (r : Ref) (q : Fraction) : Prop where
  lt_size : r < g.nodes.size
  head : (g.node r).head = .rational q.num q.den
  negated : (g.node r).negated = q.negated
  name : (g.node r).name = q.name
  children : (g.node r).children = []

variable {g : TermGraph} {r s : Ref} {p q : Fraction}

theorem ShowsAt.of_node_eq {h : TermGraph} (hg : ShowsAt g r q) (hs : s < h.nodes.size)
    (hnode : h.node s = { g.node r with children := [] }) : ShowsAt h s q := by
  refine ⟨hs, ?_, ?_, ?_, ?_⟩ <;> rw [hnode]
  · exact hg.head
  · exact hg.negated
  · exact hg.name

theorem node_append_add {h : TermGraph} (hr : r < h.nodes.size) :
    (g.append h).node (g.nodes.size + r) =
    { h.node r with children := (h.node r).children.map (· + g.nodes.size) } := by
  simp [node_eq, append, hr]

/-- Nodes that show numbers are ordered by the names of these. -/
theorem ShowsAt.lt_eq (hp : ShowsAt g r p) (hq : ShowsAt g s q) :
    g.lt r s = decide (p.NameBefore q) := by
  rw [Bool.eq_iff_iff, decide_eq_true_iff, ← Fraction.name_lt_iff, ← hp.name, ← hq.name]
  simp [lt, depthBound, ltWithin, TermNode.shape, hp.head, hq.head, TermHead.shape, hp.children]

/-- Nodes that show numbers are equal if these are. -/
theorem ShowsAt.eq_eq (hp : ShowsAt g r p) (hq : ShowsAt g s q) : g.eq r s = decide (p = q) := by
  have hname : (g.node r).name = (g.node s).name ↔ p = q := by
    rw [hp.name, hq.name, Fraction.name_injective.eq_iff]
  rw [Bool.eq_iff_iff, decide_eq_true_iff]
  simp only [eq, depthBound, eqWithin, Bool.or_eq_true, Bool.and_eq_true, beq_iff_eq]
  constructor
  · rintro (rfl | ⟨⟨⟨⟨-, h⟩, -⟩, -⟩, -⟩)
    · exact hname.1 rfl
    · exact hname.1 h
  · rintro rfl
    refine .inr ⟨⟨⟨⟨?_, hname.2 rfl⟩, ?_⟩, ?_⟩, ?_⟩
    · rw [TermNode.shape, TermNode.shape, hp.head, hq.head]
    · rw [hp.negated, hq.negated]
    · rw [hp.children, hq.children]
    · rw [hp.children]
      rfl

end TermGraph

namespace Term

/-- A term that is a number. -/
def Shows : Term → Fraction → Prop
  | tree e, q => e = .rational q
  | graph g r, q => g.ShowsAt r q

variable {t u : Term} {p q : Fraction}

/-- A term shows its number in every graph that it is loaded to. -/
theorem Shows.load (h : t.Shows q) (g : TermGraph) : (t.load g).2.ShowsAt (t.load g).1 q := by
  cases t with
  | tree e =>
    obtain rfl : e = .rational q := h
    refine ⟨by simp [Term.load, TermGraph.add, TermGraph.addBelow], ?_, ?_, ?_, ?_⟩ <;>
      simp [Term.load, TermGraph.add, TermGraph.addBelow, TermGraph.headOf]
  | graph k r =>
    refine TermGraph.ShowsAt.of_node_eq h ?_ ?_
    · rw [Term.load, TermGraph.size_append]
      exact Nat.add_lt_add_left h.lt_size _
    · rw [Term.load, TermGraph.node_append_add h.lt_size, h.children]
      rfl

/-- Loading a number keeps the nodes that were there. -/
theorem Shows.node_load (h : t.Shows q) {g : TermGraph} {r : Ref} (hr : r < g.nodes.size) :
    r < (t.load g).2.nodes.size ∧ (t.load g).2.node r = g.node r := by
  cases t with
  | tree e =>
    obtain rfl : e = .rational q := h
    rw [Term.load, TermGraph.add, TermGraph.addBelow, TermGraph.node_push_of_lt hr,
      TermGraph.size_push]
    exact ⟨Nat.lt_succ_of_lt hr, rfl⟩
  | graph k s =>
    rw [Term.load, TermGraph.node_append_of_lt hr, TermGraph.size_append]
    exact ⟨Nat.lt_add_right _ hr, rfl⟩

/-- Both numbers as nodes of one graph. -/
theorem Shows.both (ht : t.Shows p) (hu : u.Shows q) :
    (u.load (t.load {}).2).2.ShowsAt (t.load {}).1 p ∧
      (u.load (t.load {}).2).2.ShowsAt (u.load (t.load {}).2).1 q := by
  have hp := ht.load {}
  obtain ⟨hlt, hnode⟩ := hu.node_load hp.lt_size
  refine ⟨hp.of_node_eq hlt ?_, hu.load _⟩
  rw [hnode, ← hp.children]

/-- Terms that show numbers are ordered by the names of these. -/
theorem Shows.lt_eq (ht : t.Shows p) (hu : u.Shows q) : t.lt u = decide (p.NameBefore q) := by
  obtain ⟨hp, hq⟩ := ht.both hu
  cases t with
  | graph => exact hp.lt_eq hq
  | tree d =>
    cases u with
    | graph => exact hp.lt_eq hq
    | tree e =>
      obtain rfl : d = .rational p := ht
      obtain rfl : e = .rational q := hu
      rw [Term.lt, Expr.lt, Bool.eq_iff_iff, decide_eq_true_iff, decide_eq_true_iff,
        Fraction.name_lt_iff]

/-- Terms that show numbers are equal if these are. -/
theorem Shows.eq_eq (ht : t.Shows p) (hu : u.Shows q) : t.eq u = decide (p = q) := by
  obtain ⟨hp, hq⟩ := ht.both hu
  cases t with
  | graph => exact hp.eq_eq hq
  | tree d =>
    cases u with
    | graph => exact hp.eq_eq hq
    | tree e =>
      obtain rfl : d = .rational p := ht
      obtain rfl : e = .rational q := hu
      rw [Term.eq, Bool.eq_iff_iff, decide_eq_true_iff, beq_iff_eq, Expr.rational.injEq]

end Term

/-! ### Comparisons of the machine -/

/-- The relation that an operator stands for, if `before` is meant by smaller. -/
def Operator.relation {α : Type} (before : α → α → Prop) : Operator → α → α → Prop
  | .less => fun a b => before a b
  | .leq => fun a b => before a b ∨ a = b
  | .greater => fun a b => before b a
  | .geq => fun a b => before b a ∨ b = a
  | _ => fun _ _ => False

def orderOperators : List Operator := [.less, .leq, .greater, .geq]

namespace Machine

variable {t u : Term} {p q : Fraction}

/-- Comparing two numbers gives the truth value for their names. -/
theorem test_numbers (ht : t.Shows p) (hu : u.Shows q) {op : Operator} (hop : op ∈ orderOperators)
    (last : Option Value) : ∃ v : Bool, test last op (.term t) (.term u) = .ok (.truth v) ∧
      (v = true ↔ op.relation Fraction.NameBefore p q) := by
  rcases List.mem_cons.1 hop with rfl | hop
  · exact ⟨_, rfl, by rw [ht.lt_eq hu, decide_eq_true_iff]; rfl⟩
  rcases List.mem_cons.1 hop with rfl | hop
  · exact ⟨_, rfl, by rw [ht.lt_eq hu, same, ht.eq_eq hu]; simp [Operator.relation]⟩
  rcases List.mem_cons.1 hop with rfl | hop
  · exact ⟨_, rfl, by rw [hu.lt_eq ht, decide_eq_true_iff]; rfl⟩
  · obtain rfl := List.mem_singleton.1 hop
    exact ⟨_, rfl, by rw [hu.lt_eq ht, same, hu.eq_eq ht]; simp [Operator.relation]⟩

/-- Relations that agree make the operators agree. -/
theorem relation_congr {α β : Type} {before : α → α → Prop} {before' : β → β → Prop} {f : α → β}
    {a b : α} (hab : before a b ↔ before' (f a) (f b)) (hba : before b a ↔ before' (f b) (f a))
    (heq : a = b ↔ f a = f b) (op : Operator) :
    op.relation before a b ↔ op.relation before' (f a) (f b) := by
  have heq' : b = a ↔ f b = f a := eq_comm.trans (heq.trans eq_comm)
  cases op with
  | less => exact hab
  | leq => exact or_congr hab heq
  | greater => exact hba
  | geq => exact or_congr hba heq'
  | _ => exact Iff.rfl

/-- Where two numbers are compared, the verdict is the one of their names.  It is that of their
values if the names stand in the order of the values, and the opposite one for negative numbers over
one denominator with equally many digits. -/
theorem step_compare_numbers (functions : List FunctionDef) (ht : t.Shows p) (hu : u.Shows q)
    (hp : p.reduce = p) (hq : q.reduce = q) {op : Operator} (hop : op ∈ orderOperators) {f : Frame}
    {negated : Bool} {a b : Ast} {ws : List Work} {vs : List Value}
    (hwork : f.work = .resume (.compare negated op a b) :: ws)
    (hvalues : f.values = .term t :: .term u :: vs) (callers : List Frame) :
    ∃ v : Bool, step functions (f, callers) = .ok (.next ({ f with
        work := ws, values := .truth (v != negated) :: vs, verdict := some (.truth v) }, callers)) ∧
      (v = true ↔ op.relation Fraction.NameBefore p q) ∧
      (p.NamedInOrder q → (v = true ↔ op.relation (· < ·) p.toRat q.toRat)) ∧
      (p.NamedInReverse q → (v = true ↔ op.relation (· > ·) p.toRat q.toRat)) := by
  obtain ⟨v, hv, hnames⟩ := test_numbers ht hu hop f.verdict
  have hvalue : p = q ↔ p.toRat = q.toRat := ⟨congrArg _, Fraction.eq_of_toRat_eq hp hq⟩
  refine ⟨v, ?_, hnames, fun h => hnames.trans ?_, fun h => hnames.trans ?_⟩
  · rw [step, hwork]
    simp only [resume, Frame.pop, hvalues, hv, bind, Except.bind]
    rfl
  · exact relation_congr (h.nameBefore_iff hp hq) (h.symm.nameBefore_iff hq hp) hvalue op
  · exact relation_congr h.nameBefore_iff h.symm.nameBefore_iff hvalue op

/-- The machine finds that ten is smaller than nine. -/
theorem step_compare_numbers_ten_nine :
    let f : Frame :=
      { function := "Main"
        work := [.resume (.compare false .less (.nat false "10") (.nat false "9"))]
        values := [.term (.tree (.ofNat 10)), .term (.tree (.ofNat 9))] }
    ∃ g, step [] (f, []) = .ok (.next (g, [])) ∧ g.values = [.truth true] := by
  intro f
  obtain ⟨v, hstep, hv, -⟩ :=
    step_compare_numbers [] (t := .tree (.ofNat 10)) (u := .tree (.ofNat 9))
    (p := .ofNat 10) (q := .ofNat 9) rfl rfl (by decide) (by decide)
    (List.mem_cons_self (a := Operator.less)) (f := f) rfl rfl []
  have hbefore : Operator.less.relation Fraction.NameBefore (.ofNat 10) (.ofNat 9) := by
    change Fraction.NameBefore (.ofNat 10) (.ofNat 9)
    decide +kernel
  exact ⟨_, hstep, by simp [hv.2 hbefore]⟩

/-- A program that returns whether its condition holds. -/
def deciding (op : Operator) (a b : Ast) : List Ast :=
  [.function "Main" []
    (.block [.ifThen (.compare false op a b) (.block [.giveBack (.nat false "1")]),
      .giveBack (.nat false "0")])]

/-- Longer numerals and negative numbers are compared wrongly. -/
theorem compare_ten_nine :
    Returns (deciding .less (.nat false "10") (.nat false "9")) (.ofNat 1) ∧ ¬ (10 : ℚ) < 9 ∧
      Returns (deciding .less (.nat true "1") (.nat true "2")) (.ofNat 1) ∧ ¬ (-1 : ℚ) < -2 := by
  refine ⟨⟨_, rfl, 20, fun steps hsteps => call_mono hsteps (call_of_outcome ?_)⟩, by norm_num,
    ⟨_, rfl, 20, fun steps hsteps => call_mono hsteps (call_of_outcome ?_)⟩, by norm_num⟩
  · decide +kernel
  · decide +kernel

end Machine

end SymScript
