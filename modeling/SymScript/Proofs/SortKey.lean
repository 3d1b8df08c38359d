import Mathlib.Data.List.Basic
import Mathlib.Data.List.Lex
import Mathlib.Data.Prod.Lex
import SymScript.Proofs.Monomial

/-!
# The order of monomials

Names tell fractions and letters apart, so on monomials the order of children is the order of keys
made of names, which is a linear order.  A list of monomials in order is therefore determined by its
members, as long as their keys differ.
-/

namespace SymScript

/-! ### Names -/

namespace Fraction

theorem notMem_toDigits {c : Char} (hc : c.isDigit = false) (n : Nat) : c ∉ Nat.toDigits 10 n := by
  intro h
  rw [Nat.isDigit_of_mem_toDigits (by decide) (by decide) h] at hc
  cases hc

/-- Numerals tell numbers apart. -/
theorem toDigits_injective : Function.Injective (Nat.toDigits 10) := by
  intro m n h
  rw [← Nat.ofDigitChars_ten_toDigits (n := m), h, Nat.ofDigitChars_ten_toDigits]

theorem toList_digits (q : Fraction) : q.digits.toList =
    Nat.toDigits 10 q.num ++ if q.den = 1 then [] else '/' :: Nat.toDigits 10 q.den := by
  rw [digits]
  split
  · simp [Nat.toString_eq_repr, Nat.toList_repr]
  · simp [Nat.toString_eq_repr, Nat.toList_repr]

theorem toList_name (q : Fraction) : q.name.toList =
    (if q.negated then ['-'] else []) ++ q.digits.toList := by
  rw [name, String.toList_append]
  split <;> rfl

theorem minus_notMem_digits (q : Fraction) : '-' ∉ q.digits.toList := by
  rw [toList_digits]
  split <;> simp [notMem_toDigits]

/-- A fraction can be read off its digits, up to its sign. -/
theorem eq_of_digits_eq {q r : Fraction} (h : q.digits = r.digits) :
    q.num = r.num ∧ q.den = r.den := by
  have hlist := congrArg String.toList h
  rw [toList_digits, toList_digits] at hlist
  have hslash (n : Nat) : '/' ∉ Nat.toDigits 10 n := notMem_toDigits rfl n
  by_cases hq : q.den = 1
  · by_cases hr : r.den = 1
    · rw [if_pos hq, if_pos hr, List.append_nil, List.append_nil] at hlist
      exact ⟨toDigits_injective hlist, hq.trans hr.symm⟩
    · rw [if_pos hq, if_neg hr, List.append_nil] at hlist
      exact absurd (hlist ▸ List.mem_append_right _ List.mem_cons_self) (hslash q.num)
  · by_cases hr : r.den = 1
    · rw [if_neg hq, if_pos hr, List.append_nil] at hlist
      exact absurd (hlist ▸ List.mem_append_right _ List.mem_cons_self) (hslash r.num)
    · rw [if_neg hq, if_neg hr, List.append_cons_inj_of_notMem (hslash _) (hslash _)] at hlist
      exact ⟨toDigits_injective hlist.1, toDigits_injective hlist.2.2⟩

/-- Names tell fractions apart. -/
theorem name_injective : Function.Injective name := by
  intro q r h
  have hlist := congrArg String.toList h
  rw [toList_name, toList_name] at hlist
  have hminus (p : Fraction) :
      '-' ∈ (if p.negated then ['-'] else []) ++ p.digits.toList ↔ p.negated = true := by
    rw [List.mem_append, or_iff_left p.minus_notMem_digits]
    cases p.negated <;> simp
  have hsign : q.negated = r.negated := by
    rw [Bool.eq_iff_iff, ← hminus q, hlist, hminus r]
  rw [hsign] at hlist
  obtain ⟨hn, hd⟩ := eq_of_digits_eq (String.toList_injective (List.append_cancel_left hlist))
  exact ext hsign hn hd

end Fraction

namespace Expr

/-- Names tell letters apart. -/
theorem letter_eq_of_name_eq {s t : Bool} {c d : Char} (h : (symbol s c).name = (symbol t d).name) :
    c = d := by
  have hlast := congrArg (fun n => n.toList.getLast?) h
  simpa [name] using hlast

/-! ### Keys -/

/-- The rank of a factor and the names in it. -/
def key : Expr → ℕ ×ₗ String ×ₗ String
  | power _ b x => toLex (Shape.power.rank, toLex (b.name, x.name))
  | e => toLex (e.shape.rank, toLex (e.name, ""))

/-- The rank of a monomial and the keys of its factors. -/
def keys (e : Expr) : ℕ ×ₗ List (ℕ ×ₗ String ×ₗ String) := toLex (e.shape.rank, e.factors.map key)

/-- Ranks tell shapes apart. -/
theorem rank_injective : Function.Injective Shape.rank := by
  intro a b h
  cases a <;> cases b <;> first | rfl | cases h

theorem key_fst (e : Expr) : (ofLex (key e)).1 = e.shape.rank := by
  cases e <;> rfl

/-- Between different shapes only the ranks count. -/
theorem lt_iff_of_shape_ne {e f : Expr} (h : e.shape ≠ f.shape) (p : Prop) :
    lt e f = true ↔ e.shape.rank < f.shape.rank ∨ e.shape.rank = f.shape.rank ∧ p := by
  have hrank : e.shape.rank ≠ f.shape.rank := fun hr => h (rank_injective hr)
  rw [lt_of_shape_ne h, decide_eq_true_eq, or_iff_left fun hp => hrank hp.1]

/-- A monomial that is no product. -/
structure IsFactor (e : Expr) : Prop where
  monomial : Monomial e
  noProduct : e.shape ≠ .product

/-- Powers of letters are ordered by their keys. -/
theorem lt_power_iff {s t : Bool} {c d : Char} {q r : Fraction} :
    lt (power s (symbol false c) (rational q)) (power t (symbol false d) (rational r)) = true ↔
      key (power s (symbol false c) (rational q)) <
        key (power t (symbol false d) (rational r)) := by
  rw [lt, key, key, Prod.Lex.lt_iff]
  simp only [ofLex_toLex, lt_self_iff_false, true_and, false_or, Prod.Lex.lt_iff]
  by_cases hc : c = d
  · subst hc
    by_cases hq : q = r
    · subst hq
      simp
    · simp [beq, lt, name, hq]
  · have hname : (symbol false c).name ≠ (symbol false d).name :=
      fun h => hc (letter_eq_of_name_eq h)
    simp [beq, lt, hc, hname]

/-- Factors are in the order of their keys. -/
theorem IsFactor.lt_iff {e f : Expr} (he : IsFactor e) (hf : IsFactor f) :
    lt e f = true ↔ key e < key f := by
  by_cases hshape : e.shape = f.shape
  · cases e with
    | rational q =>
      cases f with
      | rational r => simp [lt, key, Prod.Lex.lt_iff, shape, name]
      | _ => cases hshape
    | symbol s c =>
      cases f with
      | symbol t d => simp [lt, key, Prod.Lex.lt_iff, shape]
      | _ => cases hshape
    | sum => cases he.monomial
    | product => exact absurd rfl he.noProduct
    | power s b x =>
      cases f with
      | power t b' x' =>
        obtain ⟨c, q, rfl, rfl, -⟩ := monomial_power_iff.1 he.monomial
        obtain ⟨d, r, rfl, rfl, -⟩ := monomial_power_iff.1 hf.monomial
        exact lt_power_iff
      | _ => cases hshape
  · rw [Prod.Lex.lt_iff, key_fst, key_fst]
    exact lt_iff_of_shape_ne hshape _

/-- Factors can be read off their keys, up to the sign. -/
theorem IsFactor.sign_eq_of_key_eq {e f : Expr} (he : IsFactor e) (hf : IsFactor f)
    (h : key e = key f) (s : Bool) : e.sign s = f.sign s := by
  have hshape : e.shape = f.shape := by
    apply rank_injective
    rw [← key_fst, h, key_fst]
  cases e with
  | rational q =>
    cases f with
    | rational r =>
      have hname : q.name = r.name := by simpa [key, shape, name] using h
      rw [Fraction.name_injective hname]
    | _ => cases hshape
  | symbol _ c =>
    cases f with
    | symbol _ d =>
      obtain rfl : c = d := letter_eq_of_name_eq (by simpa [key, shape] using h)
      rfl
    | _ => cases hshape
  | sum => cases he.monomial
  | product => exact absurd rfl he.noProduct
  | power _ b x =>
    cases f with
    | power _ b' x' =>
      obtain ⟨c, q, rfl, rfl, -⟩ := monomial_power_iff.1 he.monomial
      obtain ⟨d, r, rfl, rfl, -⟩ := monomial_power_iff.1 hf.monomial
      obtain ⟨hb, hx⟩ : (symbol false c).name = (symbol false d).name ∧ q.name = r.name := by
        simpa [key, name] using h
      obtain rfl := letter_eq_of_name_eq hb
      obtain rfl := Fraction.name_injective hx
      rfl
    | _ => cases hshape

/-- Keys tell factors without signs apart. -/
theorem IsFactor.eq_of_key_eq {e f : Expr} (he : IsFactor e) (hf : IsFactor f)
    (hes : e.negated = false) (hfs : f.negated = false) (h : key e = key f) : e = f :=
  calc e = e.sign e.negated := (sign_self e).symm
    _ = f.sign e.negated := he.sign_eq_of_key_eq hf h _
    _ = f := by rw [hes, ← hfs, sign_self]

/-- Lists of factors without signs are ordered by the lists of their keys. -/
theorem ltAll_iff {as bs : List Expr} (ha : ∀ e ∈ as, IsFactor e ∧ e.negated = false)
    (hb : ∀ e ∈ bs, IsFactor e ∧ e.negated = false) :
    ltAll as bs = true ↔ as.map key < bs.map key := by
  induction as generalizing bs with
  | nil => cases bs <;> simp [ltAll]
  | cons a as ih =>
    cases bs with
    | nil => simp [ltAll]
    | cons b bs =>
      obtain ⟨⟨haf, has⟩, hrest⟩ := List.forall_mem_cons.1 ha
      obtain ⟨⟨hbf, hbs⟩, hrest'⟩ := List.forall_mem_cons.1 hb
      rw [ltAll, List.map_cons, List.map_cons, List.cons_lt_cons_iff]
      by_cases hab : a = b
      · subst hab
        simp [beq_refl, ih hrest hrest']
      · have hkey : key a ≠ key b := fun h => hab (haf.eq_of_key_eq hbf has hbs h)
        simp [hab, hkey, haf.lt_iff hbf]

/-- The factors of a monomial in normal form. -/
theorem Normal.isFactor {s : Bool} {fs : List Expr} (h : Normal (product s fs))
    (hm : Monomial (product s fs)) : ∀ e ∈ fs, IsFactor e ∧ e.negated = false := by
  obtain ⟨-, -, -, hform⟩ := normal_product_iff.1 h
  intro e he
  exact ⟨⟨monomial_product_iff.1 hm e he, hform.noProduct e he⟩, hform.unsigned e he⟩

/-- Monomials in normal form are in the order of their keys. -/
theorem Normal.lt_iff {e f : Expr} (he : Normal e) (hf : Normal f) (hem : Monomial e)
    (hfm : Monomial f) : lt e f = true ↔ keys e < keys f := by
  rw [keys, keys, Prod.Lex.lt_iff]
  by_cases hshape : e.shape = f.shape
  · by_cases hp : e.shape = .product
    · cases e <;> cases hp
      cases f <;> cases hshape
      simpa [lt, shape, factors] using ltAll_iff (he.isFactor hem) (hf.isFactor hfm)
    · rw [factors_of_ne_product hp, factors_of_ne_product (hshape ▸ hp),
        IsFactor.lt_iff ⟨hem, hp⟩ ⟨hfm, hshape ▸ hp⟩]
      simp [hshape, List.cons_lt_cons_iff]
  · exact lt_iff_of_shape_ne hshape _

/-- Two lists of monomials with the same members are the same, if they are in order and no two of
the members share their keys. -/
theorem Ordered.eq_of_perm {es fs : List Expr} (hn : ∀ e ∈ es, Normal e) (hm : ∀ e ∈ es, Monomial e)
    (hkeys : ∀ e ∈ es, ∀ f ∈ es, keys e = keys f → e = f) (he : Ordered es) (hf : Ordered fs)
    (hp : es.Perm fs) : es = fs := by
  have hpairwise {gs : List Expr} (hg : ∀ e ∈ gs, e ∈ es) (h : Ordered gs) :
      gs.Pairwise fun a b => keys a ≤ keys b := by
    rw [← List.pairwise_map (R := (· ≤ ·)), ← List.isChain_iff_pairwise, List.isChain_map]
    refine h.imp_of_mem_imp fun a b ha hb hab => ?_
    have ha := hg a ha
    have hb := hg b hb
    rw [← not_lt, ← (hn b hb).lt_iff (hn a ha) (hm b hb) (hm a ha), hab]
    exact Bool.false_ne_true
  refine List.Perm.eq_of_pairwise ?_ (hpairwise (fun _ h => h) he)
    (hpairwise (fun _ h => hp.mem_iff.2 h) hf) hp
  intro a b ha hb hab hba
  exact hkeys a ha b (hp.mem_iff.2 hb) (le_antisymm hab hba)

end Expr

end SymScript
