import SymScript.Proofs.Laurent
import SymScript.Proofs.Refinement

/-!
# Programs that compute a number or a polynomial

A program of one function that returns an arithmetic expression.  Its value is worked out operator
by operator, each time on simplified operands, and the outcome is compared with the ordinary value
of the expression.

Sums, differences and products come out exact.  A division takes the reciprocal of its divisor in
double precision, where the sign of the divisor is lost: the machine divides by the magnitude.
-/

namespace SymScript

/-! ### Ordinary values -/

/-- What an operator makes of two numbers, if a division gives `quotient`. -/
def Operator.onRationals (quotient : ℚ → ℚ → ℚ) : Operator → ℚ → ℚ → ℚ
  | .sum => (· + ·)
  | .sub => (· - ·)
  | .mul => (· * ·)
  | .div => quotient
  | _ => fun _ _ => 0

namespace Ast

/-- The value of an arithmetic expression whose letters have the values `ρ`. -/
def valueBy (quotient : ℚ → ℚ → ℚ) (ρ : Char → ℚ) : Ast → ℚ
  | nat s digits => Expr.signed s ((Text.natural? digits).getD 0 : ℕ)
  | sym s letter => Expr.signed s (letter.toList.head?.elim 0 ρ)
  | binary s op a b =>
    Expr.signed s (op.onRationals quotient (valueBy quotient ρ a) (valueBy quotient ρ b))
  | _ => 0

/-- The ordinary value. -/
def value : (Char → ℚ) → Ast → ℚ := valueBy (· / ·)

/-- Numerals, letters and the given operators. -/
inductive BuiltFrom (ops : List Operator) : Ast → Prop
  | nat (s : Bool) {digits : String} {n : Nat} (h : Text.natural? digits = some n) :
    BuiltFrom ops (.nat s digits)
  | sym (s : Bool) {letter : String} {c : Char} (h : letter.toList = [c]) (hc : Text.isLetter c) :
    BuiltFrom ops (.sym s letter)
  | binary (s : Bool) {op : Operator} {a b : Ast} (hop : op ∈ ops) (ha : BuiltFrom ops a)
    (hb : BuiltFrom ops b) : BuiltFrom ops (.binary s op a b)

def NoLetters : Ast → Prop
  | sym .. => False
  | binary _ _ a b => NoLetters a ∧ NoLetters b
  | _ => True

/-- What is built from arithmetical operators is an expression. -/
theorem BuiltFrom.isExpression {ops : List Operator} (hops : ∀ op ∈ ops, Semantics.isArithmetic op)
    {t : Ast} (h : BuiltFrom ops t) : Semantics.IsExpression t := by
  induction h with
  | nat | sym => trivial
  | binary s hop _ _ iha ihb => exact ⟨hops _ hop, iha, ihb⟩

/-- The divisors in an expression without letters have values in `P`. -/
def Divisors (quotient : ℚ → ℚ → ℚ) (P : ℚ → Prop) : Ast → Prop
  | binary _ op a b => Divisors quotient P a ∧ Divisors quotient P b ∧
      (op = .div → P (valueBy quotient (fun _ => 0) b))
  | _ => True

/-- More operators may be allowed. -/
theorem BuiltFrom.mono {ops ops' : List Operator} (hops : ∀ op ∈ ops, op ∈ ops') {t : Ast}
    (h : BuiltFrom ops t) : BuiltFrom ops' t := by
  induction h with
  | nat s h => exact .nat s h
  | sym s h hc => exact .sym s h hc
  | binary s hop _ _ iha ihb => exact .binary s (hops _ hop) iha ihb

/-- Without division there are no divisors to look at. -/
theorem BuiltFrom.divisors {ops : List Operator} (hops : Operator.div ∉ ops) {t : Ast}
    (h : BuiltFrom ops t) {quotient : ℚ → ℚ → ℚ} {P : ℚ → Prop} : Divisors quotient P t := by
  induction h with
  | nat | sym => trivial
  | binary s hop _ _ iha ihb => exact ⟨iha, ihb, fun h => absurd (h ▸ hop) hops⟩

/-- The function that returns an expression, and the program of this one function. -/
def mainFunction (t : Ast) : FunctionDef := ⟨"Main", [], .block [.giveBack t]⟩

def mainReturning (t : Ast) : List Ast := [.function "Main" [] (.block [.giveBack t])]

end Ast

/-! ### Running a program of one function -/

namespace Machine

/-- The function `Main` of a program returns an expression, whatever number of steps is allowed
beyond those that it takes. -/
def Returns (nodes : List Ast) (r : Expr) : Prop :=
  ∃ functions, FunctionDef.load nodes = .ok functions ∧
    ∃ k, ∀ steps, k ≤ steps → call steps functions "Main" [] = .ok (.tree r)

/-- A call that ends keeps its result with more fuel. -/
theorem call_mono {functions : List FunctionDef} {name : String} {arguments : List Argument}
    {j k : Nat} (hjk : j ≤ k) {t : Term} (h : call j functions name arguments = .ok t) :
    call k functions name arguments = .ok t := by
  rw [call] at h ⊢
  cases henter : enter functions name arguments with
  | error e =>
    rw [henter] at h
    cases h
  | ok r =>
    rw [henter] at h
    cases r with
    | value u => exact h
    | frame g =>
      change Term.tree <$> run functions j (g, []) = .ok t at h
      change Term.tree <$> run functions k (g, []) = .ok t
      rw [run_mono hjk, h]
      intro hend
      rw [hend] at h
      cases h

/-- An outcome that is a term is the result of the call. -/
theorem call_of_outcome {functions : List FunctionDef} {name : String} {arguments : List Argument}
    {k : Nat} {t : Term} (h : outcome k functions name arguments = .ok t) :
    call k functions name arguments = .ok t := by
  rw [outcome] at h
  cases hcall : call k functions name arguments with
  | error e =>
    rw [hcall] at h
    cases h
  | ok u =>
    rw [hcall] at h
    cases h
    rfl

end Machine

namespace Semantics

/-- An expression has a value that is a tree, from some depth of the evaluators on. -/
def Evaluates (functions : List FunctionDef) (σ : Store) (t : Ast) (e : Expr) : Prop :=
  ∃ n, ∀ m, n ≤ m → (evaluator functions lastEntered m).expression σ t = .ok (.tree e)

variable {functions : List FunctionDef} {σ : Store}

/-- A numeral evaluates to its number in lowest terms. -/
theorem evaluates_nat (s : Bool) {digits : String} {k : Nat} (h : Text.natural? digits = some k) :
    Evaluates functions σ (.nat s digits) (.rational ((Fraction.ofNat k).withSign s).reduce) := by
  refine ⟨1, fun m hm => ?_⟩
  obtain ⟨m, rfl⟩ : ∃ k, m = k + 1 := ⟨m - 1, by omega⟩
  simp only [evaluator, expression, h]

/-- A letter evaluates to itself. -/
theorem evaluates_sym (s : Bool) {letter : String} {c : Char} (hl : letter.toList = [c])
    (hc : Text.isLetter c) : Evaluates functions σ (.sym s letter) (.symbol s c) := by
  refine ⟨1, fun m hm => ?_⟩
  obtain ⟨m, rfl⟩ : ∃ k, m = k + 1 := ⟨m - 1, by omega⟩
  change expression functions (evaluator functions lastEntered m) σ (.sym s letter) = _
  rw [expression, hl]
  exact if_pos hc

/-- The operands are combined to a node, which is simplified. -/
theorem evaluates_binary {s : Bool} {op : Operator} {a b : Ast} {x y z r : Expr}
    (ha : Evaluates functions σ a x) (hb : Evaluates functions σ b y)
    (hz : combine? s op x y = some z) (hr : z.simplify = .ok r) :
    Evaluates functions σ (.binary s op a b) r := by
  obtain ⟨j, hj⟩ := ha
  obtain ⟨k, hk⟩ := hb
  refine ⟨max j k + 1, fun m hm => ?_⟩
  obtain ⟨m, rfl⟩ : ∃ k, m = k + 1 := ⟨m - 1, by omega⟩
  have hoperate : operate s op (.tree x) (.tree y) = .ok (.tree r) := by
    simp only [operate, Term.expr, ofAlgebra, bind, Except.bind, hz, hr]
    rfl
  simp only [evaluator, expression, hj m (by omega), hk m (by omega), bind, Except.bind, hoperate]

/-- What the program returns is the simplified value of its expression. -/
theorem returns_of_evaluates {t : Ast} (ht : IsExpression t) {e r : Expr}
    (he : Evaluates [t.mainFunction] .empty t e) (hr : e.simplify = .ok r) :
    Machine.Returns t.mainReturning r := by
  have hload : FunctionDef.load t.mainReturning = .ok [t.mainFunction] := rfl
  have hnodes : ∀ u ∈ t.mainReturning, IsFunction u :=
    List.forall_mem_singleton.2 (areInstructions_iff.2 (List.forall_mem_singleton.2 ht))
  obtain ⟨n, hn⟩ := he
  have hgive : instruction lastEntered (evaluator [t.mainFunction] lastEntered n) {} (.giveBack t) =
      .ok (.returned r) := by
    simp only [instruction, hn n (Nat.le_refl n), bind, Except.bind, Term.simplify, hr, ofAlgebra]
    rfl
  have hbody : activate (evaluator [t.mainFunction] lastEntered (n + 2)) t.mainFunction [] =
      .ok r := by
    change ((instruction lastEntered _ {} (Ast.giveBack t) >>= _) >>= _) = _
    rw [hgive]
    rfl
  have hcall : call [t.mainFunction] lastEntered (n + 2) "Main" [] = .ok (.tree r) := by
    change Term.tree <$> activate _ _ _ = _
    rw [hbody]
    rfl
  obtain ⟨k, hk⟩ := (Machine.outcome_iff (FunctionDef.ofName?_of_load hload)
    (FunctionDef.isInstruction_of_load hload hnodes) "Main" (List.forall_mem_nil _)
    (o := .ok (.tree r)) (by rintro ⟨⟩)).2 ⟨_, hcall⟩
  exact ⟨_, hload, k, fun steps hsteps => Machine.call_mono hsteps (Machine.call_of_outcome hk)⟩

/-- An expression evaluates to one value. -/
theorem Evaluates.unique {t : Ast} {d e : Expr} (hd : Evaluates functions σ t d)
    (he : Evaluates functions σ t e) : d = e := by
  obtain ⟨j, hj⟩ := hd
  obtain ⟨k, hk⟩ := he
  have h := (hj (max j k) (Nat.le_max_left j k)).symm.trans (hk (max j k) (Nat.le_max_right j k))
  cases h
  rfl

end Semantics

/-! ### Polynomials -/

def ringOperators : List Operator := [.sum, .sub, .mul]

section Polynomials

open SymScript.Expr SymScript.Semantics

variable {functions : List FunctionDef} {σ : Store}

/-- An expression that has a value whatever the values of its letters. -/
def Total (e : Expr) : Prop := Grouped e ∧ ∀ ρ : Char → ℚ, Defined ρ e

theorem hereditary_total : Hereditary Total := hereditary_grouped.and
  { number := fun q ρ => (hereditary_defined ρ).number q
    sign := fun h s ρ => (h ρ).sign s
    copy := fun h ρ => (h ρ).copy
    sum_iff := (forall_congr' fun _ => defined_sum_iff).trans
      ⟨fun h e he ρ => h ρ e he, fun h ρ e he => h e he ρ⟩
    product_iff := (forall_congr' fun _ => defined_product_iff).trans
      ⟨fun h e he ρ => h ρ e he, fun h ρ e he => h e he ρ⟩ }

/-- The node that an operator of a ring makes of its operands has the value that it should. -/
theorem combine?_ring {op : Operator} (hop : op ∈ ringOperators) (s : Bool) {a b : Expr}
    (ha : Total a) (hb : Total b) : ∃ z, combine? s op a b = some z ∧ Total z ∧ ∀ ρ : Char → ℚ,
      value ρ z = signed s (op.onRationals (· / ·) (value ρ a) (value ρ b)) := by
  have hpair {a b : Expr} (ha : Total a) (hb : Total b) :
      ∀ e ∈ sort (copyAll [a, b]), Total e :=
    hereditary_total.sort_copyAll (List.forall_mem_cons.2 ⟨ha, List.forall_mem_singleton.2 hb⟩)
  rcases List.mem_cons.1 hop with rfl | hop
  · refine ⟨_, rfl, hereditary_total.sum_iff.2 (hpair ha hb), fun ρ => ?_⟩
    rw [value_mkSum, valueSum, valueSum, valueSum, add_zero]
    rfl
  rcases List.mem_cons.1 hop with rfl | hop
  · refine ⟨_, rfl, hereditary_total.sum_iff.2 (hpair ha (hereditary_total.withSign hb _)),
      fun ρ => ?_⟩
    rw [value_mkSum, valueSum, valueSum, valueSum, add_zero, value_flip, ← sub_eq_add_neg]
    rfl
  · obtain rfl := List.mem_singleton.1 hop
    refine ⟨_, rfl, hereditary_total.product_iff.2 (hpair ha hb), fun ρ => ?_⟩
    rw [value_mkProduct, valueProduct, valueProduct, valueProduct, mul_one]
    rfl

/-- A polynomial evaluates to an expression that has its values. -/
theorem evaluates_polynomial {t : Ast} (ht : t.BuiltFrom ringOperators) :
    ∃ e, Evaluates functions σ t e ∧ Total e ∧ ∀ ρ : Char → ℚ, value ρ e = t.value ρ := by
  induction ht with
  | @nat s digits n h =>
    refine ⟨_, evaluates_nat s h, hereditary_total.number _, fun ρ => ?_⟩
    rw [value, Fraction.toRat_reduce, cast_toRat_withSign, Ast.value, Ast.valueBy, h]
    simp
  | @sym s letter c h hc =>
    refine ⟨_, evaluates_sym s h hc, ⟨trivial, fun _ => trivial⟩, fun ρ => ?_⟩
    rw [value, Ast.value, Ast.valueBy, h]
    rfl
  | binary s hop _ _ iha ihb =>
    obtain ⟨x, hx, htx, hvx⟩ := iha
    obtain ⟨y, hy, hty, hvy⟩ := ihb
    obtain ⟨z, hz, htz, hvz⟩ := combine?_ring hop s htx hty
    obtain ⟨r, hr, -, hgrouped, hkeeps⟩ := htz.1.simplify_defined
    refine ⟨r, evaluates_binary hx hy hz hr, ⟨hgrouped, fun ρ => (hkeeps ρ (htz.2 ρ)).1⟩,
      fun ρ => ?_⟩
    rw [(hkeeps ρ (htz.2 ρ)).2, hvz, hvx, hvy]
    rfl

end Polynomials

/-! ### Numbers -/

def fieldOperators : List Operator := [.sum, .sub, .mul, .div]

/-- Division by the magnitude of the divisor. -/
def overMagnitude (x y : ℚ) : ℚ := x / |y|

/-- A divisor that is not zero and whose parts are exact in double precision. -/
def ExactDivisor (v : ℚ) : Prop := v ≠ 0 ∧ v.num.natAbs < 2 ^ 53 ∧ v.den < 2 ^ 53

instance : DecidablePred ExactDivisor := fun v =>
  inferInstanceAs (Decidable (v ≠ 0 ∧ v.num.natAbs < 2 ^ 53 ∧ v.den < 2 ^ 53))

/-- Where divisors are positive, their magnitudes are themselves. -/
theorem Ast.BuiltFrom.valueBy_overMagnitude {ops : List Operator} {t : Ast} (ht : t.BuiltFrom ops)
    (h : t.Divisors (· / ·) (0 < ·)) :
    t.valueBy overMagnitude (fun _ => 0) = t.value fun _ => 0 := by
  induction ht with
  | nat | sym => rfl
  | @binary s op a b _ _ _ iha ihb =>
    rw [Divisors] at h
    rw [valueBy, iha h.1, ihb h.2.1]
    cases op with
    | div =>
      have hpos : 0 < b.value fun _ => 0 := h.2.2 rfl
      rw [Operator.onRationals, overMagnitude, abs_of_pos hpos]
      rfl
    | _ => rfl

namespace Binary64

theorem Scaled.divEven_one (n : Nat) : divEven n 1 = n := by
  simp [divEven, Nat.mod_one]

/-- A whole number below `2 ^ 53` is not too large. -/
theorem Scaled.tooLarge_ofQuotient_one {n : Nat} (h : n < 2 ^ 53) :
    (ofQuotient n 1).tooLarge = false := by
  rcases Nat.eq_zero_or_pos n with rfl | hn
  · rfl
  have hlog : n.log2 < 53 := (Nat.log2_lt hn.ne').2 h
  -- The exponent is at most zero, so that nothing of the number is cut off.
  obtain ⟨k, hk⟩ : ∃ k : Nat, ofQuotient n 1 = ⟨n * 2 ^ k, -k⟩ := by
    have hshift (e : Int) (he : e ≤ 0) :
        ∃ k : Nat, (⟨divEven (shifted n 1 e).1 (shifted n 1 e).2, e⟩ : Scaled) =
          ⟨n * 2 ^ k, -k⟩ := by
      refine ⟨(-e).toNat, ?_⟩
      rw [Int.toNat_of_nonneg (by omega), neg_neg, shifted]
      split
      · obtain rfl : e = 0 := by omega
        simp [divEven_one]
      · simp [divEven_one]
    refine hshift _ (max_le ?_ (by decide))
    have hone : (1 : Nat).log2 = 0 := rfl
    split <;> omega
  have hmantissa : (n * 2 ^ k).log2 < 53 + k := by
    refine (Nat.log2_lt (Nat.mul_ne_zero hn.ne' (Nat.two_pow_pos k).ne')).2 ?_
    rw [pow_add]
    exact Nat.mul_lt_mul_of_pos_right h (Nat.two_pow_pos k)
  rw [hk, tooLarge, Bool.and_eq_false_iff]
  right
  rw [decide_eq_false_iff_not]
  push_cast
  omega

/-- The first power is exact. -/
theorem power?_one {n : Nat} (h : n < 2 ^ 53) : power? n 1 1 = some ⟨n, true⟩ := by
  have hof {n : Nat} (h : n < 2 ^ 53) : ∃ x, ofQuotient? n 1 = some x :=
    ⟨_, by rw [ofQuotient?, Scaled.tooLarge_ofQuotient_one h]; rfl⟩
  obtain ⟨e, he⟩ := hof (n := 1) (by decide)
  obtain ⟨x, hx⟩ := hof h
  have hsmall : Nat.pow n (1 / 1) < Nat.pow 2 53 := (Nat.pow_one n).trans_lt h
  rw [power?, he, hx]
  refine (if_pos ?_).trans ?_
  · rw [decide_eq_true hsmall]
    simp
  · split <;> simp

end Binary64

namespace Fraction

/-- The reciprocal of a small fraction is exact. -/
theorem pow_neg_one {q : Fraction} (h0 : q.num ≠ 0) (hn : q.num < 2 ^ 53) (hd : q.den < 2 ^ 53) :
    ∃ s, q.pow (.ofInt (-1)) =
      .ok ⟨{ negated := false, num := q.den, den := q.num, den_ne := h0 }, false, s⟩ := by
  have hparts : (ofInt (-1)).num = 1 ∧ (ofInt (-1)).den = 1 := ⟨rfl, rfl⟩
  have hnum := Binary64.power?_one hn
  have hden := Binary64.power?_one hd
  -- The equation lemma of `pow` takes long to generate; the definition itself is enough here.
  delta pow
  rw [hparts.1, hparts.2, hnum, hden]
  exact ⟨_, dif_neg h0⟩

/-- In lowest terms a fraction has the parts of its number. -/
theorem toRat_parts {q : Fraction} (h : q.reduce = q) :
    q.toRat.num.natAbs = q.num ∧ q.toRat.den = q.den := by
  have hden : (0 : ℤ) < (q.den : ℤ) := by exact_mod_cast Nat.pos_of_ne_zero q.den_ne
  have hcoprime : Nat.Coprime q.signedNum.natAbs (q.den : ℤ).natAbs := by
    rw [natAbs_signedNum]
    exact (reduce_eq_self_iff.1 h).1
  have htoRat : q.toRat = (q.signedNum : ℚ) / ((q.den : ℤ) : ℚ) := by simp [toRat]
  constructor
  · rw [htoRat, Rat.num_div_eq_of_coprime hden hcoprime, natAbs_signedNum]
  · exact_mod_cast (congrArg (fun v : ℚ => (v.den : ℤ)) htoRat).trans
      (Rat.den_div_eq_of_coprime hden hcoprime)

theorem abs_toRat (q : Fraction) : |q.toRat| = q.num / q.den := by
  rw [toRat, abs_div, Nat.abs_cast, ← Int.cast_abs, Int.abs_eq_natAbs, natAbs_signedNum]
  rfl

end Fraction

namespace Expr

/-- Within a depth the expression simplifies to a number with the value `v`. -/
def ComesTo (n : Nat) (e : Expr) (v : ℚ) : Prop :=
  ∃ q : Fraction, simplifyWithin n e = .ok (rational q) ∧ q.toRat = v

/-- A number comes to its value. -/
theorem comesTo_rational (n : Nat) (q : Fraction) : ComesTo (n + 1) (rational q) q.toRat :=
  ⟨q.reduce, rfl, q.toRat_reduce⟩

/-- The reciprocal comes without the sign of the number. -/
theorem comesTo_reciprocal (n : Nat) {q : Fraction} (h : ExactDivisor q.toRat) :
    ComesTo (n + 2) (power false (rational q) (rational (.ofInt (-1)))) |q.toRat|⁻¹ := by
  obtain ⟨h0, hn, hd⟩ := h
  obtain ⟨hnum, hden⟩ := Fraction.toRat_parts q.reduce_reduce
  rw [← q.toRat_reduce] at h0 hn hd ⊢
  have hne : q.reduce.num ≠ 0 := fun h => h0 (Fraction.toRat_eq_zero_iff.2 h)
  obtain ⟨s, hs⟩ := Fraction.pow_neg_one hne (hnum ▸ hn) (hden ▸ hd)
  refine ⟨{ negated := false, num := q.reduce.den, den := q.reduce.num, den_ne := hne }, ?_, ?_⟩
  · change finishPower _ _ (rational q.reduce) (rational (Fraction.ofInt (-1))) = _
    rw [finishPower, exactPower?, hs]
    rfl
  · rw [Fraction.abs_toRat, inv_div, Fraction.toRat]
    simp [Fraction.signedNum]

/-- Members that come to numbers give a list of numbers. -/
theorem mapM_comesTo {n : Nat} {es : List Expr} {vs : List ℚ} (h : List.Forall₂ (ComesTo n) es vs) :
    ∃ qs : List Fraction, es.mapM (simplifyWithin n) = .ok (qs.map rational) ∧
      qs.map Fraction.toRat = vs := by
  induction h with
  | nil => exact ⟨[], rfl, rfl⟩
  | cons he _ ih =>
    obtain ⟨q, hq, rfl⟩ := he
    obtain ⟨qs, hqs, rfl⟩ := ih
    refine ⟨q :: qs, ?_, rfl⟩
    rw [List.mapM_cons, hq, hqs]
    rfl

/-- Children that come to numbers do so in whatever order they stand. -/
theorem mapM_sort_comesTo {n : Nat} {e : Expr} {es : List Expr} {vs : List ℚ}
    (h : List.Forall₂ (ComesTo n) (e :: es) vs) : ∃ (q : Fraction) (qs : List Fraction),
      (sort (e :: es)).mapM (simplifyWithin n) = .ok ((q :: qs).map rational) ∧
        ((q :: qs).map Fraction.toRat).Perm vs := by
  obtain ⟨us, hus, hperm⟩ := List.perm_comp_forall₂ (sort_perm (e :: es)) h
  obtain ⟨qs, hqs, rfl⟩ := mapM_comesTo hus
  cases qs with
  | nil =>
    obtain rfl := hperm.nil_eq
    cases h
  | cons q qs => exact ⟨q, qs, hqs, hperm⟩

theorem toRat_reduce_withSign (s : Bool) (q : Fraction) :
    (q.withSign (s != q.negated)).reduce.toRat = signed s q.toRat := by
  rw [Fraction.toRat_reduce, Fraction.toRat_withSign]
  cases s <;> cases q.negated <;> rfl

/-- A sum comes to the sum of what its addends come to. -/
theorem comesTo_sum {n : Nat} {e : Expr} {es : List Expr} {vs : List ℚ} (s : Bool)
    (h : List.Forall₂ (ComesTo n) (e :: es) vs) :
    ComesTo (n + 1) (sum s (sort (e :: es))) (signed s vs.sum) := by
  obtain ⟨q, qs, hqs, hperm⟩ := mapM_sort_comesTo h
  refine ⟨_, ?_, (toRat_reduce_withSign s (qs.foldl (· + ·) q)).trans (congrArg _ ?_)⟩
  · rw [simplifyWithin, hqs]
    change finishSum _ s _ = _
    rw [finishSum, numbers?_map_rational]
  · rw [← hperm.sum_eq, List.map_cons, List.sum_cons]
    simpa [valueSum_eq, Function.comp_def, value] using cast_foldl_add (K := ℚ) (ρ := 0) q qs

/-- A product comes to the product of what its factors come to. -/
theorem comesTo_product {n : Nat} {e : Expr} {es : List Expr} {vs : List ℚ} (s : Bool)
    (h : List.Forall₂ (ComesTo n) (e :: es) vs) :
    ComesTo (n + 1) (product s (sort (e :: es))) (signed s vs.prod) := by
  obtain ⟨q, qs, hqs, hperm⟩ := mapM_sort_comesTo h
  refine ⟨_, ?_, (toRat_reduce_withSign s (qs.foldl (· * ·) q)).trans (congrArg _ ?_)⟩
  · rw [simplifyWithin, hqs]
    change finishProduct _ s _ = _
    rw [finishProduct, numbers?_map_rational]
  · rw [← hperm.prod_eq, List.map_cons, List.prod_cons]
    simpa [valueProduct_eq, Function.comp_def, value] using cast_foldl_mul (K := ℚ) (ρ := 0) q qs

/-- A sum of two comes to the sum of both. -/
theorem comesTo_mkSum {n : Nat} {a b : Expr} {u v : ℚ} (s : Bool) (ha : ComesTo n (copy a) u)
    (hb : ComesTo n (copy b) v) : ComesTo (n + 1) (mkSum s [a, b]) (signed s (u + v)) := by
  have h := comesTo_sum s (.cons ha (.cons hb .nil))
  rwa [List.sum_cons, List.sum_singleton] at h

/-- A product of two comes to the product of both. -/
theorem comesTo_mkProduct {n : Nat} {a b : Expr} {u v : ℚ} (s : Bool) (ha : ComesTo n (copy a) u)
    (hb : ComesTo n (copy b) v) : ComesTo (n + 1) (mkProduct s [a, b]) (signed s (u * v)) := by
  have h := comesTo_product s (.cons ha (.cons hb .nil))
  rwa [List.prod_cons, List.prod_singleton] at h

/-- What comes to a number at all large depths does so at the bound. -/
theorem ComesTo.within {e : Expr} {v : ℚ} (h : ∀ n, ComesTo (n + 3) e v) :
    ComesTo e.simplifyBound e v := by
  have hbound : 8 * 8 ≤ e.simplifyBound :=
    Nat.mul_le_mul (Nat.le_add_left 8 _) (Nat.le_add_left 8 _)
  have h := h (e.simplifyBound - 3)
  rwa [Nat.sub_add_cancel (by omega)] at h

/-- The node that an operator makes of two numbers comes to a number. -/
theorem combine?_field {op : Operator} (hop : op ∈ fieldOperators) (s : Bool) (p q : Fraction)
    (hdiv : op = .div → ExactDivisor q.toRat) :
    ∃ z, Semantics.combine? s op (rational p) (rational q) = some z ∧
      ComesTo z.simplifyBound z (signed s (op.onRationals overMagnitude p.toRat q.toRat)) := by
  rcases List.mem_cons.1 hop with rfl | hop
  · exact ⟨_, rfl, .within fun n => comesTo_mkSum s (comesTo_rational _ p) (comesTo_rational _ q)⟩
  rcases List.mem_cons.1 hop with rfl | hop
  · have hflip : (q.withSign !q.negated).toRat = -q.toRat := by
      rw [Fraction.toRat_withSign]
      cases q.negated <;> rfl
    refine ⟨_, rfl, .within fun n => ?_⟩
    change ComesTo _ _ (signed s (p.toRat - q.toRat))
    rw [sub_eq_add_neg, ← hflip]
    exact comesTo_mkSum s (comesTo_rational _ p) (comesTo_rational _ _)
  rcases List.mem_cons.1 hop with rfl | hop
  · exact ⟨_, rfl, .within fun n => comesTo_mkProduct s (comesTo_rational _ p)
      (comesTo_rational _ q)⟩
  · obtain rfl := List.mem_singleton.1 hop
    refine ⟨_, rfl, .within fun n => ?_⟩
    rw [Operator.onRationals, overMagnitude, div_eq_mul_inv]
    exact comesTo_mkProduct s (comesTo_rational _ p) (comesTo_reciprocal n (hdiv rfl))

end Expr

section Numbers

open SymScript.Expr SymScript.Semantics

variable {functions : List FunctionDef} {σ : Store}

/-- An expression without letters evaluates to a number. -/
theorem evaluates_number {t : Ast} (ht : t.BuiltFrom fieldOperators) (hclosed : t.NoLetters)
    (hdivisors : t.Divisors overMagnitude ExactDivisor) : ∃ q : Fraction,
      Evaluates functions σ t (.rational q) ∧ q.toRat = t.valueBy overMagnitude fun _ => 0 := by
  induction ht with
  | @nat s digits n h =>
    refine ⟨_, evaluates_nat s h, ?_⟩
    rw [Fraction.toRat_reduce, Fraction.toRat_withSign, Ast.valueBy, h]
    cases s <;> simp
  | sym => exact hclosed.elim
  | @binary s op a b hop _ _ iha ihb =>
    rw [Ast.NoLetters] at hclosed
    rw [Ast.Divisors] at hdivisors
    obtain ⟨p, hp, hpv⟩ := iha hclosed.1 hdivisors.1
    obtain ⟨q, hq, hqv⟩ := ihb hclosed.2 hdivisors.2.1
    obtain ⟨z, hz, r, hr, hrv⟩ := combine?_field hop s p q (hqv ▸ hdivisors.2.2)
    refine ⟨r, evaluates_binary hp hq hz hr, ?_⟩
    rw [hrv, Ast.valueBy, hpv, hqv]

theorem simplify_rational (q : Fraction) : simplify (.rational q) = .ok (.rational q.reduce) := rfl

/-- A polynomial program returns an expression that is defined everywhere and has the values of the
polynomial; without letters it is the number in lowest terms. -/
theorem returns_polynomial {t : Ast} (ht : t.BuiltFrom ringOperators) :
    ∃ r, Machine.Returns t.mainReturning r ∧ Grouped r ∧
      (∀ ρ : Char → ℚ, Defined ρ r ∧ value ρ r = t.value ρ) ∧
      (t.NoLetters → ∃ q : Fraction, r = .rational q ∧ q.reduce = q ∧
        ∀ ρ, q.toRat = t.value ρ) := by
  obtain ⟨e, he, htotal, hvalue⟩ := evaluates_polynomial ht
  obtain ⟨r, hr, -, hgrouped, hkeeps⟩ := htotal.1.simplify_defined
  have hsame (ρ : Char → ℚ) : Defined ρ r ∧ value ρ r = t.value ρ :=
    (hkeeps ρ (htotal.2 ρ)).imp_right (·.trans (hvalue ρ))
  refine ⟨r, returns_of_evaluates (ht.isExpression (by decide)) he hr, hgrouped, hsame, ?_⟩
  intro hclosed
  obtain ⟨q, hq, -⟩ := evaluates_number (ht.mono (by decide)) hclosed (ht.divisors (by decide))
  obtain rfl := he.unique hq
  obtain rfl : Expr.rational q.reduce = r := Except.ok.inj ((simplify_rational q).symm.trans hr)
  refine ⟨q.reduce, rfl, q.reduce_reduce, fun ρ => ?_⟩
  rw [← (hsame ρ).2, value, Rat.cast_id]

/-- `-((x - -2) * -y)` and `3 - 2 * 5`. -/
theorem returns_polynomial_samples :
    (∃ r, Machine.Returns (Ast.mainReturning (.binary true .mul
        (.binary false .sub (.sym false "x") (.nat true "2")) (.sym true "y"))) r ∧
      ∀ ρ : Char → ℚ, value ρ r = (ρ 'x' + 2) * ρ 'y') ∧
    ∃ q : Fraction, Machine.Returns (Ast.mainReturning (.binary false .sub (.nat false "3")
        (.binary false .mul (.nat false "2") (.nat false "5")))) (.rational q) ∧
      q.reduce = q ∧ q.toRat = -7 := by
  have hletter : Text.isLetter 'x' ∧ Text.isLetter 'y' := by decide +kernel
  constructor
  · obtain ⟨r, hr, -, hvalue, -⟩ := returns_polynomial (t := .binary true .mul
      (.binary false .sub (.sym false "x") (.nat true "2")) (.sym true "y"))
      (.binary _ (by decide) (.binary _ (by decide) (.sym _ rfl hletter.1) (.nat _ rfl))
        (.sym _ rfl hletter.2))
    refine ⟨r, hr, fun ρ => (hvalue ρ).2.trans ?_⟩
    change -((ρ 'x' - -((2 : ℕ) : ℚ)) * -ρ 'y') = _
    push_cast
    ring
  · obtain ⟨r, hr, -, -, hnumber⟩ := returns_polynomial (t := .binary false .sub (.nat false "3")
      (.binary false .mul (.nat false "2") (.nat false "5")))
      (.binary _ (by decide) (.nat _ rfl) (.binary _ (by decide) (.nat _ rfl) (.nat _ rfl)))
    obtain ⟨q, rfl, hreduced, hq⟩ := hnumber ⟨trivial, trivial, trivial⟩
    refine ⟨q, hr, hreduced, (hq 0).trans ?_⟩
    change ((3 : ℕ) : ℚ) - (2 : ℕ) * (5 : ℕ) = _
    norm_num

/-- A program without letters returns, in lowest terms, the value that its expression has when every
division is by the magnitude of the divisor.  That is its ordinary value if all divisors are
positive. -/
theorem returns_quotient {t : Ast} (ht : t.BuiltFrom fieldOperators) (hclosed : t.NoLetters)
    (hdivisors : t.Divisors overMagnitude ExactDivisor) : ∃ q : Fraction,
      Machine.Returns t.mainReturning (.rational q) ∧ q.reduce = q ∧
        (q.toRat = t.valueBy overMagnitude fun _ => 0) ∧
        (t.Divisors (· / ·) (0 < ·) → q.toRat = t.value fun _ => 0) := by
  obtain ⟨q, hq, hv⟩ := evaluates_number ht hclosed hdivisors
  refine ⟨q.reduce, returns_of_evaluates (ht.isExpression (by decide)) hq (simplify_rational q),
    q.reduce_reduce, q.toRat_reduce.trans hv, fun hpositive => ?_⟩
  rw [q.toRat_reduce, hv, ht.valueBy_overMagnitude hpositive]

/-- `(1 / 2 - 3) / (3 / 4)`. -/
theorem returns_quotient_sample :
    ∃ q : Fraction, Machine.Returns (Ast.mainReturning (.binary false .div
      (.binary false .sub (.binary false .div (.nat false "1") (.nat false "2")) (.nat false "3"))
      (.binary false .div (.nat false "3") (.nat false "4")))) (.rational q) ∧
    q.reduce = q ∧ q.toRat = -10 / 3 := by
  have hdivisor : ExactDivisor ((2 : ℕ) : ℚ) ∧ ExactDivisor ((4 : ℕ) : ℚ) ∧
      ExactDivisor (((3 : ℕ) : ℚ) / |((4 : ℕ) : ℚ)|) := by
    decide +kernel
  have hpositive : 0 < ((2 : ℕ) : ℚ) ∧ 0 < ((4 : ℕ) : ℚ) ∧ 0 < ((3 : ℕ) : ℚ) / ((4 : ℕ) : ℚ) := by
    norm_num
  obtain ⟨q, hr, hreduced, -, hq⟩ := returns_quotient (t := .binary false .div
      (.binary false .sub (.binary false .div (.nat false "1") (.nat false "2")) (.nat false "3"))
      (.binary false .div (.nat false "3") (.nat false "4")))
    (.binary _ (by decide)
      (.binary _ (by decide) (.binary _ (by decide) (.nat _ rfl) (.nat _ rfl)) (.nat _ rfl))
      (.binary _ (by decide) (.nat _ rfl) (.nat _ rfl)))
    ⟨⟨⟨trivial, trivial⟩, trivial⟩, trivial, trivial⟩
    ⟨⟨⟨trivial, trivial, fun _ => hdivisor.1⟩, trivial, nofun⟩,
      ⟨trivial, trivial, fun _ => hdivisor.2.1⟩, fun _ => hdivisor.2.2⟩
  refine ⟨q, hr, hreduced, (hq ?_).trans ?_⟩
  · exact ⟨⟨⟨trivial, trivial, fun _ => hpositive.1⟩, trivial, nofun⟩,
      ⟨trivial, trivial, fun _ => hpositive.2.1⟩, fun _ => hpositive.2.2⟩
  · change (((1 : ℕ) : ℚ) / (2 : ℕ) - (3 : ℕ)) / (((3 : ℕ) : ℚ) / (4 : ℕ)) = _
    norm_num

/-- The sign of a divisor is lost. -/
theorem returns_quotient_of_negative : Machine.Returns
      (Ast.mainReturning (.binary false .div (.nat false "1") (.nat true "2")))
      (.rational { negated := false, num := 1, den := 2 }) ∧
    Ast.value (fun _ => 0) (.binary false .div (.nat false "1") (.nat true "2")) = -1 / 2 := by
  constructor
  · refine ⟨_, rfl, 20, fun steps hsteps => Machine.call_mono hsteps (Machine.call_of_outcome ?_)⟩
    decide +kernel
  · change ((1 : ℕ) : ℚ) / -((2 : ℕ) : ℚ) = _
    norm_num

end Numbers

end SymScript
