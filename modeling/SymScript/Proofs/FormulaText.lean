import SymScript.Expr.Latex
import SymScript.Proofs.PolynomialExpansion
import SymScript.Text.Letter

/-!
# What a formula shows

The formula of a polynomial is a line of addends, each with a sign and with factors that have dots
between them.  A sum that is a factor stands in parentheses, but a product that is raised to a power
does not: its exponent stands at its last factor and belongs to that alone for a reader.

`Expr.spread` is the expression as it is read: a power of a product becomes the product of which the
last factor is raised.  The formula of an expression depends on `spread` only.
-/

namespace SymScript.Expr

/-! ### Texts -/

/-- The text of an expression below a parent. -/
def textIn (parent : Option Shape) (e : Expr) : List Char :=
  ((formulaIn parent false e).render false).toList

/-- The text of a factor. -/
def factorText (e : Expr) : List Char := textIn (some .product) e

def minusText (s : Bool) : List Char := if s then ['-'] else []

def numberText (n d : Nat) : List Char :=
  if d = 1 then Nat.toDigits 10 n
  else ['\\', 'f', 'r', 'a', 'c', '{'] ++ Nat.toDigits 10 n ++ ['}', '{'] ++
    Nat.toDigits 10 d ++ ['}']

def exponentText (n : Nat) : List Char := '^' :: '{' :: (Nat.toDigits 10 n ++ ['}'])

/-- The dot before a factor. -/
def dotText : List Char := ['\\', 'c', 'd', 'o', 't', ' ']

def factorsText : List Expr → List Char
  | [] => []
  | f :: fs => factorText f ++ fs.flatMap fun f => dotText ++ factorText f

/-- Addends, each with its sign and its factors. -/
def addendsText : List (Bool × List Expr) → List Char
  | [] => []
  | t :: ts => minusText t.1 ++ factorsText t.2 ++
      ts.flatMap fun t => (if t.1 then '-' else '+') :: factorsText t.2

/-- The text in parentheses. -/
def groupText (text : List Char) : List Char :=
  ['\\', 'l', 'e', 'f', 't', '('] ++ text ++ ['\\', 'r', 'i', 'g', 'h', 't', ')']

@[simp] theorem minusText_false : minusText false = [] := rfl

theorem toList_left : "\\left(".toList = ['\\', 'l', 'e', 'f', 't', '('] := by simp

theorem toList_right : "\\right)".toList = ['\\', 'r', 'i', 'g', 'h', 't', ')'] := by simp

theorem toList_minus (s : Bool) : (Formula.minus s).toList = minusText s := by
  cases s <;> rfl

/-- A number is written as its sign and its numeral. -/
theorem textIn_rational (p : Option Shape) (q : Fraction) :
    textIn p (rational q) = minusText q.negated ++ numberText q.num q.den := by
  rw [textIn, formulaIn, Formula.render, String.toList_append, toList_minus, Bool.not_false,
    Bool.and_true]
  congr 1
  rw [numberText]
  split
  · simp [Nat.toString_eq_repr, Nat.toList_repr]
  · simp [Formula.fraction, Formula.braced, Nat.toString_eq_repr, Nat.toList_repr]

/-- A letter is written as its sign and itself. -/
theorem textIn_symbol (p : Option Shape) (s : Bool) (c : Char) :
    textIn p (symbol s c) = minusText s ++ [c] := by
  rw [textIn, formulaIn, Formula.render, String.toList_append, toList_minus, Bool.not_false,
    Bool.and_true]
  simp [Char.toString]

/-- Whether there are parentheses is all that the parent decides. -/
theorem textIn_congr {p p' : Option Shape} (h : groups p = groups p') (e : Expr) :
    textIn p e = textIn p' e := by
  cases e <;> simp only [textIn, formulaIn, h]

/-- A power is written as its base, as a factor, and its exponent. -/
theorem textIn_power (p : Option Shape) (s : Bool) (b : Expr) {n : Nat} (hn : 2 ≤ n) :
    textIn p (power s b (ofNat n)) = minusText s ++ factorText b ++ exponentText n := by
  obtain ⟨n, rfl⟩ := Nat.exists_eq_add_of_le' hn
  have hbase : factorText b = textIn (some .power) b :=
    textIn_congr (show groups (some .product) = groups (some .power) from rfl) b
  rw [hbase]
  simp [textIn, formulaIn, Formula.render, toList_minus, Formula.raised, Formula.braced,
    exponentText, ofNat, Fraction.ofNat, negated, Nat.toString_eq_repr, Nat.toList_repr]

/-- A power that is a factor needs no parentheses. -/
theorem factorText_power (b : Expr) {n : Nat} (hn : 2 ≤ n) :
    factorText (power false b (ofNat n)) = factorText b ++ exponentText n :=
  textIn_power _ false b hn

/-- Addends are joined by plus signs, except where a minus sign stands already. -/
theorem toList_joinAddends (t : Bool × String) (ts : List (Bool × String)) :
    (Formula.joinAddends (t :: ts)).toList =
      t.2.toList ++ ts.flatMap fun t => (if t.1 then [] else ['+']) ++ t.2.toList := by
  obtain ⟨s, first⟩ := t
  rw [Formula.joinAddends]
  induction ts generalizing first with
  | nil => simp
  | cons t ts ih =>
    obtain ⟨u, text⟩ := t
    rw [List.foldl_cons, ih]
    cases u <;> simp

/-- Texts with a separator, from the front. -/
theorem intercalate_cons (sep t : List Char) (ts : List (List Char)) :
    sep.intercalate (t :: ts) = t ++ ts.flatMap (sep ++ ·) := by
  induction ts generalizing t with
  | nil => simp
  | cons u ts ih => simp [List.intercalate_cons_cons, ih]

/-- The formula of an expression has its sign. -/
theorem negated_formulaIn (p : Option Shape) (e : Expr) :
    (formulaIn p false e).negated = e.negated := by
  cases e <;> simp [formulaIn, Formula.negated, negated]

/-- The formulas of addends, each with the sign that joins it. -/
theorem renderAddends_formulasIn (es : List Expr) : Formula.renderAddends (formulasIn .sum es) =
    es.map fun e => (e.negated, (formulaIn (some .sum) false e).render false) := by
  induction es with
  | nil => rfl
  | cons e es ih => rw [formulasIn, Formula.renderAddends, ih, List.map_cons, negated_formulaIn]

/-- The formulas of factors that all stand on top. -/
theorem renderFactors_formulasIn {es : List Expr}
    (h : ∀ e ∈ es, (formulaIn (some .product) false e).inBottom = false) :
    Formula.renderFactors (formulasIn .product es) =
      es.map fun e => (false, (formulaIn (some .product) false e).render false) := by
  induction es with
  | nil => rfl
  | cons e es ih =>
    obtain ⟨he, hes⟩ := List.forall_mem_cons.1 h
    rw [formulasIn, Formula.renderFactors, ih hes, he, List.map_cons]

/-- Nothing is written below a line. -/
def onTop : Expr → Bool
  | power _ _ x => !x.negated
  | _ => true

/-- A factor that is no reciprocal is not written in the denominator. -/
theorem inBottom_formulaIn {e : Expr} (h : e.onTop = true) (p : Option Shape) :
    (formulaIn p false e).inBottom = false := by
  cases e <;> simp_all [formulaIn, Formula.inBottom, onTop]

/-- A product without reciprocals is written as its factors in a row. -/
theorem textIn_product (p : Option Shape) (s : Bool) {es : List Expr}
    (h : ∀ e ∈ es, e.onTop = true) : textIn p (product s es) = minusText s ++ factorsText es := by
  rw [textIn, formulaIn, Formula.render, renderFactors_formulasIn fun e he =>
    inBottom_formulaIn (h e he) _]
  cases es with
  | nil => simp [toList_minus, Formula.joinFactors, Formula.times, factorsText]
  | cons e es =>
    simp [toList_minus, Formula.joinFactors, Formula.times, factorsText, String.toList_intercalate,
      intercalate_cons, dotText, List.filter_map, List.flatMap_map, factorText, textIn,
      Function.comp_def]

/-- Below the parent, the expression shows the sign and the factors. -/
def Shows (p : Option Shape) (e : Expr) (t : Bool × List Expr) : Prop :=
  e.negated = t.1 ∧ textIn p e = minusText t.1 ++ factorsText t.2

/-- A sum is written as its addends, in parentheses if it is negated or a part of a product or a
power. -/
theorem textIn_sum (p : Option Shape) (s : Bool) {es : List Expr} {ts : List (Bool × List Expr)}
    (h : List.Forall₂ (Shows (some .sum)) es ts) : textIn p (sum s es) =
      minusText s ++ if s || groups p then groupText (addendsText ts) else addendsText ts := by
  have hcore : (Formula.joinAddends (Formula.renderAddends (formulasIn .sum es))).toList =
      addendsText ts := by
    have hrest {es : List Expr} {ts : List (Bool × List Expr)}
        (h : List.Forall₂ (Shows (some .sum)) es ts) :
        es.flatMap (fun e => (if e.negated then [] else ['+']) ++ textIn (some .sum) e) =
          ts.flatMap fun t => (if t.1 then '-' else '+') :: factorsText t.2 := by
      induction h with
      | nil => rfl
      | @cons e t es ts he _ ih =>
        rw [List.flatMap_cons, List.flatMap_cons, ih, he.1, he.2]
        cases t.1 <;> rfl
    rw [renderAddends_formulasIn]
    cases h with
    | nil => rfl
    | cons he hes =>
      rw [List.map_cons, toList_joinAddends, List.flatMap_map, addendsText, ← hrest hes]
      exact congrArg (· ++ _) he.2
  rw [textIn, formulaIn, Formula.render, String.toList_append, toList_minus, Bool.not_false,
    Bool.and_true]
  congr 1
  split
  · simp only [String.toList_append, hcore, groupText, toList_left, toList_right]
  · exact hcore

/-! ### What is read -/

/-- Factors with a sign as one expression. -/
def signedProduct (s : Bool) : List Expr → Expr
  | [f] => f.sign s
  | fs => product s fs

/-- An exponent at the last factor. -/
def raiseLast (x : Expr) : List Expr → List Expr
  | [] => []
  | [f] => [power false f x]
  | f :: fs => f :: raiseLast x fs

mutual

/-- The factors that the formula of an expression shows. -/
def shownFactors : Expr → List Expr
  | rational q => [rational (q.withSign false)]
  | symbol _ c => [symbol false c]
  | sum _ es => [sum false (spreadAll es)]
  | product _ es => shownFactorsAll es
  | power _ b x => raiseLast x (shownFactors b)

def shownFactorsAll : List Expr → List Expr
  | [] => []
  | e :: es => shownFactors e ++ shownFactorsAll es

def spreadAll : List Expr → List Expr
  | [] => []
  | e :: es => signedProduct e.negated (shownFactors e) :: spreadAll es

end

/-- The expression as its formula is read: a power of a product is the product of which the last
factor is raised, and stands among the factors of the product around it. -/
def spread (e : Expr) : Expr := signedProduct e.negated e.shownFactors

theorem spreadAll_eq_map (es : List Expr) : spreadAll es = es.map spread := by
  induction es with
  | nil => rfl
  | cons e es ih => rw [spreadAll, ih, List.map_cons, spread]

theorem shownFactorsAll_eq_flatMap (es : List Expr) :
    shownFactorsAll es = es.flatMap shownFactors := by
  induction es with
  | nil => rfl
  | cons e es ih => rw [shownFactorsAll, ih, List.flatMap_cons]

/-- An exponent behind a row of factors belongs to the last one. -/
theorem raiseLast_concat (x : Expr) (fs : List Expr) (f : Expr) :
    raiseLast x (fs ++ [f]) = fs ++ [power false f x] := by
  induction fs with
  | nil => rfl
  | cons g fs ih =>
    cases fs with
    | nil => rfl
    | cons h fs => exact congrArg (g :: ·) ih

/-- Factors in a row, in two parts. -/
theorem factorsText_append {fs gs : List Expr} (hfs : fs ≠ []) (hgs : gs ≠ []) :
    factorsText (fs ++ gs) = factorsText fs ++ (dotText ++ factorsText gs) := by
  obtain ⟨f, fs, rfl⟩ := List.exists_cons_of_ne_nil hfs
  obtain ⟨g, gs, rfl⟩ := List.exists_cons_of_ne_nil hgs
  simp [factorsText]

/-- The exponent of the last factor stands at the end. -/
theorem factorsText_raiseLast {fs : List Expr} (hfs : fs ≠ []) {n : Nat} (hn : 2 ≤ n) :
    factorsText (raiseLast (ofNat n) fs) = factorsText fs ++ exponentText n := by
  obtain ⟨fs, f, rfl⟩ : ∃ gs g, fs = gs ++ [g] := ⟨_, _, (List.dropLast_concat_getLast hfs).symm⟩
  rw [raiseLast_concat]
  cases fs <;> simp [factorsText, factorText_power f hn]

/-! ### Expressions that are written as they are read -/

/-- A sign with factors as it may stand among addends: a sum stands there only after a minus, in
parentheses. -/
def Separate (t : Bool × List Expr) : Prop := t.2 ≠ [] ∧ ∀ es, t.2 = [sum false es] → t.1 = true

/-- A factor that no longer hides other factors. -/
inductive Factor : Expr → Prop
  | number {q : Fraction} (h : q.negated = false) : Factor (rational q)
  | letter {c : Char} (h : Text.isLetter c = true) : Factor (symbol false c)
  | group {ts : List (Bool × List Expr)} (nonempty : ts ≠ []) (separate : ∀ t ∈ ts, Separate t)
      (factors : ∀ t ∈ ts, ∀ f ∈ t.2, Factor f) :
      Factor (sum false (ts.map fun t => signedProduct t.1 t.2))
  | power {b : Expr} {n : Nat} (hb : Factor b) (hn : 2 ≤ n) : Factor (power false b (ofNat n))

/-- A factor has no sign. -/
theorem Factor.negated_eq {f : Expr} (hf : Factor f) : f.negated = false := by
  cases hf with
  | number h => exact h
  | letter | group | power => rfl

/-- A factor is not written in the denominator. -/
theorem Factor.onTop {f : Expr} (hf : Factor f) : f.onTop = true := by
  cases hf <;> rfl

/-- An addend whose factors no longer hide other factors. -/
structure IsAddend (t : Bool × List Expr) : Prop where
  separate : Separate t
  factor : ∀ f ∈ t.2, Factor f

/-- A negated sum is a minus sign and the sum in parentheses. -/
theorem textIn_sum_negated (p : Option Shape) (es : List Expr) :
    textIn p (sum true es) = minusText true ++ factorText (sum false es) := by
  simp [textIn, factorText, formulaIn, Formula.render, groups, minusText, Formula.minus]

/-- A factor shows itself, also with a sign. -/
theorem Factor.shows_sign {f : Expr} (hf : Factor f) {s : Bool}
    (hs : ∀ es, f = sum false es → s = true) (p : Option Shape) : Shows p (f.sign s) (s, [f]) := by
  refine ⟨sign_negated s f, ?_⟩
  rw [factorsText, List.flatMap_nil, List.append_nil]
  cases hf with
  | @number q h => rw [sign, textIn_rational, factorText, textIn_rational, h]; rfl
  | letter => rw [sign, textIn_symbol, factorText, textIn_symbol]; rfl
  | group => rw [sign, hs _ rfl, textIn_sum_negated]
  | @power b n _ hn => rw [sign, textIn_power _ _ _ hn, factorText_power _ hn, List.append_assoc]

/-- An addend is shown by the product of its factors with its sign. -/
theorem IsAddend.shows_signedProduct {t : Bool × List Expr} (ht : IsAddend t) (p : Option Shape) :
    Shows p (signedProduct t.1 t.2) t := by
  obtain ⟨s, fs⟩ := t
  rcases fs with _ | ⟨f, _ | ⟨g, fs⟩⟩
  · exact absurd rfl ht.separate.1
  · refine (ht.factor f List.mem_cons_self).shows_sign (fun es hes => ?_) p
    exact ht.separate.2 es (congrArg (fun e => [e]) hes)
  · exact ⟨rfl, textIn_product p s fun e he => (ht.factor e he).onTop⟩

/-- A sum of addends, as a factor, is written in parentheses. -/
theorem factorText_group {ts : List (Bool × List Expr)} (hts : ∀ t ∈ ts, IsAddend t) :
    factorText (sum false (ts.map fun t => signedProduct t.1 t.2)) =
      groupText (addendsText ts) := by
  refine textIn_sum (some .product) false (List.forall₂_map_left_iff.2 (List.forall₂_same.2 ?_))
  exact fun t ht => (hts t ht).shows_signedProduct _

/-! ### The formula of a polynomial -/

/-- A node of a simplified polynomial, as far as its formula goes. -/
def LegibleNode : Expr → Prop
  | rational _ => True
  | symbol _ c => Text.isLetter c = true
  | sum _ es => 2 ≤ es.length ∧ ∀ e ∈ es, e.shape ≠ .sum
  | product _ es => 2 ≤ es.length ∧ ∀ e ∈ es, e.negated = false ∧ e.shape ≠ .product
  | power _ b x => b.negated = false ∧ ∃ n, 2 ≤ n ∧ x = ofNat n

/-- What holds of factors, and of their powers, holds after raising the last one. -/
theorem forall_mem_raiseLast {P : Expr → Prop} {x : Expr} {fs : List Expr} (hfs : ∀ f ∈ fs, P f)
    (hraise : ∀ f, P f → P (power false f x)) : ∀ f ∈ raiseLast x fs, P f := by
  rcases List.eq_nil_or_concat' fs with rfl | ⟨fs, f, rfl⟩
  · exact hfs
  · rw [List.forall_mem_append, List.forall_mem_singleton] at hfs
    rw [raiseLast_concat, List.forall_mem_append, List.forall_mem_singleton]
    exact ⟨hfs.1, hraise f hfs.2⟩

theorem length_raiseLast (x : Expr) (fs : List Expr) : (raiseLast x fs).length = fs.length := by
  rcases List.eq_nil_or_concat' fs with rfl | ⟨fs, f, rfl⟩
  · rfl
  · simp [raiseLast_concat]

/-- Every factor of a product shows at least one factor. -/
theorem length_le_flatMap {es : List Expr} (h : ∀ e ∈ es, e.shownFactors ≠ []) :
    es.length ≤ (es.flatMap shownFactors).length := by
  induction es with
  | nil => exact Nat.le_refl _
  | cons e es ih =>
    obtain ⟨he, hes⟩ := List.forall_mem_cons.1 h
    have hpos := List.length_pos_of_ne_nil he
    have := ih hes
    rw [List.flatMap_cons, List.length_append, List.length_cons]
    omega

/-- What the addends of a sum show. -/
def shownAddend (e : Expr) : Bool × List Expr := (e.negated, e.shownFactors)

/-- What a list of addends is read as, by way of the addends that are shown. -/
theorem spreadAll_eq (es : List Expr) :
    spreadAll es = (es.map shownAddend).map fun t => signedProduct t.1 t.2 := by
  rw [spreadAll_eq_map, List.map_map]
  rfl

/-- What a polynomial shows are factors, and a single sum only if it is a sum. -/
theorem factor_of_mem_shownFactors {e : Expr} (he : Everywhere LegibleNode e) :
    e.shownFactors ≠ [] ∧ (∀ f ∈ e.shownFactors, Factor f) ∧
      ∀ es, e.shownFactors = [sum false es] → e.shape = .sum := by
  induction e using children_induction with
  | rational q =>
    exact ⟨by simp [shownFactors], by simp [shownFactors, Factor.number, Fraction.withSign],
      fun es h => by simp [shownFactors] at h⟩
  | symbol s c =>
    have hc := everywhere_symbol_iff.1 he
    exact ⟨by simp [shownFactors], by simpa [shownFactors] using Factor.letter hc,
      fun es h => by simp [shownFactors] at h⟩
  | sum s es ih =>
    obtain ⟨⟨hlength, hsum⟩, hes⟩ := everywhere_sum_iff.1 he
    refine ⟨by simp [shownFactors], ?_, fun _ _ => rfl⟩
    rw [shownFactors, List.forall_mem_singleton, spreadAll_eq]
    refine .group ?_ (List.forall_mem_map.2 fun e he => ?_) (List.forall_mem_map.2 fun e he => ?_)
    · rintro h
      rw [List.map_eq_nil_iff.1 h] at hlength
      cases hlength
    · obtain ⟨hne, -, hshape⟩ := ih e he (hes e he)
      exact ⟨hne, fun fs hfs => absurd (hshape fs hfs) (hsum e he)⟩
    · exact (ih e he (hes e he)).2.1
  | product s es ih =>
    obtain ⟨⟨hlength, -⟩, hes⟩ := everywhere_product_iff.1 he
    have hle := length_le_flatMap fun e he => (ih e he (hes e he)).1
    rw [shownFactors, shownFactorsAll_eq_flatMap]
    refine ⟨fun h => ?_, fun f hf => ?_, fun fs h => ?_⟩
    · rw [h, List.length_nil] at hle
      omega
    · obtain ⟨e, he, hf⟩ := List.mem_flatMap.1 hf
      exact (ih e he (hes e he)).2.1 f hf
    · rw [h, List.length_singleton] at hle
      omega
  | power s b x ih _ =>
    obtain ⟨⟨-, n, hn, rfl⟩, hb, -⟩ := everywhere_power_iff.1 he
    obtain ⟨hne, hfactor, -⟩ := ih hb
    rw [shownFactors]
    refine ⟨fun h => ?_, forall_mem_raiseLast hfactor fun f hf => .power hf hn, fun fs h => ?_⟩
    · rw [← List.length_eq_zero_iff, length_raiseLast, List.length_eq_zero_iff] at h
      exact hne h
    · rcases List.eq_nil_or_concat' b.shownFactors with hnil | ⟨gs, g, hgs⟩
      · exact absurd hnil hne
      · rw [hgs, raiseLast_concat] at h
        have h : gs ++ [power false g (ofNat n)] = [] ++ [sum false fs] := h
        cases (List.append_inj' h rfl).2

/-- Factors that are written like the factors that they show are written as all those in a row. -/
theorem factorsText_flatMap {es : List Expr} (hne : ∀ e ∈ es, e.shownFactors ≠ [])
    (htext : ∀ e ∈ es, factorText e = factorsText e.shownFactors) :
    factorsText es = factorsText (es.flatMap shownFactors) := by
  induction es with
  | nil => rfl
  | cons e es ih =>
    obtain ⟨he, hes⟩ := List.forall_mem_cons.1 hne
    obtain ⟨htext, htexts⟩ := List.forall_mem_cons.1 htext
    cases es with
    | nil => simp [factorsText, htext]
    | cons e' es =>
      have hrest : (e' :: es).flatMap shownFactors ≠ [] := by
        rw [List.flatMap_cons]
        exact List.append_ne_nil_of_left_ne_nil (hes e' List.mem_cons_self) _
      have hone : factorsText [e] = factorsText e.shownFactors := by simp [factorsText, htext]
      calc factorsText (e :: e' :: es)
          = factorsText [e] ++ (dotText ++ factorsText (e' :: es)) :=
            factorsText_append (List.cons_ne_nil e []) (List.cons_ne_nil _ _)
        _ = factorsText (e.shownFactors ++ (e' :: es).flatMap shownFactors) := by
            rw [hone, ih hes htexts, factorsText_append he hrest]

/-- What a legible expression shows is an addend, unless it is a sum of several. -/
theorem isAddend_shownAddend {e : Expr} (he : Everywhere LegibleNode e)
    (hsum : e.shape = .sum → e.negated = true) : IsAddend e.shownAddend := by
  obtain ⟨hne, hfactor, hshape⟩ := factor_of_mem_shownFactors he
  exact ⟨⟨hne, fun fs hfs => hsum (hshape fs hfs)⟩, hfactor⟩

/-- What the addends of a legible sum show are addends. -/
theorem isAddend_of_mem_sum {s : Bool} {es : List Expr} (he : Everywhere LegibleNode (sum s es)) :
    ∀ t ∈ es.map shownAddend, IsAddend t := by
  obtain ⟨⟨-, hsum⟩, hes⟩ := everywhere_sum_iff.1 he
  exact List.forall_mem_map.2 fun e h => isAddend_shownAddend (hes e h) fun hshape =>
    absurd hshape (hsum e h)

/-- A legible expression is not written in the denominator. -/
theorem LegibleNode.onTop {e : Expr} (he : LegibleNode e) : e.onTop = true := by
  cases e with
  | power s b x =>
    obtain ⟨-, n, -, rfl⟩ := he
    rfl
  | rational | symbol | sum | product => rfl

/-- What is shown as an addend without a sign is written so as a factor too. -/
theorem Shows.factorText_eq {e : Expr} (h : Shows (some .product) e e.shownAddend)
    (hs : e.negated = false) : factorText e = factorsText e.shownFactors := by
  rw [factorText, h.2, shownAddend, hs, minusText_false, List.nil_append]

/-- A polynomial shows its sign and its factors, unless it is a sum that stands without
parentheses. -/
theorem shows_shownFactors {e : Expr} (he : Everywhere LegibleNode e) {p : Option Shape}
    (hp : e.shape = .sum → e.negated = true ∨ groups p = true) : Shows p e e.shownAddend := by
  induction e using children_induction generalizing p with
  | rational q =>
    refine ⟨rfl, (textIn_rational p q).trans ?_⟩
    simp [shownAddend, shownFactors, factorsText, factorText, textIn_rational, Fraction.withSign]
  | symbol s c =>
    refine ⟨rfl, (textIn_symbol p s c).trans ?_⟩
    simp [shownAddend, shownFactors, factorsText, factorText, textIn_symbol, negated]
  | sum s es ih =>
    obtain ⟨⟨-, hsum⟩, hes⟩ := everywhere_sum_iff.1 he
    have hgroups : (s || groups p) = true := by simpa [negated] using hp rfl
    have hshows : List.Forall₂ (Shows (some .sum)) es (es.map shownAddend) := by
      rw [List.forall₂_map_right_iff, List.forall₂_same]
      exact fun e he => ih e he (hes e he) fun h => absurd h (hsum e he)
    refine ⟨rfl, (textIn_sum p s hshows).trans ?_⟩
    rw [if_pos hgroups, shownAddend, shownFactors, factorsText, spreadAll_eq,
      factorText_group (isAddend_of_mem_sum he), List.flatMap_nil, List.append_nil]
    rfl
  | product s es ih =>
    obtain ⟨⟨-, hunsigned⟩, hes⟩ := everywhere_product_iff.1 he
    have htext : ∀ e ∈ es, factorText e = factorsText e.shownFactors := fun e he =>
      (ih e he (hes e he) fun _ => .inr rfl).factorText_eq (hunsigned e he).1
    refine ⟨rfl, (textIn_product p s fun e he => (hes e he).self.onTop).trans ?_⟩
    rw [factorsText_flatMap (fun e he => (factor_of_mem_shownFactors (hes e he)).1) htext,
      shownAddend, shownFactors, shownFactorsAll_eq_flatMap]
    rfl
  | power s b x ih _ =>
    obtain ⟨⟨hunsigned, n, hn, rfl⟩, hb, -⟩ := everywhere_power_iff.1 he
    obtain ⟨hne, -, -⟩ := factor_of_mem_shownFactors hb
    have hbase : factorText b = factorsText b.shownFactors :=
      (ih hb fun _ => .inr rfl).factorText_eq hunsigned
    refine ⟨rfl, (textIn_power p s b hn).trans ?_⟩
    rw [shownAddend, shownFactors, factorsText_raiseLast hne hn, hbase, List.append_assoc]
    rfl

/-- Exponents that are numbers are in order. -/
theorem orderExponents_eq_self {e : Expr} (he : Everywhere LegibleNode e) :
    e.orderExponents = e := by
  have hall {es : List Expr} (h : ∀ e ∈ es, e.orderExponents = e) : orderExponentsAll es = es := by
    induction es with
    | nil => rfl
    | cons e es ih =>
      obtain ⟨he, hes⟩ := List.forall_mem_cons.1 h
      rw [orderExponentsAll, he, ih hes]
  induction e using children_induction with
  | rational q => rfl
  | symbol s c => rfl
  | sum s es ih => rw [orderExponents, hall fun e h => ih e h ((everywhere_sum_iff.1 he).2 e h)]
  | product s es ih =>
    rw [orderExponents, hall fun e h => ih e h ((everywhere_product_iff.1 he).2 e h)]
  | power s b x ih _ =>
    obtain ⟨⟨-, n, -, rfl⟩, hb, -⟩ := everywhere_power_iff.1 he
    rw [orderExponents, ih hb]
    rfl

/-- The line of addends that a formula is. -/
def shownAddends : Expr → List (Bool × List Expr)
  | sum false es => es.map shownAddend
  | e => [e.shownAddend]

/-- The formula of a legible expression is the text of the addends that it shows. -/
theorem toList_latex {e : Expr} (he : Everywhere LegibleNode e) :
    e.latex.toList = addendsText e.shownAddends := by
  rw [latex, formula, orderExponents_eq_self he]
  change textIn none e = _
  have hline {e : Expr} (h : Shows none e e.shownAddend) : textIn none e =
      addendsText [e.shownAddend] := by
    rw [h.2, addendsText, List.flatMap_nil, List.append_nil]
  cases e with
  | sum s es =>
    cases s with
    | false =>
      obtain ⟨⟨-, hsum⟩, hes⟩ := everywhere_sum_iff.1 he
      refine textIn_sum none false (List.forall₂_map_right_iff.2 (List.forall₂_same.2 ?_))
      exact fun e h => shows_shownFactors (hes e h) fun hshape => absurd hshape (hsum e h)
    | true => exact hline (shows_shownFactors he fun _ => .inl rfl)
  | rational | symbol | product | power => exact hline (shows_shownFactors he (by rintro ⟨⟩))

theorem isAddend_of_mem_shownAddends {e : Expr} (he : Everywhere LegibleNode e) :
    ∀ t ∈ e.shownAddends, IsAddend t := by
  cases e with
  | sum s es =>
    cases s with
    | false => exact isAddend_of_mem_sum he
    | true => exact List.forall_mem_singleton.2 (isAddend_shownAddend he fun _ => rfl)
  | rational | symbol | product | power =>
    exact List.forall_mem_singleton.2 (isAddend_shownAddend he (by rintro ⟨⟩))

/-- A line of addends as one expression. -/
def assembled : List (Bool × List Expr) → Expr
  | [t] => signedProduct t.1 t.2
  | ts => sum false (ts.map fun t => signedProduct t.1 t.2)

/-- What a legible expression is read as is put together from the addends that it shows. -/
theorem spread_eq_assembled {e : Expr} (he : LegibleNode e) :
    e.spread = assembled e.shownAddends := by
  cases e with
  | sum s es =>
    cases s with
    | false =>
      rw [spread, shownFactors, spreadAll_eq]
      obtain ⟨a, b, es, rfl⟩ : ∃ a b fs, es = a :: b :: fs := by
        cases es with
        | nil => cases he.1
        | cons a es =>
          cases es with
          | nil => exact absurd he.1 (Nat.not_succ_le_self 1)
          | cons b es => exact ⟨a, b, es, rfl⟩
      rfl
    | true => rfl
  | rational | symbol | product | power => rfl

/-- The sign and the factors of a product; any other expression is a single factor. -/
def readAddend : Expr → Bool × List Expr
  | product s fs => (s, fs)
  | e => (e.negated, [e.sign false])

/-- The addends of a sum, with their signs and factors. -/
def readAddends : Expr → List (Bool × List Expr)
  | sum false es => es.map readAddend
  | e => [e.readAddend]

/-- Reading an addend back gives its sign and its factors. -/
theorem IsAddend.readAddend_eq {t : Bool × List Expr} (ht : IsAddend t) :
    readAddend (signedProduct t.1 t.2) = t := by
  obtain ⟨s, fs⟩ := t
  rcases fs with _ | ⟨f, _ | ⟨g, fs⟩⟩
  · rfl
  · have hf : Factor f := ht.factor f List.mem_cons_self
    have hread : readAddend (f.sign s) = ((f.sign s).negated, [(f.sign s).sign false]) := by
      cases hf <;> rfl
    rw [signedProduct, hread, sign_negated, sign_sign, sign_eq_self hf.negated_eq]
  · rfl

/-- What is no sum is read as one addend. -/
theorem readAddends_of_ne {e : Expr} (h : ∀ es, e ≠ sum false es) :
    readAddends e = [e.readAddend] := by
  cases e with
  | sum s es =>
    cases s with
    | false => exact absurd rfl (h es)
    | true => rfl
  | rational | symbol | product | power => rfl

/-- Addends can be told from the expression that they make up. -/
theorem readAddends_assembled {ts : List (Bool × List Expr)} (hts : ∀ t ∈ ts, IsAddend t) :
    readAddends (assembled ts) = ts := by
  have hread : ∀ t ∈ ts, readAddend (signedProduct t.1 t.2) = t :=
    fun t ht => (hts t ht).readAddend_eq
  have hsum : readAddends (sum false (ts.map fun t => signedProduct t.1 t.2)) = ts := by
    rw [readAddends, List.map_map]
    exact (List.map_congr_left hread).trans (List.map_id' ts)
  rcases ts with _ | ⟨t, _ | ⟨u, ts⟩⟩
  · rfl
  · have ht := hts t List.mem_cons_self
    have hread := hread t List.mem_cons_self
    rw [assembled, readAddends_of_ne, hread]
    -- a sum would be a single factor without a sign
    intro es hes
    rw [hes] at hread
    cases hread
    cases ht.separate.2 es rfl
  · exact hsum

end SymScript.Expr
