import SymScript.Proofs.Derivative
import SymScript.Proofs.PolynomialExpansion

/-!
# Putting a number for the only letter

The letters of an expression are looked for without their signs, but a letter is replaced only where
it stands with the sign that is looked for.  Evaluation therefore replaces every letter that is not
negated and leaves every negated one.  Where no letter is negated, no letter is left and the result
has the value of the expression; otherwise it has that value as long as the letter has the value of
the number.
-/

namespace SymScript.Expr

/-! ### Letters -/

/-- The letters of an expression with their signs, from left to right. -/
def symbolNodes (e : Expr) : List Expr := e.nodes.filter fun n => n.shape == .symbol

theorem nodesAll_eq_flatMap (es : List Expr) : nodesAll es = es.flatMap nodes := by
  induction es with
  | nil => rfl
  | cons e es ih => rw [nodesAll, ih, List.flatMap_cons]

theorem symbolNodes_sum (s : Bool) (es : List Expr) :
    (sum s es).symbolNodes = es.flatMap symbolNodes := by
  rw [symbolNodes, nodes, nodesAll_eq_flatMap, List.filter_cons_of_neg (by simp [shape]),
    List.filter_flatMap]
  rfl

theorem symbolNodes_product (s : Bool) (es : List Expr) :
    (product s es).symbolNodes = es.flatMap symbolNodes := by
  rw [symbolNodes, nodes, nodesAll_eq_flatMap, List.filter_cons_of_neg (by simp [shape]),
    List.filter_flatMap]
  rfl

theorem symbolNodes_power (s : Bool) (b x : Expr) :
    (power s b x).symbolNodes = b.symbolNodes ++ x.symbolNodes := by
  rw [symbolNodes, nodes, List.filter_cons_of_neg (by simp [shape]), List.filter_append]
  rfl

/-- The letters of an expression are its nodes that are symbols. -/
theorem mem_symbolNodes {n e : Expr} :
    n ∈ e.symbolNodes ↔ ∃ s c, n = symbol s c ∧ symbol s c ∈ e.nodes := by
  rw [symbolNodes, List.mem_filter]
  constructor
  · rintro ⟨hn, hshape⟩
    cases n with
    | symbol s c => exact ⟨s, c, rfl, hn⟩
    | _ => cases hshape
  · rintro ⟨s, c, rfl, hn⟩
    exact ⟨hn, rfl⟩

/-- Expressions have the same value under assignments that agree on their letters. -/
theorem value_congr {K : Type*} [Field K] {ρ σ : Char → K} {e : Expr}
    (h : ∀ s c, symbol s c ∈ e.symbolNodes → ρ c = σ c) : value ρ e = value σ e := by
  induction e using children_induction with
  | rational q => rfl
  | symbol s c => rw [value, value, h s c List.mem_cons_self]
  | sum s es ih =>
    rw [symbolNodes_sum] at h
    rw [value, value, valueSum_eq, valueSum_eq, List.map_congr_left]
    intro e he
    exact ih e he fun t c hc => h t c (List.mem_flatMap.2 ⟨e, he, hc⟩)
  | product s es ih =>
    rw [symbolNodes_product] at h
    rw [value, value, valueProduct_eq, valueProduct_eq, List.map_congr_left]
    intro e he
    exact ih e he fun t c hc => h t c (List.mem_flatMap.2 ⟨e, he, hc⟩)
  | power s b x ihb ihx =>
    rw [symbolNodes_power] at h
    rw [value, value, ihb fun t c hc => h t c (List.mem_append_left _ hc)]

/-! ### The letters that are found -/

/-- Adjoining members gives all of them. -/
theorem mem_foldl_adjoin {p : Expr} {acc es : List Expr} :
    p ∈ es.foldl adjoin acc ↔ p ∈ acc ∨ p ∈ es := by
  refine ⟨mem_of_mem_foldl_adjoin, fun h => ?_⟩
  induction es generalizing acc with
  | nil => exact h.resolve_right List.not_mem_nil
  | cons e es ih =>
    refine ih ?_
    have hacc : ∀ d, d ∈ acc ∨ d = e → d ∈ adjoin acc e := by
      intro d hd
      rw [adjoin]
      split
      · rename_i hcontains
        rcases hd with hd | rfl
        · exact hd
        · exact List.contains_iff_mem.1 hcontains
      · simpa using hd
    rcases h with h | h
    · exact .inl (hacc p (.inl h))
    · rcases List.mem_cons.1 h with rfl | h
      · exact .inl (hacc p (.inr rfl))
      · exact .inr h

/-- Adjoining keeps a list without repetitions. -/
theorem nodup_foldl_adjoin {acc : List Expr} (es : List Expr) (h : acc.Nodup) :
    (es.foldl adjoin acc).Nodup := by
  induction es generalizing acc with
  | nil => exact h
  | cons e es ih =>
    refine ih ?_
    rw [adjoin]
    split
    · exact h
    · rename_i hcontains
      refine h.append (List.nodup_singleton e) ?_
      simpa using hcontains

/-- The parts of a list are those of its members. -/
theorem mem_partsAll {k : Shape} {p : Expr} {es : List Expr} :
    p ∈ partsAll k es ↔ ∃ e ∈ es, p ∈ parts k e := by
  refine ⟨exists_of_mem_partsAll, ?_⟩
  rintro ⟨e, he, hp⟩
  induction es with
  | nil => cases he
  | cons d es ih =>
    rw [partsAll, mem_foldl_adjoin]
    rcases List.mem_cons.1 he with rfl | he
    · exact .inl hp
    · exact .inr (ih he)

/-- The letters that are found in a list are those of its members, without their signs. -/
theorem mem_partsAll_symbol {p : Expr} {es : List Expr}
    (h : ∀ e ∈ es, p ∈ parts .symbol e ↔ ∃ n ∈ e.symbolNodes, p = n.sign false) :
    p ∈ partsAll .symbol es ↔ ∃ n ∈ es.flatMap symbolNodes, p = n.sign false := by
  rw [mem_partsAll]
  constructor
  · rintro ⟨e, he, hp⟩
    obtain ⟨n, hn, hp⟩ := (h e he).1 hp
    exact ⟨n, List.mem_flatMap.2 ⟨e, he, hn⟩, hp⟩
  · rintro ⟨n, hn, hp⟩
    obtain ⟨e, he, hn⟩ := List.mem_flatMap.1 hn
    exact ⟨e, he, (h e he).2 ⟨n, hn, hp⟩⟩

/-- The letters of an expression are found without their signs. -/
theorem mem_symbols {p e : Expr} : p ∈ e.symbols ↔ ∃ n ∈ e.symbolNodes, p = n.sign false := by
  rw [symbols]
  induction e using children_induction with
  | rational q => simp [parts, symbolNodes, nodes, shape]
  | symbol s c => simp [parts, symbolNodes, nodes, shape, withSign, copy]
  | sum s es ih =>
    rw [parts, if_neg (by decide), symbolNodes_sum]
    exact mem_partsAll_symbol ih
  | product s es ih =>
    rw [parts, if_neg (by decide), symbolNodes_product]
    exact mem_partsAll_symbol ih
  | power s b x ihb ihx =>
    rw [parts, if_neg (by decide), mem_foldl_adjoin, mem_foldl_adjoin, ihb, ihx, symbolNodes_power]
    simp [or_and_right, exists_or]

/-- No part is found twice. -/
theorem nodup_parts (k : Shape) (e : Expr) : (parts k e).Nodup := by
  have hall {es : List Expr} (h : ∀ e ∈ es, (parts k e).Nodup) : (partsAll k es).Nodup := by
    cases es with
    | nil => exact List.nodup_nil
    | cons e es => exact nodup_foldl_adjoin _ (h e List.mem_cons_self)
  induction e using children_induction with
  | rational q =>
    rw [parts]
    split <;> simp
  | symbol s c =>
    rw [parts]
    split <;> simp
  | sum s es ih =>
    rw [parts]
    split
    · exact List.nodup_singleton _
    · exact hall ih
  | product s es ih =>
    rw [parts]
    split
    · exact List.nodup_singleton _
    · exact hall ih
  | power s b x =>
    rw [parts]
    split
    · exact List.nodup_singleton _
    · exact nodup_foldl_adjoin _ (nodup_foldl_adjoin _ List.nodup_nil)

/-- The only letter is found, whatever its signs. -/
theorem onlySymbol?_eq {e : Expr} {c : Char} (hoccurs : ∃ s, symbol s c ∈ e.nodes)
    (honly : ∀ s d, symbol s d ∈ e.nodes → d = c) : e.onlySymbol? = some (symbol false c) := by
  have hmem : ∀ p, p ∈ e.symbols ↔ p = symbol false c := by
    intro p
    rw [mem_symbols]
    constructor
    · rintro ⟨n, hn, rfl⟩
      obtain ⟨s, d, rfl, hnode⟩ := mem_symbolNodes.1 hn
      rw [honly s d hnode]
      rfl
    · rintro rfl
      obtain ⟨s, hs⟩ := hoccurs
      exact ⟨symbol s c, mem_symbolNodes.2 ⟨s, c, rfl, hs⟩, rfl⟩
  have hsymbols : e.symbols = [symbol false c] := by
    refine List.Perm.eq_singleton ((List.perm_ext_iff_of_nodup (nodup_parts _ e)
      (List.nodup_singleton _)).2 fun p => ?_)
    rw [List.mem_singleton]
    exact hmem p
  rw [onlySymbol?, hsymbols]

/-! ### Replacing a letter -/

section Substitute

variable (c : Char) (q : Fraction)

theorem substituteAll_eq_map (old new : Expr) (es : List Expr) :
    substituteAll old new es = es.map (substitute old new) := by
  induction es with
  | nil => rfl
  | cons e es ih => rw [substituteAll, ih, List.map_cons]

theorem substitute_sum (s : Bool) (es : List Expr) :
    substitute (symbol false c) (rational q) (sum s es) =
      sum s (es.map (substitute (symbol false c) (rational q))) := by
  rw [substitute, substituteAll_eq_map]
  rfl

theorem substitute_product (s : Bool) (es : List Expr) :
    substitute (symbol false c) (rational q) (product s es) =
      product s (es.map (substitute (symbol false c) (rational q))) := by
  rw [substitute, substituteAll_eq_map]
  rfl

theorem substitute_power (s : Bool) (b x : Expr) :
    substitute (symbol false c) (rational q) (power s b x) =
      power s (substitute (symbol false c) (rational q) b)
        (substitute (symbol false c) (rational q) x) := by
  rw [substitute]
  rfl

/-- Only the letter itself, without a sign, is replaced. -/
theorem substitute_symbol (s : Bool) (d : Char) :
    substitute (symbol false c) (rational q) (symbol s d) =
      if symbol s d = symbol false c then rational q else symbol s d := by
  rw [substitute]
  simp only [beq_iff_eq]

/-- A number in the place of a letter removes the letter where it is not negated, and nothing
else. -/
theorem symbolNodes_substitute (e : Expr) :
    (substitute (symbol false c) (rational q) e).symbolNodes =
      e.symbolNodes.filter (· != symbol false c) := by
  induction e using children_induction with
  | rational p => rfl
  | symbol s d =>
    rw [substitute_symbol]
    by_cases h : symbol s d = symbol false c
    · rw [if_pos h, h]
      simp [symbolNodes, nodes, shape]
    · rw [if_neg h]
      simp [symbolNodes, nodes, shape, h]
  | sum s es ih =>
    rw [substitute_sum, symbolNodes_sum, symbolNodes_sum, List.flatMap_map, List.filter_flatMap]
    exact List.flatMap_congr ih
  | product s es ih =>
    rw [substitute_product, symbolNodes_product, symbolNodes_product, List.flatMap_map,
      List.filter_flatMap]
    exact List.flatMap_congr ih
  | power s b x ihb ihx =>
    rw [substitute_power, symbolNodes_power, symbolNodes_power, ihb, ihx, List.filter_append]

variable {c q}

/-- A number in the place of a letter keeps the value of a polynomial if the letter has the value of
the number. -/
theorem value_substitute {K : Type*} [Field K] {ρ : Char → K} (hρ : ρ c = q.toRat) {e : Expr}
    (h : Everywhere PolynomialNode e) :
    value ρ (substitute (symbol false c) (rational q) e) = value ρ e := by
  induction e using children_induction with
  | rational p => rfl
  | symbol s d =>
    rw [substitute_symbol]
    split
    · rename_i heq
      cases heq
      exact hρ.symm
    · rfl
  | sum s es ih =>
    rw [substitute_sum, value, value, valueSum_eq, valueSum_eq, List.map_map, List.map_congr_left]
    intro e he
    exact ih e he ((everywhere_sum_iff.1 h).2 e he)
  | product s es ih =>
    rw [substitute_product, value, value, valueProduct_eq, valueProduct_eq, List.map_map,
      List.map_congr_left]
    intro e he
    exact ih e he ((everywhere_product_iff.1 h).2 e he)
  | power s b x ihb =>
    obtain ⟨hnode, hb, -⟩ := everywhere_power_iff.1 h
    cases x with
    | rational p =>
      rw [substitute_power, value, ihb hb, value]
      rfl
    | _ => cases hnode

end Substitute

/-! ### Evaluation -/

/-- Evaluating a polynomial in one letter returns.  The letters that are left are the negated ones,
and the value is that of the polynomial wherever the letter has the value of the number.  So no
letter is left if and only if none is negated, and the result then has that value everywhere. -/
theorem eval_polynomial {e : Expr} (h : Everywhere PolynomialNode e) {c : Char}
    (hoccurs : ∃ s, symbol s c ∈ e.nodes) (honly : ∀ s d, symbol s d ∈ e.nodes → d = c)
    (q : Fraction) :
    ∃ r, e.eval (rational q) = .ok r ∧
      r.symbolNodes = e.symbolNodes.filter negated ∧
      (r.symbolNodes = [] ↔ symbol true c ∉ e.nodes) ∧
      (∀ ρ : Char → ℚ, ρ c = q.toRat → value ρ r = value ρ e) ∧
      (symbol true c ∉ e.nodes →
        ∀ ρ : Char → ℚ, value ρ r = value (Function.update ρ c q.toRat) e) := by
  have hnegated : e.symbolNodes.filter (· != symbol false c) = e.symbolNodes.filter negated := by
    refine List.filter_congr fun n hn => ?_
    obtain ⟨s, d, rfl, hnode⟩ := mem_symbolNodes.1 hn
    rw [honly s d hnode]
    cases s <;> simp [negated]
  have hleft := (symbolNodes_substitute c q e).trans hnegated
  have hnil : e.symbolNodes.filter negated = [] ↔ symbol true c ∉ e.nodes := by
    rw [List.filter_eq_nil_iff]
    constructor
    · intro hall hmem
      exact hall _ (mem_symbolNodes.2 ⟨true, c, rfl, hmem⟩) rfl
    · intro hmem n hn hneg
      obtain ⟨s, d, rfl, hnode⟩ := mem_symbolNodes.1 hn
      obtain rfl : s = true := hneg
      exact hmem (honly true d hnode ▸ hnode)
  have heval : e.eval (rational q) = .ok (substitute (symbol false c) (rational q) e) := by
    unfold eval
    rw [onlySymbol?_eq hoccurs honly]
  refine ⟨_, heval, hleft, hleft ▸ hnil, fun ρ hρ => ?_, fun hmem ρ => ?_⟩
  · exact value_substitute (by rw [hρ, Rat.cast_id]) h
  · have hupdate : Function.update ρ c q.toRat c = (q.toRat : ℚ) := Function.update_self c _ ρ
    rw [← value_substitute (hupdate.trans (Rat.cast_id _).symm) h]
    refine value_congr fun s d hd => ?_
    rw [hleft, hnil.2 hmem] at hd
    cases hd

/-- The polynomial `1 + x ^ 2 - x`. -/
def quadratic : Expr :=
  sum false [ofNat 1, power false (symbol false 'x') (ofNat 2), symbol true 'x']

/-- With 3 for the letter, the quadratic polynomial becomes `1 + 3 ^ 2 - x`. -/
theorem eval_polynomial_quadratic :
    Everywhere PolynomialNode quadratic ∧ symbol true 'x' ∈ quadratic.nodes ∧
    ∃ r, quadratic.eval (ofNat 3) = .ok r ∧ r.symbolNodes = [symbol true 'x'] ∧
      ∀ ρ : Char → ℚ, ρ 'x' = 3 → value ρ r = 7 := by
  have hpolynomial : Everywhere PolynomialNode quadratic := by decide
  have hoccurs : symbol true 'x' ∈ quadratic.nodes := by decide
  have honly : ∀ s d, symbol s d ∈ quadratic.nodes → d = 'x' := by
    simp [quadratic, nodes, nodesAll, ofNat]
  obtain ⟨r, hr, hleft, -, hvalue, -⟩ :=
    eval_polynomial hpolynomial ⟨true, hoccurs⟩ honly (.ofNat 3)
  refine ⟨hpolynomial, hoccurs, r, hr, hleft, fun ρ hρ => ?_⟩
  have hsquare : integer (ofNat 2) = 2 := rfl
  rw [hvalue ρ (by simpa using hρ)]
  simp only [quadratic, value, valueSum, value_ofNat, hsquare, hρ, signed_false, signed_true]
  norm_num

/-- A negated letter alone is left as it is, also beside a number. -/
theorem eval_negated_letter :
    simplify (symbol true 'x') = .ok (symbol true 'x') ∧
    simplify (sum false [ofNat 1, symbol true 'x']) = .ok (sum false [ofNat 1, symbol true 'x']) ∧
    Everywhere PolynomialNode (sum false [ofNat 1, symbol true 'x']) ∧
    eval (symbol true 'x') (ofNat 2) = .ok (symbol true 'x') ∧
    eval (sum false [ofNat 1, symbol true 'x']) (ofNat 2) =
      .ok (sum false [ofNat 1, symbol true 'x']) := by
  refine ⟨rfl, ?_, by decide, rfl, ?_⟩ <;> with_unfolding_all rfl

end SymScript.Expr
