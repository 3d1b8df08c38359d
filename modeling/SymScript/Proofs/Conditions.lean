import SymScript.Proofs.Speculation

/-!
# Which conditions are read to their ends

A condition of the grammar in front of a block is read up to the block exactly if it is safe.
Reading a comparison that is not safe closes a parenthesis too many: what is left then is always
less deep in parentheses than it should be, and at the block there is no parenthesis to make up for
it.
-/

namespace SymScript

namespace Clause

section Append

variable (K : List TokenKind)

theorem kinds_compare_append (l : Phrase) (op : TokenKind) (h : op.compares = true) (r : Phrase) :
    (compare l op h r).kinds ++ K = l.kinds ++ op :: (r.kinds ++ K) := by
  rw [kinds, List.append_assoc]
  rfl

theorem kinds_group_append (c : Clause) :
    (group c).kinds ++ K = .leftParen :: (c.kinds ++ .rightParen :: K) := by
  rw [kinds, List.cons_append, List.append_assoc]
  rfl

theorem kinds_join_append (l : Clause) (k : TokenKind) (h : k.isConnective = true) (r : Clause) :
    (join l k h r).kinds ++ K = l.kinds ++ k :: (r.kinds ++ K) := by
  rw [kinds, List.append_assoc]
  rfl

end Append

/-- A truth value, which may stand in parentheses. -/
inductive IsTruth : Clause → Prop
  | truth (k : TokenKind) (h : k.isTruthValue = true) : IsTruth (truth k h)
  | group {c : Clause} (hc : IsTruth c) : IsTruth (group c)

end Clause

namespace Recognizer

variable {K W Y Z : List TokenKind} {d : Nat} {c : Clause}

/-! ### Conditions in parentheses -/

/-- A truth value is read as a simple condition. -/
theorem simple_truth (hc : c.IsTruth) (hK : EndsClause K) : simple (c.kinds ++ K) = some K := by
  induction hc generalizing K with
  | truth k h =>
    have hk : k ≠ .not := by rintro rfl; cases h
    rw [Clause.kinds, List.cons_append, simple_cons, if_neg hk, if_pos h]
    rfl
  | @group c _ ih =>
    have hinner : simple (c.kinds ++ .rightParen :: K) = some (.rightParen :: K) :=
      ih rfl
    have hclose : close (.rightParen :: K) = some K := close_eq_some_iff.2 ⟨rfl, hK⟩
    rw [Clause.kinds_group_append, simple_paren, condition_of_simple hinner,
      connectives_of_next rfl, Option.bind_some, hclose, Option.some_or]

/-- A truth value is also read as an operand. -/
theorem expression_truth (hc : c.IsTruth) (hK : next K ≠ .leftParen) :
    expression (c.kinds ++ K) = operators K := by
  induction hc generalizing K with
  | truth k h =>
    have hk : k.isSign = false ∧ k ≠ .leftParen := by
      rcases TokenKind.isTruthValue_iff.1 h with rfl | rfl <;> decide
    exact expression_token hk.1 hk.2 fun _ => hK
  | group hc ih =>
    rw [Clause.kinds_group_append, expression_paren, ih (by rintro ⟨⟩), operators_of_next rfl]
    rfl

/-- A condition begins as an expression does, or with a truth value or a negation. -/
theorem next_clause (c : Clause) (K : List TokenKind) :
    next (c.kinds ++ K) = next c.kinds ∧ ((next c.kinds).opensPhrase = true ∨
      next c.kinds = .true ∨ next c.kinds = .false ∨ next c.kinds = .not) := by
  induction c generalizing K with
  | truth k h => exact ⟨rfl, .inr ((TokenKind.isTruthValue_iff.1 h).imp id .inl)⟩
  | compare l op h r =>
    rw [Clause.kinds, List.append_assoc, (next_phrase l _).1, (next_phrase l _).1]
    exact ⟨rfl, .inl (next_phrase l K).2⟩
  | negation c ih => exact ⟨rfl, .inr (.inr (.inr rfl))⟩
  | group c ih => exact ⟨rfl, .inl rfl⟩
  | join l k h r ihl ihr =>
    rw [Clause.kinds, List.append_assoc, (ihl _).1, (ihl _).1]
    exact ⟨rfl, (ihl K).2⟩

theorem isSign_next_of_isTruth (hc : c.IsTruth) : (next c.kinds).isSign = false := by
  cases hc with
  | truth k h => rcases TokenKind.isTruthValue_iff.1 h with rfl | rfl <;> rfl
  | group hc => rfl

/-- An expression that is read from the beginning of a condition ends before a closing parenthesis
only if it is a truth value. -/
theorem isTruth_of_expression (h : expression (c.kinds ++ K) = some Y) (hY : next Y = .rightParen) :
    c.IsTruth := by
  induction c generalizing K Y with
  | truth k hk => exact .truth k hk
  | compare l op hop r =>
    have hX : After op r K 0 (op :: (r.kinds ++ K)) := .compare
    rw [Clause.kinds_compare_append, expression_phrase l (hX.next_ne hop), operators_compare hop]
      at h
    cases h
    exact absurd hY (stuck_compare hop _).1
  | negation c ih =>
    rw [Clause.kinds, List.cons_append, expression_token rfl (by decide) (by rintro ⟨⟩)] at h
    obtain ⟨hnext, hopens⟩ := next_clause c K
    by_cases hs : (next c.kinds).isSign
    · rw [operators_of_sign (by rw [hnext]; exact hs)] at h
      rw [isSign_next_of_isTruth (ih h hY)] at hs
      cases hs
    · have hother : (next c.kinds).isOperator = false ∧ next c.kinds ≠ .rightParen := by
        rcases hopens with hopens | hopens | hopens | hopens
        · rcases TokenKind.opensPhrase_cases hopens with h | h
          · exact absurd h hs
          · exact ⟨h.1, h.2.1⟩
        all_goals
          rw [hopens]
          decide
      rw [operators_of_next (by rw [hnext]; exact hother.1)] at h
      cases h
      exact absurd (hnext ▸ hY) hother.2
  | group c ih =>
    rw [Clause.kinds_group_append, expression_paren] at h
    obtain ⟨W, hW, -⟩ := Option.bind_eq_some_iff.1 h
    obtain ⟨V, hV, hW⟩ := Option.bind_eq_some_iff.1 hW
    rw [expect_eq_some_iff] at hW
    exact .group (ih hV (by rw [hW]; rfl))
  | join l k hk r ihl ihr =>
    rw [Clause.kinds_join_append] at h
    have hne : next (k :: (r.kinds ++ K)) ≠ .leftParen := by rintro rfl; cases hk
    have hother : (next (k :: (r.kinds ++ K))).isOperator = false ∧ k ≠ .rightParen := by
      rcases TokenKind.isConnective_iff.1 hk with rfl | rfl
      · exact ⟨rfl, by decide⟩
      · exact ⟨rfl, by decide⟩
    rw [expression_truth (ihl h hY) hne, operators_of_next hother.1] at h
    cases h
    exact absurd hY hother.2

/-- A parenthesis around a condition cannot be read in another way. -/
theorem simple_group (c : Clause) (hK : EndsClause K) :
    simple ((Clause.group c).kinds ++ K) =
      (condition (c.kinds ++ .rightParen :: K)).bind close := by
  by_cases hc : c.IsTruth
  · have hinner : simple (c.kinds ++ .rightParen :: K) = some (.rightParen :: K) :=
      simple_truth hc rfl
    rw [simple_truth (.group hc) hK, condition_of_simple hinner, connectives_of_next rfl]
    exact (close_eq_some_iff.2 ⟨rfl, hK⟩).symm
  · have hfail : (expression (c.kinds ++ .rightParen :: K)).bind (expect .rightParen) = none := by
      cases hY : expression (c.kinds ++ .rightParen :: K) with
      | none => rfl
      | some Y =>
        rw [Option.bind_some, Option.eq_none_iff_forall_ne_some]
        intro Z hZ
        rw [expect_eq_some_iff] at hZ
        exact hc (isTruth_of_expression hY (by rw [hZ]; rfl))
    rw [Clause.kinds_group_append, simple_paren, comparison, expression_paren, hfail]
    exact Option.or_none

/-! ### What is left of a condition -/

/-- What can follow a condition, with `d` parentheses to be closed before the block. -/
inductive Rest : Nat → List TokenKind → Prop
  | brace (K : List TokenKind) : Rest 0 (.leftBrace :: K)
  | close {d : Nat} {K : List TokenKind} (h : Rest d K) : Rest (d + 1) (.rightParen :: K)
  | join {d : Nat} {K : List TokenKind} {k : TokenKind} (hk : k.isConnective = true) (c : Clause)
      (h : Rest d K) : Rest d (k :: (c.kinds ++ K))

theorem Rest.endsClause (h : Rest d K) : EndsClause K := by
  cases h with
  | brace K => rfl
  | close h => rfl
  | join hk c h => rcases TokenKind.isConnective_iff.1 hk with rfl | rfl <;> rfl

/-- Closing a parenthesis leaves one less. -/
theorem Rest.of_close (h : Rest d W) (hY : Recognizer.close W = some Y) :
    ∃ d', d = d' + 1 ∧ Rest d' Y := by
  obtain ⟨rfl, -⟩ := close_eq_some_iff.1 hY
  cases h with
  | close h => exact ⟨_, rfl, h⟩
  | join hk c h => cases hk

/-- What is left when reading stops before fewer than `d` parentheses. -/
def Shallower (d : Nat) (Z : List TokenKind) : Prop :=
  ∃ d' < d, Rest d' Z ∧ (next Z).isConnective = false

theorem Shallower.mono {d' : Nat} (h : Shallower d Z) (hd : d ≤ d') : Shallower d' Z := by
  obtain ⟨e, he, h⟩ := h
  exact ⟨e, Nat.lt_of_lt_of_le he hd, h⟩

/-- Closing what is less deep leaves a rest that is. -/
theorem Shallower.rest_of_close (h : Shallower (d + 1) W) (hY : close W = some Y) :
    ∃ d' < d, Rest d' Y := by
  obtain ⟨e, he, hW, -⟩ := h
  obtain ⟨d', rfl, hY⟩ := hW.of_close hY
  exact ⟨d', Nat.lt_of_succ_lt_succ he, hY⟩

/-- Conditions with what follows, of at most `n` tokens, are read to their ends or too far. -/
def EndsOrOverruns (n : Nat) : Prop := ∀ {c : Clause} {K Z : List TokenKind} {d : Nat},
  (c.kinds ++ K).length ≤ n → Rest d K → condition (c.kinds ++ K) = some Z →
    connectives K = some Z ∨ Shallower d Z

/-- Reading on behind a clause ends less deep, on shorter lists. -/
theorem shallower_of_connectives_within {n : Nat} (hn : EndsOrOverruns n) (hK : Rest d K)
    (hlen : K.length ≤ n) (hZ : connectives K = some Z) : Shallower (d + 1) Z := by
  induction hK with
  | brace K =>
    rw [connectives_of_next rfl] at hZ
    cases hZ
    exact ⟨0, Nat.zero_lt_one, .brace K, rfl⟩
  | @close d K h ih =>
    rw [connectives_of_next rfl] at hZ
    cases hZ
    exact ⟨d + 1, Nat.lt_succ_self _, h.close, rfl⟩
  | @join d K k hk c h ih =>
    rw [connectives_cons hk] at hZ
    rw [List.length_cons] at hlen
    have hlen' : K.length ≤ n := by
      rw [List.length_append] at hlen
      omega
    rcases hn (by omega) h hZ with hZ | hZ
    · exact ih hlen' hZ
    · exact hZ.mono (Nat.le_succ d)

/-- Reading on behind a closed parenthesis ends less deep, on shorter lists. -/
theorem shallower_of_close_within {n : Nat} (hn : EndsOrOverruns n) (hW : Shallower (d + 1) W)
    (hY : close W = some Y) (hlen : Y.length ≤ n) (hZ : connectives Y = some Z) :
    Shallower d Z := by
  obtain ⟨d', hd, hrest⟩ := hW.rest_of_close hY
  exact (shallower_of_connectives_within hn hrest hlen hZ).mono hd

theorem condition_shrinks : Shrinks condition := chain_shrinks simple_shrinks

/-- A negation does not change what is left. -/
theorem condition_not (ks : List TokenKind) : condition (.not :: ks) = condition ks := by
  rw [condition, chain, simple_cons]
  rfl

/-- A condition is read to its end or overruns it, by induction on the length. -/
theorem endsOrOverruns (n : Nat) : EndsOrOverruns n := by
  induction n using Nat.strongRecOn with
  | ind n hn =>
    intro c K Z d hlen hK hZ
    -- the left side of a connective has the same tokens before it and after it as the whole
    induction c generalizing K Z d with
    | truth k h =>
      rw [condition_of_simple (simple_truth (.truth k h) hK.endsClause)] at hZ
      exact .inl hZ
    | negation c ih =>
      rw [Clause.kinds, List.cons_append] at hlen hZ
      rw [condition_not] at hZ
      exact ih (Nat.le_of_succ_le hlen) hK hZ
    | compare l op hop r =>
      rw [Clause.kinds_compare_append] at hlen hZ
      rw [condition, chain, simple_compare hop hK.endsClause] at hZ
      split at hZ
      · cases hattempt : (connectives K).bind close with
        | none =>
          rw [hattempt] at hZ
          exact .inl hZ
        | some Y =>
          rw [hattempt] at hZ
          obtain ⟨W, hW, hY⟩ := Option.bind_eq_some_iff.1 hattempt
          have hKn : K.length < n := by
            rw [List.length_append, List.length_cons, List.length_append] at hlen
            omega
          have hYn : Y.length ≤ K.length :=
            Nat.le_trans (length_of_close hY) (length_of_loop simple_shrinks hW)
          have hshallower := shallower_of_connectives_within (hn K.length hKn) hK (Nat.le_refl _) hW
          exact .inr (shallower_of_close_within (hn K.length hKn) hshallower hY hYn hZ)
      · exact .inl hZ
    | group c ih =>
      rw [condition, chain, simple_group c hK.endsClause] at hZ
      rw [Clause.kinds_group_append, List.length_cons] at hlen
      obtain ⟨Y, hY, hZ⟩ := Option.bind_eq_some_iff.1 hZ
      obtain ⟨W, hW, hY⟩ := Option.bind_eq_some_iff.1 hY
      rcases ih (Nat.le_of_succ_le hlen) hK.close hW with hinner | hinner
      · rw [connectives_of_next rfl] at hinner
        cases hinner
        cases (close_eq_some_iff.1 hY).1
        exact .inl hZ
      · have hYn : Y.length < n := by
          have hWn := condition_shrinks hW
          have hYW := length_of_close hY
          omega
        exact .inr (shallower_of_close_within (hn Y.length hYn) hinner hY (Nat.le_refl _) hZ)
    | join l k hk r ihl ihr =>
      rw [Clause.kinds_join_append] at hlen hZ
      rcases ihl hlen (hK.join hk r) hZ with hZ | hZ
      · rw [connectives_cons hk] at hZ
        refine ihr ?_ hK hZ
        rw [List.length_append, List.length_cons] at hlen
        omega
      · exact .inr hZ

/-- Reading on behind a clause ends less deep. -/
theorem shallower_of_connectives (hK : Rest d K) (hZ : connectives K = some Z) :
    Shallower (d + 1) Z :=
  shallower_of_connectives_within (endsOrOverruns _) hK (Nat.le_refl _) hZ

/-- Reading on behind a closed parenthesis ends less deep. -/
theorem shallower_of_close (hW : Shallower (d + 1) W) (hY : close W = some Y)
    (hZ : connectives Y = some Z) : Shallower d Z :=
  shallower_of_close_within (endsOrOverruns _) hW hY (Nat.le_refl _) hZ

/-! ### Safe and unsafe conditions -/

/-- With no parenthesis to close, nothing looks like the end of one. -/
theorem declined_of_rest_zero (hK : Rest 0 K) : (connectives K).bind close = none := by
  rw [Option.bind_eq_none_iff]
  intro W hW
  rw [Option.eq_none_iff_forall_ne_some]
  intro Y hY
  obtain ⟨d, hd, -⟩ := (shallower_of_connectives hK hW).rest_of_close hY
  omega

/-- A safe condition is read to its end. -/
theorem condition_of_safe {inside : Bool} (hc : c.safe inside = true) (hd : inside = true ∨ d = 0)
    (hK : Rest d K) : condition (c.kinds ++ K) = connectives K := by
  induction c generalizing inside d K with
  | truth k h => exact condition_of_simple (simple_truth (.truth k h) hK.endsClause)
  | negation c ih =>
    rw [Clause.kinds, List.cons_append, condition_not]
    exact ih hc hd hK
  | compare l op hop r =>
    rw [Clause.kinds_compare_append]
    refine condition_of_simple ?_
    rw [simple_compare hop hK.endsClause]
    rcases hd with rfl | rfl
    · rw [Clause.safe, Bool.true_and, Bool.not_eq_true'] at hc
      rw [hc]
      rfl
    · rw [declined_of_rest_zero hK, Option.none_or, ite_self]
  | group c ih =>
    refine condition_of_simple ?_
    rw [simple_group c hK.endsClause, ih hc (.inl rfl) hK.close, connectives_of_next rfl]
    exact close_eq_some_iff.2 ⟨rfl, hK.endsClause⟩
  | join l k hk r ihl ihr =>
    rw [Clause.safe, Bool.and_eq_true] at hc
    rw [Clause.kinds_join_append, ihl hc.1 hd (hK.join hk r), connectives_cons hk, ihr hc.2 hd hK]

/-- An unsafe condition is read too far, if at all. -/
theorem shallower_of_not_safe {inside : Bool} (hc : c.safe inside = false)
    (hd : inside = true → 0 < d)
    (hK : Rest d K) (hZ : condition (c.kinds ++ K) = some Z) : Shallower d Z := by
  induction c generalizing inside d K Z with
  | truth k h => cases hc
  | negation c ih =>
    rw [Clause.kinds, List.cons_append, condition_not] at hZ
    exact ih hc hd hK hZ
  | compare l op hop r =>
    rw [Clause.safe, Bool.not_eq_false', Bool.and_assoc, Bool.and_eq_true] at hc
    rw [Clause.kinds_compare_append, condition, chain, simple_compare hop hK.endsClause,
      if_pos hc.2] at hZ
    cases hattempt : (connectives K).bind close with
    | some Y =>
      rw [hattempt] at hZ
      obtain ⟨W, hW, hY⟩ := Option.bind_eq_some_iff.1 hattempt
      exact shallower_of_close (shallower_of_connectives hK hW) hY hZ
    | none =>
      -- no parenthesis follows at all
      rw [hattempt] at hZ
      change connectives K = some Z at hZ
      rw [hZ, Option.bind_some] at hattempt
      obtain ⟨d', hd', hrest, hnext⟩ := shallower_of_connectives hK hZ
      cases hrest with
      | brace X => exact ⟨0, hd hc.1, .brace X, rfl⟩
      | close h =>
        rw [close_eq_some_iff.2 ⟨rfl, h.endsClause⟩] at hattempt
        cases hattempt
      | join hk c h =>
        rw [next_cons, hk] at hnext
        cases hnext
  | group c ih =>
    rw [condition, chain, simple_group c hK.endsClause] at hZ
    obtain ⟨Y, hY, hZ⟩ := Option.bind_eq_some_iff.1 hZ
    obtain ⟨W, hW, hY⟩ := Option.bind_eq_some_iff.1 hY
    exact shallower_of_close (ih hc (fun _ => Nat.succ_pos d) hK.close hW) hY hZ
  | join l k hk r ihl ihr =>
    rw [Clause.kinds_join_append] at hZ
    rw [Clause.safe, Bool.and_eq_false_iff] at hc
    rcases hc with hc | hc
    · exact ihl hc hd (hK.join hk r) hZ
    · rcases endsOrOverruns _ (Nat.le_refl _) (hK.join hk r) hZ with hZ | hZ
      · rw [connectives_cons hk] at hZ
        exact ihr hc hd hK hZ
      · exact hZ

/-- In front of a block, a condition is read if and only if it is safe. -/
theorem condition_brace (c : Clause) (K : List TokenKind) :
    condition (c.kinds ++ .leftBrace :: K) = if c.safe false then some (.leftBrace :: K)
      else none := by
  have hK : Rest 0 (.leftBrace :: K) := .brace K
  by_cases hc : c.safe false
  · rw [if_pos hc, condition_of_safe hc (.inr rfl) hK, connectives_of_next rfl]
  · rw [if_neg hc, Option.eq_none_iff_forall_ne_some]
    intro Z hZ
    obtain ⟨d, hd, -⟩ := shallower_of_not_safe (Bool.eq_false_iff.2 hc) (by rintro ⟨⟩) hK hZ
    omega

end Recognizer

end SymScript
