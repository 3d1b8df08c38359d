import SymScript.Proofs.Phrases

/-!
# Reading a parenthesis as a condition

A parenthesis at the beginning of a condition is first read as if a condition stood in it, where any
token may be an operand.  When it is the left side of a comparison, this is given up in all cases
but one: when the left side is nothing else than the parenthesis and the right side begins with a
sign, the closing parenthesis and the rest of the comparison are taken as a comparison of their own,
and what is read ends with the next closing parenthesis, if there is one.
-/

namespace SymScript

namespace TokenKind

theorem followsCondition_of_isOperator {k : TokenKind} (h : k.isOperator) :
    k.followsCondition = Bool.false := by
  cases k <;> first | rfl | cases h

theorem isConnective_of_isOperator {k : TokenKind} (h : k.isOperator) :
    k.isConnective = Bool.false := by
  cases k <;> first | rfl | cases h

theorem followsCondition_of_compares {k : TokenKind} (h : k.compares) :
    k.followsCondition = Bool.false := by
  rcases compares_iff.1 h with rfl | rfl | rfl | rfl | rfl <;> rfl

theorem isOperator_of_compares {k : TokenKind} (h : k.compares) : k.isOperator = Bool.false := by
  rcases compares_iff.1 h with rfl | rfl | rfl | rfl | rfl <;> rfl

/-- A kind that expressions begin with ends nothing. -/
theorem opensPhrase_cases {k : TokenKind} (h : k.opensPhrase) :
    k.isSign ∨ k.isOperator = Bool.false ∧ k ≠ rightParen ∧ k.isConnective = Bool.false := by
  cases k <;> first | exact .inl rfl | exact .inr (by decide) | cases h

end TokenKind

namespace Recognizer

variable {k : TokenKind} {ks K V W Y Z : List TokenKind}

/-- Without a connective in front there is nothing more to read. -/
theorem connectives_of_next (h : (next K).isConnective = false) : connectives K = some K := by
  cases K with
  | nil => exact loop_nil
  | cons k K => exact loop_of_not h

/-- Behind a connective stands a condition. -/
theorem connectives_cons (hk : k.isConnective = true) : connectives (k :: ks) = condition ks :=
  loop_of_joins simple_shrinks hk

/-- A condition is a simple one with connectives behind it. -/
theorem condition_of_simple (h : simple ks = some V) : condition ks = connectives V := by
  rw [condition, chain, h]
  rfl

/-- A parenthesis is closed where what follows may follow a condition. -/
theorem close_eq_some_iff :
    close W = some Y ↔ W = .rightParen :: Y ∧ (next Y).followsCondition = true := by
  rw [close]
  constructor
  · intro h
    split at h <;> cases h
    rename_i hcond
    rw [Bool.and_eq_true, decide_eq_true_eq] at hcond
    refine ⟨?_, hcond.2⟩
    cases W with
    | nil => cases hcond.1
    | cons w W => exact congrArg (· :: W) hcond.1
  · rintro ⟨rfl, hY⟩
    rw [next_cons, List.tail_cons, hY]
    rfl

/-- No attempt is accepted that leaves something else than a closing parenthesis. -/
theorem declined (h : ∀ V, simple ks = some V → (next V).isConnective = false ∧ close V = none) :
    (condition ks).bind close = none := by
  cases hs : simple ks with
  | none =>
    rw [condition, chain, hs]
    rfl
  | some V =>
    obtain ⟨hV, hclose⟩ := h V hs
    rw [condition_of_simple hs, connectives_of_next hV]
    exact hclose

/-- After a parenthesis a condition is tried, and a comparison if that fails. -/
theorem simple_paren (ks : List TokenKind) : simple (.leftParen :: ks) =
    ((condition ks).bind close).or (comparison (.leftParen :: ks)) := simple_cons .leftParen ks

/-- What begins like an expression is a comparison. -/
theorem simple_of_opensPhrase (hk : k.opensPhrase = true) (hp : k ≠ .leftParen) :
    simple (k :: ks) = comparison (k :: ks) := by
  have hnot : k ≠ .not := by rintro rfl; cases hk
  have htruth : ¬k.isTruthValue = true := by
    rw [TokenKind.isTruthValue_iff]
    rintro (rfl | rfl) <;> cases hk
  rw [simple_cons, if_neg hnot, if_neg htruth, if_neg hp]

/-- Only a parenthesis makes a beginning expression look like a condition. -/
theorem simple_phrase {e : Phrase} (h : next e.kinds ≠ .leftParen) (X : List TokenKind) :
    simple (e.kinds ++ X) = comparison (e.kinds ++ X) := by
  obtain ⟨hnext, hopens⟩ := next_phrase e X
  cases hks : e.kinds ++ X with
  | nil =>
    rw [← hnext, hks] at hopens
    cases hopens
  | cons k ks =>
    rw [hks, next_cons] at hnext
    rw [← hnext] at hopens h
    exact simple_of_opensPhrase hopens h

/-- A comparison sign ends an expression. -/
theorem operators_compare (hk : k.compares = true) (ks : List TokenKind) :
    operators (k :: ks) = some (k :: ks) := loop_of_not (TokenKind.isOperator_of_compares hk)

/-! ### After an operand on the left of a comparison -/

/-- What can follow an expression on the left of a comparison, with `d` parentheses to be closed
before the operator of the comparison. -/
inductive After (op : TokenKind) (r : Phrase) (K : List TokenKind) : Nat → List TokenKind → Prop
  | compare : After op r K 0 (op :: (r.kinds ++ K))
  | close {d : Nat} {Y : List TokenKind} (h : After op r K d Y) :
    After op r K (d + 1) (.rightParen :: Y)
  | join {d : Nat} {Y : List TokenKind} {k : TokenKind} (hk : k.isOperator = true) (e : Phrase)
      (h : After op r K d Y) : After op r K d (k :: (e.kinds ++ Y))

/-- Neither a closing parenthesis nor a connective comes next. -/
def Stuck (Z : List TokenKind) : Prop := next Z ≠ .rightParen ∧ (next Z).isConnective = false

/-- Where reading is stuck nothing is closed. -/
theorem Stuck.close_eq_none (h : Stuck Z) : close Z = none := by
  rw [close, decide_eq_false h.1]
  rfl

/-- What follows an operator, or the operator of a comparison, when it is taken for an operand. -/
theorem operators_phrase (e : Phrase) (hK : next K ≠ .leftParen) :
    operators (e.kinds ++ K) = if e.beginsSigned then operators K else some (e.kinds ++ K) := by
  obtain ⟨hnext, hopens⟩ := next_phrase e K
  rw [Phrase.beginsSigned]
  by_cases hs : (next e.kinds).isSign
  · rw [if_pos hs, ← expression_phrase e hK]
    exact operators_of_sign (by rw [hnext]; exact hs)
  · rw [if_neg hs]
    rcases TokenKind.opensPhrase_cases hopens with h | h
    · exact absurd h hs
    · exact operators_of_next (by rw [hnext]; exact h.1)

/-- Before an expression without a sign in front reading is stuck. -/
theorem stuck_phrase {e : Phrase} (he : e.beginsSigned = false) (K : List TokenKind) :
    Stuck (e.kinds ++ K) := by
  obtain ⟨hnext, hopens⟩ := next_phrase e K
  rw [Stuck, hnext]
  rcases TokenKind.opensPhrase_cases hopens with h | h
  · rw [Phrase.beginsSigned, h] at he
    cases he
  · exact h.2

/-- Before a comparison sign reading is stuck. -/
theorem stuck_compare (hk : k.compares = true) (ks : List TokenKind) : Stuck (k :: ks) := by
  rw [Stuck, next_cons]
  rcases TokenKind.compares_iff.1 hk with rfl | rfl | rfl | rfl | rfl <;> decide

namespace After

variable {op : TokenKind} {r : Phrase} {d : Nat}

/-- What comes after an operand on the left of a comparison. -/
theorem next_cases (h : After op r K d Y) :
    next Y = op ∨ next Y = .rightParen ∨ (next Y).isOperator = true := by
  cases h with
  | compare => exact .inl rfl
  | close h => exact .inr (.inl rfl)
  | join hk e h => exact .inr (.inr hk)

variable (hop : op.compares = true)

include hop

theorem next_ne (h : After op r K d Y) : next Y ≠ .leftParen := by
  intro heq
  rcases h.next_cases with h | h | h <;> rw [heq] at h
  · rw [← h] at hop
    cases hop
  · cases h
  · cases h

theorem isConnective_next (h : After op r K d Y) : (next Y).isConnective = false := by
  rcases h.next_cases with h | h | h
  · rw [h]
    rcases TokenKind.compares_iff.1 hop with rfl | rfl | rfl | rfl | rfl <;> rfl
  · rw [h]
    rfl
  · exact TokenKind.isConnective_of_isOperator h

/-- Where nothing is to be closed, an operator comes next. -/
theorem followsCondition_next (h : After op r K 0 Y) : (next Y).followsCondition = false := by
  cases h with
  | compare => exact TokenKind.followsCondition_of_compares hop
  | join hk e h => exact TokenKind.followsCondition_of_isOperator hk

/-- Operators are read up to the next parenthesis, or to the operator of the comparison. -/
theorem operators_cases (h : After op r K d Y) :
    d = 0 ∧ operators Y = some (op :: (r.kinds ++ K)) ∨
      ∃ d' Y', d = d' + 1 ∧ After op r K d' Y' ∧ operators Y = some (.rightParen :: Y') := by
  induction h with
  | compare => exact .inl ⟨rfl, operators_compare hop _⟩
  | close h ih => exact .inr ⟨_, _, rfl, h, operators_of_next rfl⟩
  | join hk e h ih =>
    rw [operators_cons hk, expression_phrase e (h.next_ne hop)]
    exact ih

/-- Reading on after the operand stays on the left of the comparison. -/
theorem operators_after (h : After op r K d Y) (hZ : operators Y = some Z) : After op r K d Z := by
  rcases h.operators_cases hop with ⟨rfl, hY⟩ | ⟨d', Y', rfl, hY', hY⟩
  · rw [hY] at hZ
    cases hZ
    exact compare
  · rw [hY] at hZ
    cases hZ
    exact hY'.close

end After

/-- What a reading can leave that began before `j` parentheses were closed. -/
def Overrun (op : TokenKind) (r : Phrase) (K : List TokenKind) (j : Nat)
    (Z : List TokenKind) : Prop :=
  (∃ d < j, After op r K d Z) ∨ Stuck Z

section Overrun

variable {op : TokenKind} {r : Phrase} {d j : Nat} {X : List TokenKind} (hop : op.compares = true)

include hop

theorem Overrun.isConnective_next (h : Overrun op r K j Z) : (next Z).isConnective = false := by
  rcases h with ⟨d, -, h⟩ | h
  · exact h.isConnective_next hop
  · exact h.2

/-- A parenthesis is accepted only right before another one. -/
theorem Overrun.of_close (h : Overrun op r K (j + 1) Z) (hclose : close Z = some Y) :
    ∃ d, d + 1 < j ∧ After op r K (d + 1) Y := by
  rcases h with ⟨d, hd, h⟩ | h
  · obtain ⟨rfl, hY⟩ := close_eq_some_iff.1 hclose
    cases h with
    | compare => cases hop
    | join hk e h => cases hk
    | @close d _ h =>
      cases d with
      | zero =>
        rw [h.followsCondition_next hop] at hY
        cases hY
      | succ d => exact ⟨d, by omega, h⟩
  · rw [h.close_eq_none] at hclose
    cases hclose

/-- An operator that is taken for an operand ends the expression, unless a sign goes on with it. -/
theorem expression_join (hk : k.isOperator = true) (e : Phrase) (hY : After op r K d Y)
    (hZ : expression (k :: (e.kinds ++ Y)) = some Z) : operators Y = some Z ∨ Stuck Z := by
  have hne := hY.next_ne hop
  by_cases hs : k.isSign
  · rw [expression_sign hs, expression_phrase e hne] at hZ
    exact .inl hZ
  · have hp : k ≠ .leftParen ∧ k ≠ .id := by
      constructor <;> rintro rfl <;> cases hk
    rw [expression_token (Bool.eq_false_iff.2 hs) hp.1 fun h => absurd h hp.2,
      operators_phrase e hne] at hZ
    split at hZ
    · exact .inl hZ
    · rename_i hsigned
      cases hZ
      exact .inr (stuck_phrase (Bool.eq_false_iff.2 hsigned) Y)

/-- Reading an expression there leaves no more parentheses to be closed than there were, or gets
stuck. -/
theorem expression_after (hY : After op r K (d + 1) Y) (hZ : expression Y = some Z) :
    Overrun op r K (d + 2) Z := by
  cases hY with
  | close h =>
    rw [expression_token rfl (by decide) (by rintro ⟨⟩)] at hZ
    exact .inl ⟨d, by omega, h.operators_after hop hZ⟩
  | join hk e h =>
    rcases expression_join hop hk e h hZ with hZ | hZ
    · exact .inl ⟨d + 1, by omega, h.operators_after hop hZ⟩
    · exact .inr hZ

/-- Reading a comparison there goes past a parenthesis at least, or gets stuck. -/
theorem comparison_overrun (e : Phrase) (hX : After op r K (j + 2) X)
    (hZ : comparison (e.kinds ++ X) = some Z) : Overrun op r K (j + 2) Z := by
  rw [comparison, expression_phrase e (hX.next_ne hop)] at hZ
  rcases hX.operators_cases hop with ⟨hd, -⟩ | ⟨d, X', hd, hX', hoperators⟩
  · cases hd
  · cases hd
    rw [hoperators] at hZ
    exact expression_after hop hX' hZ

/-- Within two parentheses or more, no reading that begins with an expression gets to the
comparison. -/
theorem simple_overrun (e : Phrase) (hX : After op r K (j + 2) X)
    (hZ : simple (e.kinds ++ X) = some Z) : Overrun op r K (j + 2) Z := by
  induction e using Phrase.inductLeft generalizing j X Z with
  | other e h =>
    rw [simple_phrase h] at hZ
    exact comparison_overrun hop e hX hZ
  | group e ih =>
    rw [Phrase.kinds_group_append, simple_paren, ← Phrase.kinds_group_append] at hZ
    rcases Option.or_eq_some_iff.1 hZ with hZ | ⟨-, hZ⟩
    · -- one parenthesis deeper, where the attempt can only end before a parenthesis too many
      obtain ⟨W, hW, hZ⟩ := Option.bind_eq_some_iff.1 hZ
      obtain ⟨V, hV, hW⟩ := Option.bind_eq_some_iff.1 hW
      have hover := ih hX.close hV
      change connectives V = some W at hW
      rw [connectives_of_next (hover.isConnective_next hop)] at hW
      cases hW
      obtain ⟨d, hd, hZ⟩ := hover.of_close hop hZ
      exact .inl ⟨d + 1, hd, hZ⟩
    · exact comparison_overrun hop _ hX hZ
  | binary l op' h r' ih =>
    rw [Phrase.kinds_binary_append] at hZ
    exact ih (hX.join h r') hZ

/-- Within one parenthesis, an expression is read as the left side of a comparison. -/
theorem simple_of_after_one (e : Phrase) (hX : After op r K 1 X) :
    simple (e.kinds ++ X) = comparison (e.kinds ++ X) := by
  induction e using Phrase.inductLeft generalizing X with
  | other e h => exact simple_phrase h X
  | group e ih =>
    rw [Phrase.kinds_group_append, simple_paren, declined, Option.none_or]
    intro V hV
    have hover := simple_overrun hop e hX.close hV
    refine ⟨hover.isConnective_next hop, Option.eq_none_iff_forall_ne_some.2 ?_⟩
    intro Y hY
    obtain ⟨d, hd, -⟩ := hover.of_close hop hY
    omega
  | binary l op' h r' ih =>
    rw [Phrase.kinds_binary_append]
    exact ih (hX.join h r')

/-- Next to an operator, a parenthesis is never read as a condition. -/
theorem simple_of_join (e : Phrase) (hk : k.isOperator = true) (e' : Phrase)
    (hX : After op r K 0 X) :
    simple (e.kinds ++ k :: (e'.kinds ++ X)) = comparison (e.kinds ++ k :: (e'.kinds ++ X)) := by
  induction e using Phrase.inductLeft generalizing k e' X with
  | other e h => exact simple_phrase h _
  | group e ih =>
    have hjoin := hX.join hk e'
    rw [Phrase.kinds_group_append, simple_paren, declined, Option.none_or]
    intro V hV
    -- the closing parenthesis is taken for the operator of the comparison
    rw [simple_of_after_one hop e hjoin.close, comparison, expression_phrase e (by rintro ⟨⟩),
      operators_of_next rfl] at hV
    have hstuck : Stuck V := by
      rcases expression_join hop hk e' hX hV with hV | hV
      · rcases hX.operators_cases hop with ⟨-, h⟩ | ⟨d, Y, hd, -⟩
        · rw [h] at hV
          cases hV
          exact stuck_compare hop _
        · cases hd
      · exact hV
    exact ⟨hstuck.2, hstuck.close_eq_none⟩
  | binary l k' h e'' ih =>
    rw [Phrase.kinds_binary_append]
    exact ih h e'' (hX.join hk e')

end Overrun

/-- What can follow a condition: nothing that an expression could go on with. -/
def EndsClause (K : List TokenKind) : Prop := (next K).followsCondition = true

theorem EndsClause.next_ne (hK : EndsClause K) : next K ≠ .leftParen := by
  intro h
  rw [EndsClause, h] at hK
  cases hK

theorem EndsClause.isOperator_next (hK : EndsClause K) : (next K).isOperator = false := by
  rw [Bool.eq_false_iff]
  intro h
  rw [EndsClause, TokenKind.followsCondition_of_isOperator h] at hK
  cases hK

/-- A comparison is read up to where it ends. -/
theorem comparison_compare {l r : Phrase} {op : TokenKind} (hop : op.compares = true)
    (hK : EndsClause K) : comparison (l.kinds ++ op :: (r.kinds ++ K)) = some K := by
  have hX : After op r K 0 (op :: (r.kinds ++ K)) := .compare
  rw [comparison, expression_phrase l (hX.next_ne hop), operators_compare hop]
  change expression (r.kinds ++ K) = some K
  rw [expression_phrase r hK.next_ne, operators_of_next hK.isOperator_next]

/-- A comparison is read to its end, unless a sign after its operator makes a parenthesis before it
look like a condition. -/
theorem simple_compare {l r : Phrase} {op : TokenKind} (hop : op.compares = true)
    (hK : EndsClause K) :
    simple (l.kinds ++ op :: (r.kinds ++ K)) =
      if l.isGroup && r.beginsSigned then ((connectives K).bind close).or (some K) else some K := by
  have hX : After op r K 0 (op :: (r.kinds ++ K)) := .compare
  have hcompare : comparison (l.kinds ++ op :: (r.kinds ++ K)) = some K := comparison_compare hop hK
  induction l using Phrase.inductLeft with
  | other l h =>
    have hgroup : l.isGroup = false := by
      cases l with
      | group e => exact absurd rfl h
      | _ => rfl
    rw [simple_phrase h, hcompare, hgroup]
    rfl
  | binary l k h e =>
    rw [Phrase.kinds_binary_append] at hcompare ⊢
    rw [simple_of_join hop l h e hX, hcompare]
    rfl
  | group e =>
    have hoperand : ¬op.isSign ∧ op ≠ .leftParen ∧ op ≠ .id := by
      rcases TokenKind.compares_iff.1 hop with rfl | rfl | rfl | rfl | rfl <;> decide
    -- the closing parenthesis stands for the operator, and the operator for an operand
    have hinner : simple (e.kinds ++ .rightParen :: op :: (r.kinds ++ K)) =
        if r.beginsSigned then some K else some (r.kinds ++ K) := by
      rw [simple_of_after_one hop e hX.close, comparison, expression_phrase e (by rintro ⟨⟩),
        operators_of_next rfl]
      change expression (op :: (r.kinds ++ K)) = _
      rw [expression_token (Bool.eq_false_iff.2 hoperand.1) hoperand.2.1 fun h =>
        absurd h hoperand.2.2, operators_phrase r hK.next_ne, operators_of_next hK.isOperator_next]
    rw [Phrase.kinds_group_append] at hcompare ⊢
    rw [simple_paren, hcompare, Phrase.isGroup, Bool.true_and]
    by_cases hr : r.beginsSigned
    · rw [if_pos hr] at hinner ⊢
      rw [condition_of_simple hinner]
    · rw [if_neg hr] at hinner ⊢
      have hstuck := stuck_phrase (Bool.eq_false_iff.2 hr) K
      rw [condition_of_simple hinner, connectives_of_next hstuck.2, Option.bind_some,
        hstuck.close_eq_none, Option.none_or]

end Recognizer

end SymScript
