import SymScript.Proofs.Matches

/-!
# Texts of the grammar

How the grammar has its tokens written, and what may stand between them, stated without the scan.
The grammar cuts a text into the longest pieces.  Its numbers may have a decimal part and comments
may stand between tokens, neither of which the scan knows; nor does the scan divide a run of
letters.  In a plain text there is none of this, and there the scan finds the tokens of the grammar.
-/

namespace SymScript

open Token (operators keywords isBlank)

variable {c : Char} {cs m n rest : List Char} {k : TokenKind} {ks : List TokenKind} {plain : Bool}

/-! ### The pieces of a text -/

/-- The texts of tokens. -/
inductive Spelling : TokenKind → List Char → Prop
  | operator {k : TokenKind} {m : List Char} (mem : (m, k) ∈ operators) : Spelling k m
  | keyword {k : TokenKind} {m : List Char} (mem : (m, k) ∈ keywords) : Spelling k m
  | name {c : Char} {cs : List Char} (first : c.isUpper = true) (all : ∀ x ∈ cs, x.isAlpha = true) :
      Spelling .id (c :: cs)
  | symbol {c : Char} (first : c.isLower = true) : Spelling .sym [c]
  | number {c : Char} {cs : List Char} (all : ∀ x ∈ c :: cs, x.isDigit = true) :
      Spelling .nat (c :: cs)
  | decimal {c d : Char} {cs ds : List Char} (whole : ∀ x ∈ c :: cs, x.isDigit = true)
      (part : ∀ x ∈ d :: ds, x.isDigit = true) : Spelling .nat (c :: cs ++ '.' :: d :: ds)

/-- The texts between tokens: blanks, comments to the end of a line, and comments to their first
end. -/
inductive Spacing : List Char → Prop
  | blanks {c : Char} {cs : List Char} (all : ∀ x ∈ c :: cs, isBlank x = true) : Spacing (c :: cs)
  | line {cs : List Char} (all : ∀ x ∈ cs, x ≠ '\r' ∧ x ≠ '\n') : Spacing ('/' :: '/' :: cs)
  | block {cs : List Char} (first : ¬ ['*', '/'] <:+: cs ++ ['*']) :
      Spacing ('/' :: '*' :: (cs ++ ['*', '/']))

/-- A token, or something between tokens. -/
def Piece (m : List Char) : Prop := Spacing m ∨ ∃ k, Spelling k m

/-- What follows does not go on with the piece. -/
def Complete (m rest : List Char) : Prop := ∀ n, n ≠ [] → n <+: rest → ¬ Piece (m ++ n)

/-- The token has no decimal part, and no letter follows a letter at its end. -/
def IsPlain (m rest : List Char) : Prop :=
  '.' ∉ m ∧ (m.getLast?.any Char.isAlpha && rest.head?.any Char.isAlpha) = false

instance (m rest : List Char) : Decidable (IsPlain m rest) := inferInstanceAs (Decidable (_ ∧ _))

/-- The texts that the grammar cuts into tokens of the given kinds. -/
inductive Written (plain : Bool) : List TokenKind → List Char → Prop
  | nil : Written plain [] []
  | space {m rest : List Char} {ks : List TokenKind} (piece : Spacing m)
      (complete : Complete m rest)
      (blank : plain = true → ∀ x ∈ m, isBlank x = true) (tail : Written plain ks rest) :
      Written plain ks (m ++ rest)
  | token {m rest : List Char} {k : TokenKind} {ks : List TokenKind} (piece : Spelling k m)
      (complete : Complete m rest) (simple : plain = true → IsPlain m rest)
      (tail : Written plain ks rest) : Written plain (k :: ks) (m ++ rest)

/-! ### The scan of a plain text -/

/-- A complete piece cannot be spelled any further. -/
theorem Complete.not_spelling {y : Char} (h : Complete m rest) (hy : y ∈ rest.head?) :
    ¬ Spelling k (m ++ [y]) := by
  obtain ⟨more, rfl⟩ := List.head?_eq_some_iff.1 hy
  exact fun hk => h [y] (List.cons_ne_nil y []) ⟨more, rfl⟩ (.inr ⟨k, hk⟩)

theorem length_of_mem_keywords (h : m ∈ keywords.map Prod.fst) : 2 ≤ m.length := by
  simp only [keywords, List.map_cons, List.map_nil, List.mem_cons, List.not_mem_nil, or_false] at h
  rcases h with rfl | rfl | rfl | rfl | rfl | rfl | rfl | rfl | rfl | rfl | rfl <;> decide

/-- Keywords are words. -/
theorem isAlpha_of_mem_keywords (h : (m, k) ∈ keywords) :
    ∃ c cs, m = c :: cs ∧ ∀ x ∈ c :: cs, x.isAlpha = true := by
  have hmem : m ∈ keywords.map Prod.fst := List.mem_map_of_mem h
  simp only [keywords, List.map_cons, List.map_nil, List.mem_cons, List.not_mem_nil, or_false]
    at hmem
  rcases hmem with rfl | rfl | rfl | rfl | rfl | rfl | rfl | rfl | rfl | rfl | rfl
  all_goals exact ⟨_, _, rfl, List.all_eq_true.1 rfl⟩

/-- A plain word is matched whole. -/
theorem IsPlain.matched_word (hplain : IsPlain (c :: cs) rest)
    (hall : ∀ x ∈ c :: cs, x.isAlpha = true) :
    Token.matchLength (c :: cs ++ rest) = (c :: cs).length ∧ isBlank c = false := by
  refine ⟨Token.matchLength_run_append (p := Char.isAlpha) (by simp [Token.runClasses]) hall ?_,
    Token.isBlank_of_isAlphanum (by simp [Char.isAlphanum, (List.forall_mem_cons.1 hall).1])⟩
  have hlast : ((c :: cs).getLast?.any Char.isAlpha) = true := by
    rw [List.getLast?_eq_some_getLast (List.cons_ne_nil c cs)]
    exact hall _ (List.getLast_mem _)
  have hnext := hplain.2
  rw [hlast, Bool.true_and] at hnext
  intro y hy
  rw [hy] at hnext
  exact hnext

/-- A plain piece becomes one token of its kind, and the scan takes all of it. -/
theorem Spelling.matched (h : Spelling k m) (hcomplete : Complete m rest)
    (hplain : IsPlain m rest) :
    (∃ text, Token.Shown m k text) ∧ Token.matchLength (m ++ rest) = m.length ∧
      ∃ c cs, m = c :: cs ∧ isBlank c = false := by
  cases h with
  | operator hmem =>
    refine ⟨⟨_, .operator hmem⟩, Token.matchLength_operator_append hmem
      fun y hy k hlonger => ?_, ?_⟩
    · exact hcomplete.not_spelling hy (.operator hlonger)
    · obtain ⟨c, cs, rfl, hclasses, -⟩ := Token.operators_cases hmem
      exact ⟨c, cs, rfl, hclasses isBlank (by simp [Token.runClasses])⟩
  | keyword hmem =>
    obtain ⟨c, cs, rfl, hall⟩ := isAlpha_of_mem_keywords hmem
    obtain ⟨hlength, hblank⟩ := hplain.matched_word hall
    exact ⟨⟨_, .keyword hmem⟩, hlength, c, cs, rfl, hblank⟩
  | @name c cs hc hcs =>
    have hall : ∀ x ∈ c :: cs, x.isAlpha = true :=
      List.forall_mem_cons.2 ⟨Token.isAlpha_iff.2 (.inl hc), hcs⟩
    obtain ⟨hlength, hblank⟩ := hplain.matched_word hall
    exact ⟨⟨_, .name hc hcs⟩, hlength, c, cs, rfl, hblank⟩
  | @symbol c hc =>
    have hall : ∀ x ∈ [c], x.isAlpha = true :=
      List.forall_mem_cons.2 ⟨Token.isAlpha_iff.2 (.inr hc), List.forall_mem_nil _⟩
    obtain ⟨hlength, hblank⟩ := hplain.matched_word hall
    refine ⟨⟨_, .symbol hc (List.forall_mem_nil _) fun hmem => ?_⟩, hlength, c, [], rfl, hblank⟩
    exact absurd (length_of_mem_keywords hmem) (Nat.not_succ_le_self 1)
  | @number c cs hall =>
    refine ⟨⟨_, .number hall⟩,
      Token.matchLength_run_append (p := Char.isDigit) (by simp [Token.runClasses]) hall ?_, c, cs,
      rfl, Token.isBlank_of_isAlphanum (by simp [Char.isAlphanum, (List.forall_mem_cons.1 hall).1])⟩
    intro y hy
    rw [Bool.eq_false_iff]
    intro hdigit
    have hlonger : ∀ x ∈ c :: (cs ++ [y]), x.isDigit = true := by
      rw [← List.cons_append, List.forall_mem_append]
      exact ⟨hall, List.forall_mem_singleton.2 hdigit⟩
    exact hcomplete.not_spelling (k := .nat) hy (.number hlonger)
  | decimal => exact absurd (by simp) hplain.1

/-- Blanks give no lexeme. -/
theorem lexemes_blanks (hm : ∀ x ∈ m, isBlank x = true) (rest : List Char) :
    Token.lexemes (m ++ rest) = Token.lexemes rest := by
  induction m with
  | nil => rfl
  | cons c m ih =>
    obtain ⟨hc, hm⟩ := List.forall_mem_cons.1 hm
    rw [List.cons_append, Token.lexemes_blank hc, ih hm]

/-- In a plain text the scan finds the tokens of the grammar. -/
theorem Written.kinds_lexemes (h : Written true ks cs) :
    (Token.lexemes cs).map Prod.fst = ks ++ [.eof] := by
  induction h with
  | nil => rw [Token.lexemes_nil]; rfl
  | space hm hcomplete hblank tail ih => rw [lexemes_blanks (hblank rfl), ih]
  | @token m rest k ks hm hcomplete hplain tail ih =>
    obtain ⟨⟨text, hshown⟩, hlength, c, cs, rfl, hc⟩ := hm.matched hcomplete (hplain rfl)
    rw [List.cons_append] at hlength ⊢
    rw [Token.lexemes_match hc hlength, List.take_left, List.drop_left, List.map_cons, ih,
      Token.matchLexeme, hshown.ofMatch_eq]
    rfl

/-! ### Writing a text -/

/-- What separates pieces begins with a blank or with a comment. -/
theorem Spacing.head (h : Spacing (c :: cs)) : isBlank c = true ∨ c = '/' := by
  cases h with
  | blanks hall => exact .inl (List.forall_mem_cons.1 hall).1
  | line | block => exact .inr rfl

/-- What a piece can go on with depends on its first character. -/
theorem Piece.cases (h : Piece (c :: cs)) :
    (c.isAlpha = true ∧ ∀ x ∈ cs, x.isAlpha = true) ∨
    (c.isDigit = true ∧ ∀ x ∈ cs, x.isDigit = true ∨ x = '.') ∨
    (isBlank c = true ∧ ∀ x ∈ cs, isBlank x = true) ∨
    c = '/' ∨ ((c = '<' ∨ c = '>' ∨ c = '=') ∧ cs = ['=']) ∨ cs = [] := by
  rcases h with h | ⟨k, h⟩
  · cases h with
    | blanks hall => exact .inr (.inr (.inl (List.forall_mem_cons.1 hall)))
    | line | block => exact .inr (.inr (.inr (.inl rfl)))
  · cases h with
    | operator hmem =>
      obtain ⟨_, _, ⟨⟩, -, -, hcs | hcs⟩ := Token.operators_cases hmem
      · exact .inr (.inr (.inr (.inr (.inr hcs))))
      · exact .inr (.inr (.inr (.inr (.inl hcs))))
    | keyword hmem =>
      obtain ⟨_, _, ⟨⟩, hall⟩ := isAlpha_of_mem_keywords hmem
      exact .inl (List.forall_mem_cons.1 hall)
    | name hc hcs => exact .inl ⟨Token.isAlpha_iff.2 (.inl hc), hcs⟩
    | symbol hc => exact .inr (.inr (.inr (.inr (.inr rfl))))
    | number hall =>
      obtain ⟨hc, hcs⟩ := List.forall_mem_cons.1 hall
      exact .inr (.inl ⟨hc, fun x hx => .inl (hcs x hx)⟩)
    | @decimal _ d cs ds hwhole hpart =>
      obtain ⟨hc, hcs⟩ := List.forall_mem_cons.1 hwhole
      refine .inr (.inl ⟨hc, fun x hx => ?_⟩)
      rcases List.mem_append.1 hx with hx | hx
      · exact .inl (hcs x hx)
      · rcases List.mem_cons.1 hx with rfl | hx
        · exact .inr rfl
        · exact .inl (hpart x hx)

/-- Whether a piece that begins with a character can go on with another one. -/
def goesOn (c y : Char) : Bool :=
  (c.isAlpha && y.isAlpha) || (c.isDigit && (y.isDigit || y == '.')) || (isBlank c && isBlank y) ||
    c == '/' || ((c == '<' || c == '>' || c == '=') && y == '=')

/-- A piece is complete where the next character does not go on with it. -/
theorem complete_of_goesOn (h : rest.head?.any (goesOn c) = false) : Complete (c :: cs) rest := by
  rintro n hn ⟨more, rfl⟩ hpiece
  cases n with
  | nil => exact hn rfl
  | cons y ys =>
    change goesOn c y = false at h
    have hy : y ∈ cs ++ y :: ys := List.mem_append_right cs List.mem_cons_self
    rw [List.cons_append] at hpiece
    rcases Piece.cases hpiece with ⟨hc, hall⟩ | ⟨hc, hall⟩ | ⟨hc, hall⟩ | hc | ⟨hc, hcs⟩ | hcs
    · simp [goesOn, hc, hall y hy] at h
    · rcases hall y hy with hy | rfl <;> simp_all [goesOn]
    · simp [goesOn, hc, hall y hy] at h
    · simp [goesOn, hc] at h
    · rw [hcs] at hy
      rw [List.mem_singleton.1 hy] at h
      rcases hc with rfl | rfl | rfl <;> cases h
    · rw [hcs] at hy
      cases hy

/-- A small letter that no word of the language begins with is a symbol, whatever follows. -/
theorem complete_of_isLower (hc : c.isLower = true)
    (hother : ∀ m ∈ keywords.map Prod.fst, m.head? ≠ some c) : Complete [c] rest := by
  rintro n hn - hpiece
  have halpha : c.isAlpha = true := Token.isAlpha_iff.2 (.inr hc)
  have hdigit : c.isDigit ≠ true := fun h => by
    rw [Token.isAlpha_of_isDigit h] at halpha
    cases halpha
  rcases hpiece with h | ⟨k, h⟩
  · rcases Spacing.head h with hblank | rfl
    · rw [Token.isBlank_of_isAlphanum (by simp [Char.isAlphanum, halpha])] at hblank
      cases hblank
    · cases hc
  · cases h with
    | operator hmem =>
      obtain ⟨_, _, ⟨⟩, hclasses, -⟩ := Token.operators_cases hmem
      rw [hclasses Char.isAlpha (by simp [Token.runClasses])] at halpha
      cases halpha
    | keyword hmem => exact hother _ (List.mem_map_of_mem hmem) rfl
    | name hupper hcs =>
      have := Token.isUpper_iff.1 hupper
      have := Token.isLower_iff.1 hc
      omega
    | symbol _ => exact hn rfl
    | number hall => exact hdigit (List.forall_mem_cons.1 hall).1
    | decimal hwhole _ => exact hdigit (List.forall_mem_cons.1 hwhole).1

/-- A token in front of a text that does not go on with it. -/
theorem Written.step (c : Char) (cs : List Char) (piece : Spelling k (c :: cs))
    (hend : rest.head?.any (goesOn c) = false) (hplain : plain = true → IsPlain (c :: cs) rest)
    (tail : Written plain ks rest) : Written plain (k :: ks) (c :: cs ++ rest) :=
  .token piece (complete_of_goesOn hend) hplain tail

/-- A blank in front of a text that begins with something else. -/
theorem Written.blank (hc : isBlank c = true) (hend : rest.head?.any (goesOn c) = false)
    (tail : Written plain ks rest) : Written plain ks (c :: rest) := by
  have hall : ∀ x ∈ [c], isBlank x = true := List.forall_mem_singleton.2 hc
  exact .space (.blanks hall) (complete_of_goesOn hend) (fun _ => hall) tail

end SymScript
