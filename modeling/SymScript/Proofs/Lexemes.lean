import SymScript.Proofs.Scanning
import Mathlib.Tactic.NthRewrite

/-!
# Tokens without their places

What the tokens of a text are depends neither on the place where the text begins nor on what follows
after a character that ends every match. So a text has the same tokens in a source as alone.
-/

namespace SymScript.Token

variable {c d : Char} {cs : List Char} {n : Nat}

/-- What a token is, without its place. -/
def lexeme (t : Token) : TokenKind × String := (t.kind, t.text)

/-! ### The scan, step by step -/

/-- A character that matches nothing is skipped. -/
theorem scan_skip (h : matchLength (c :: cs) = 0) (line column : Nat) :
    scan line column (c :: cs) = scan line column cs := by
  rw [scan, h]

/-- A match becomes a token, unless it is blank. -/
theorem scan_match (h : matchLength (c :: cs) = n + 1) (line column : Nat) :
    ∃ line' column', scan line column (c :: cs) =
      if isBlank c then scan line' column' (cs.drop n)
      else ofMatch (c :: cs.take n) line column :: scan line' column' (cs.drop n) := by
  rw [scan, h]
  exact ⟨_, _, rfl⟩

theorem lexeme_ofMatch (m : List Char) (line column line' column' : Nat) :
    (ofMatch m line column).lexeme = (ofMatch m line' column').lexeme := by
  cases m with
  | nil => rfl
  | cons c m =>
    simp only [ofMatch]
    split
    · split <;> rfl
    · split <;> rfl

/-- Lexemes do not depend on the position. -/
theorem map_lexeme_scan (line column line' column' : Nat) (cs : List Char) :
    (scan line column cs).map lexeme = (scan line' column' cs).map lexeme := by
  induction hl : cs.length using Nat.strongRecOn generalizing line column line' column' cs with
  | ind l ih =>
    cases cs with
    | nil =>
      rw [scan, scan]
      rfl
    | cons c cs =>
      rw [List.length_cons] at hl
      cases hm : matchLength (c :: cs) with
      | zero =>
        rw [scan_skip hm, scan_skip hm]
        exact ih cs.length (by omega) line column line' column' cs rfl
      | succ n =>
        obtain ⟨l₁, c₁, h₁⟩ := scan_match hm line column
        obtain ⟨l₂, c₂, h₂⟩ := scan_match hm line' column'
        have hlt : (cs.drop n).length < l := by
          rw [List.length_drop]
          omega
        have hrest := ih (cs.drop n).length hlt l₁ c₁ l₂ c₂ (cs.drop n) rfl
        rw [h₁, h₂]
        split
        · exact hrest
        · rw [List.map_cons, List.map_cons, lexeme_ofMatch _ line column line' column', hrest]

/-- The tokens of a text without their places. -/
def lexemes (cs : List Char) : List (TokenKind × String) := (scan 1 0 cs).map lexeme

/-- The lexeme of a match. -/
def matchLexeme (m : List Char) : TokenKind × String := (ofMatch m 1 0).lexeme

theorem lexemes_nil : lexemes [] = [(.eof, "<EOF>")] := by
  rw [lexemes, scan]
  rfl

/-- A character that matches nothing gives no lexeme. -/
theorem lexemes_skip (h : matchLength (c :: cs) = 0) : lexemes (c :: cs) = lexemes cs := by
  rw [lexemes, scan_skip h]
  rfl

/-- A match that is not blank gives a lexeme. -/
theorem lexemes_match (hc : isBlank c = false) (h : matchLength (c :: cs) = n + 1) :
    lexemes (c :: cs) = matchLexeme (c :: cs.take n) :: lexemes (cs.drop n) := by
  obtain ⟨line, column, hscan⟩ := scan_match h 1 0
  rw [lexemes, hscan, hc, if_neg Bool.false_ne_true, List.map_cons, map_lexeme_scan line column 1 0]
  rfl

/-- A mark gives a lexeme of its own. -/
theorem lexemes_mark (hc : c ∈ marks) (cs : List Char) :
    lexemes (c :: cs) = matchLexeme [c] :: lexemes cs :=
  lexemes_match (isBlank_of_mem_marks hc) (matchLength_mark hc cs)

/-- A blank separates tokens and makes none. -/
theorem lexemes_blank (hc : isBlank c = true) (cs : List Char) :
    lexemes (c :: cs) = lexemes cs := by
  have hrun {c : Char} (hc : isBlank c = true) (cs : List Char) :
      lexemes (c :: cs) = lexemes (cs.dropWhile isBlank) := by
    have hm : matchLength (c :: cs) = (cs.takeWhile isBlank).length + 1 := by
      rw [matchLength.eq_def]
      simp only [hc, if_true, Nat.add_comm]
    obtain ⟨line, column, hscan⟩ := scan_match hm 1 0
    have hdrop : cs.drop (cs.takeWhile isBlank).length = cs.dropWhile isBlank := by
      nth_rewrite 2 [← List.takeWhile_append_dropWhile (p := isBlank) (l := cs)]
      exact List.drop_left
    rw [lexemes, hscan, if_pos hc, map_lexeme_scan line column 1 0, hdrop]
    rfl
  rw [hrun hc]
  cases cs with
  | nil => rfl
  | cons d ds =>
    cases hd : isBlank d with
    | true => rw [List.dropWhile_cons_of_pos hd, hrun hd]
    | false => rw [List.dropWhile_cons_of_neg (by rw [hd]; decide)]

/-! ### What follows a text -/

/-- The character is not part of a match that it does not begin, a run of blanks apart. -/
def EndsMatches (d : Char) : Prop := d.isAlpha = false ∧ d.isDigit = false ∧ d ≠ '='

theorem takeWhile_append_cons {p : Char → Bool} (hp : p d = false) (cs rest : List Char) :
    (cs ++ d :: rest).takeWhile p = cs.takeWhile p := by
  induction cs with
  | nil => exact List.takeWhile_cons_of_neg (by rw [hp]; decide)
  | cons c cs ih => rw [List.cons_append, List.takeWhile_cons, List.takeWhile_cons, ih]

/-- The length of a match as an operator: three of them share their first character with a longer
one. -/
theorem matchLength_operator (hblank : isBlank c = false) (halpha : c.isAlpha = false)
    (hdigit : c.isDigit = false) (cs : List Char) : matchLength (c :: cs) =
      if (c = '<' ∨ c = '>' ∨ c = '=') ∧ cs.head? = some '=' then 2
      else if "()\x7b\x7d=+-*/^<>!,".toList.contains c then 1 else 0 := by
  rw [matchLength.eq_def]
  simp only [hblank, halpha, hdigit, Bool.false_eq_true, if_false]
  split
  · rw [if_pos ⟨.inl rfl, rfl⟩]
  · rw [if_pos ⟨.inr (.inl rfl), rfl⟩]
  · rw [if_pos ⟨.inr (.inr rfl), rfl⟩]
  · rename_i hlt hgt heq
    have hshort : ¬((c = '<' ∨ c = '>' ∨ c = '=') ∧ cs.head? = some '=') := by
      rintro ⟨hc, hcs⟩
      obtain ⟨ds, rfl⟩ := List.head?_eq_some_iff.1 hcs
      rcases hc with rfl | rfl | rfl
      · exact hlt ds rfl rfl
      · exact hgt ds rfl rfl
      · exact heq ds rfl rfl
    rw [if_neg hshort]

/-- What ends matches does so whatever follows it. -/
theorem EndsMatches.matchLength_append (hd : EndsMatches d) (hblank : isBlank c = false)
    (cs rest : List Char) : matchLength (c :: (cs ++ d :: rest)) = matchLength (c :: cs) := by
  obtain ⟨hnoalpha, hnodigit, hnoequals⟩ := hd
  cases halpha : c.isAlpha with
  | true =>
    rw [matchLength.eq_def, matchLength.eq_def]
    simp only [hblank, halpha, Bool.false_eq_true, if_false, if_true,
      takeWhile_append_cons hnoalpha]
  | false =>
    cases hdigit : c.isDigit with
    | true =>
      rw [matchLength.eq_def, matchLength.eq_def]
      simp only [hblank, halpha, hdigit, Bool.false_eq_true, if_false, if_true,
        takeWhile_append_cons hnodigit]
    | false =>
      have hhead : (cs ++ d :: rest).head? = some '=' ↔ cs.head? = some '=' := by
        cases cs with
        | nil =>
          constructor
          · rintro ⟨⟩
            exact absurd rfl hnoequals
          · rintro ⟨⟩
        | cons d ds => exact Iff.rfl
      simp only [matchLength_operator hblank halpha hdigit, hhead]

/-- A match stays in the text. -/
theorem matchLength_le (hblank : isBlank c = false) (cs : List Char) :
    matchLength (c :: cs) ≤ cs.length + 1 := by
  have hrun (p : Char → Bool) : 1 + (cs.takeWhile p).length ≤ cs.length + 1 := by
    rw [Nat.add_comm]
    exact Nat.succ_le_succ (List.takeWhile_prefix p).length_le
  cases halpha : c.isAlpha with
  | true =>
    rw [matchLength.eq_def]
    simp only [hblank, halpha, Bool.false_eq_true, if_false, if_true]
    exact hrun Char.isAlpha
  | false =>
    cases hdigit : c.isDigit with
    | true =>
      rw [matchLength.eq_def]
      simp only [hblank, halpha, hdigit, Bool.false_eq_true, if_false, if_true]
      exact hrun Char.isDigit
    | false =>
      rw [matchLength_operator hblank halpha hdigit]
      split
      · rename_i h
        obtain ⟨ds, rfl⟩ := List.head?_eq_some_iff.1 h.2
        rw [List.length_cons]
        omega
      · split <;> omega

/-- The tokens of a text without its end and without their places. -/
def words (cs : List Char) : List (TokenKind × String) := (lexemes cs).dropLast

/-- What stands before a character that ends every match has the tokens that it has alone. -/
theorem EndsMatches.lexemes_append (hd : EndsMatches d) (cs : List Char) :
    lexemes cs = words cs ++ [(.eof, "<EOF>")] ∧
      ∀ rest, lexemes (cs ++ d :: rest) = words cs ++ lexemes (d :: rest) := by
  suffices h : ∃ ks, lexemes cs = ks ++ [(.eof, "<EOF>")] ∧
      ∀ rest, lexemes (cs ++ d :: rest) = ks ++ lexemes (d :: rest) by
    obtain ⟨ks, hks, happend⟩ := h
    have heq : words cs = ks := by rw [words, hks, List.dropLast_concat]
    rw [heq]
    exact ⟨hks, happend⟩
  induction hl : cs.length using Nat.strongRecOn generalizing cs with
  | ind l ih =>
    cases cs with
    | nil => exact ⟨[], lexemes_nil, fun rest => rfl⟩
    | cons c cs =>
      rw [List.length_cons] at hl
      obtain ⟨ks, hks, happend⟩ := ih cs.length (by omega) cs rfl
      cases hc : isBlank c with
      | true =>
        refine ⟨ks, by rw [lexemes_blank hc, hks], fun rest => ?_⟩
        rw [List.cons_append, lexemes_blank hc, happend]
      | false =>
        cases hm : matchLength (c :: cs) with
        | zero =>
          refine ⟨ks, by rw [lexemes_skip hm, hks], fun rest => ?_⟩
          rw [List.cons_append, lexemes_skip (by rw [hd.matchLength_append hc, hm]), happend]
        | succ n =>
          have hn : n ≤ cs.length := by
            have := matchLength_le hc cs
            omega
          have hlt : (cs.drop n).length < l := by
            rw [List.length_drop]
            omega
          obtain ⟨ks, hks, happend⟩ := ih (cs.drop n).length hlt (cs.drop n) rfl
          refine ⟨matchLexeme (c :: cs.take n) :: ks, by rw [lexemes_match hc hm, hks]; rfl,
            fun rest => ?_⟩
          rw [List.cons_append, lexemes_match hc (by rw [hd.matchLength_append hc, hm]),
            List.take_append_of_le_length hn, List.drop_append_of_le_length hn, happend]
          rfl

theorem endsMatches_blank : EndsMatches ' ' := ⟨rfl, rfl, by decide⟩

theorem endsMatches_brace : EndsMatches '\x7d' := ⟨rfl, rfl, by decide⟩

end SymScript.Token
