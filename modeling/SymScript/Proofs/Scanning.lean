import SymScript.Token.Lexer

/-!
# Cutting a text piece by piece

What the scan makes of a name, of a row of digits and of the marks between them. A piece of a text
is cut in the same way wherever it stands, as long as what follows it cannot be part of its last
word.
-/

namespace SymScript.Token

/-- The text does not start with a letter or a digit, so that a word before it ends there. -/
def Ends (cs : List Char) : Prop := ∀ c ∈ cs.head?, c.isAlphanum = false

theorem Ends.nil : Ends [] := by
  rintro c ⟨⟩

theorem Ends.cons {c : Char} (hc : c.isAlphanum = false) (cs : List Char) : Ends (c :: cs) := by
  rintro d ⟨⟩
  exact hc

/-- What ends a token still does with more behind it. -/
theorem Ends.append {cs ds : List Char} (hcs : Ends cs) (hds : Ends ds) : Ends (cs ++ ds) := by
  cases cs with
  | nil => exact hds
  | cons c cs => exact Ends.cons (hcs c rfl) _

/-- A run of letters or digits goes on to where the text ends it. -/
theorem Ends.takeWhile_append {cs rest : List Char} (h : Ends rest) {p : Char → Bool}
    (hp : ∀ c, p c → c.isAlphanum) (hcs : ∀ c ∈ cs, p c) : (cs ++ rest).takeWhile p = cs := by
  have hstop : rest.takeWhile p = [] := by
    cases rest with
    | nil => rfl
    | cons c rest =>
      rw [List.takeWhile_cons, if_neg]
      intro hc
      have hend := h c rfl
      rw [hp c hc] at hend
      cases hend
  rw [List.takeWhile_append_of_pos hcs, hstop, List.append_nil]

/-! ### One match -/

/-- Letters and digits are no blanks. -/
theorem isBlank_of_isAlphanum {c : Char} (hc : c.isAlphanum) : isBlank c = false := by
  rw [Bool.eq_false_iff]
  intro h
  simp only [isBlank, Bool.or_eq_true, decide_eq_true_eq] at h
  rcases h with ((rfl | rfl) | rfl) | rfl <;> revert hc <;> decide

theorem isUpper_iff {c : Char} : c.isUpper ↔ 65 ≤ c.toNat ∧ c.toNat ≤ 90 := by
  delta Char.isUpper
  simp only [ge_iff_le, UInt32.le_iff_toNat_le, decide_eq_true_eq]
  rfl

theorem isLower_iff {c : Char} : c.isLower ↔ 97 ≤ c.toNat ∧ c.toNat ≤ 122 := by
  delta Char.isLower
  simp only [ge_iff_le, UInt32.le_iff_toNat_le, Bool.and_eq_true, decide_eq_true_eq]
  rfl

theorem isDigit_iff {c : Char} : c.isDigit ↔ 48 ≤ c.toNat ∧ c.toNat ≤ 57 := by
  delta Char.isDigit
  simp only [ge_iff_le, UInt32.le_iff_toNat_le, Bool.and_eq_true, decide_eq_true_eq]
  rfl

theorem isAlpha_iff {c : Char} : c.isAlpha ↔ c.isUpper ∨ c.isLower := Bool.or_eq_true_iff ..

/-- Digits are no letters. -/
theorem isAlpha_of_isDigit {c : Char} (hc : c.isDigit) : c.isAlpha = false := by
  rw [Bool.eq_false_iff, Ne, isAlpha_iff, isUpper_iff, isLower_iff]
  have := isDigit_iff.1 hc
  omega

/-- A word is matched up to its end. -/
theorem matchLength_word {c : Char} {cs rest : List Char} (hc : c.isAlpha)
    (hcs : ∀ x ∈ cs, x.isAlpha) (h : Ends rest) :
    matchLength (c :: cs ++ rest) = cs.length + 1 := by
  have hrun : (cs ++ rest).takeWhile Char.isAlpha = cs :=
    h.takeWhile_append (fun x hx => by simp [Char.isAlphanum, hx]) hcs
  have hblank : isBlank c = false := isBlank_of_isAlphanum (by simp [Char.isAlphanum, hc])
  rw [List.cons_append, matchLength.eq_def]
  simp only [hblank, hc, hrun, Bool.false_eq_true, if_true, if_false, Nat.add_comm]

/-- A numeral is matched up to its end. -/
theorem matchLength_digits {c : Char} {cs rest : List Char} (hc : c.isDigit)
    (hcs : ∀ x ∈ cs, x.isDigit) (h : Ends rest) :
    matchLength (c :: cs ++ rest) = cs.length + 1 := by
  have hrun : (cs ++ rest).takeWhile Char.isDigit = cs :=
    h.takeWhile_append (fun x hx => by simp [Char.isAlphanum, hx]) hcs
  have hblank : isBlank c = false := isBlank_of_isAlphanum (by simp [Char.isAlphanum, hc])
  rw [List.cons_append, matchLength.eq_def]
  simp only [hblank, isAlpha_of_isDigit hc, hc, hrun, Bool.false_eq_true, if_true, if_false,
    Nat.add_comm]

/-- A match becomes a token, and the scan goes on behind it. -/
theorem scan_of_match {c : Char} {cs rest : List Char} (hblank : isBlank c = false)
    (hlen : matchLength (c :: cs ++ rest) = cs.length + 1) (line column : Nat) :
    scan line column (c :: cs ++ rest) = ofMatch (c :: cs) line column ::
      scan (lineAfter (c :: cs) line) (columnAfter (c :: cs) column) rest := by
  rw [List.cons_append] at hlen ⊢
  rw [scan, hlen]
  simp [hblank]

/-- A word with a capital letter in front is a name: the words of the language have none. -/
theorem wordKind_of_isUpper {c : Char} (hc : c.isUpper) (cs : List Char) :
    wordKind (String.ofList (c :: cs)) = .id := by
  have hne (word : String) (hword : (word.toList.headD 'a').isUpper = false) :
      String.ofList (c :: cs) ≠ word := by
    rintro rfl
    rw [String.toList_ofList, List.headD_cons, hc] at hword
    cases hword
  unfold wordKind
  split
  case h_12 => simp [hc]
  all_goals
    rename_i h
    exact absurd h (hne _ rfl)

/-- A single small letter is a symbol. -/
theorem wordKind_of_isLower {c : Char} (hc : c.isLower) : wordKind (String.ofList [c]) = .sym := by
  have hne (word : String) (hword : word.toList.length ≠ 1) : String.ofList [c] ≠ word := by
    rintro rfl
    exact hword (by rw [String.toList_ofList]; rfl)
  have hupper : c.isUpper = false := by
    rw [Bool.eq_false_iff, Ne, isUpper_iff]
    have := isLower_iff.1 hc
    omega
  unfold wordKind
  split
  case h_12 => simp [hupper]
  all_goals
    rename_i h
    exact absurd h (hne _ (by decide))

/-! ### Pieces -/

/-- The piece of text is cut into tokens of the given kind, whatever follows that ends it. -/
def Spells (cs : List Char) (P : List Token → Prop) : Prop :=
  ∀ line column rest, Ends rest → ∃ ts line' column',
    scan line column (cs ++ rest) = ts ++ scan line' column' rest ∧ P ts

/-- The marks that are tokens on their own, whatever follows. -/
def marks : List Char := ['(', ')', '\x7b', '\x7d', '+', '-', '*', '/', '^', ',']

theorem isAlphanum_of_mem_marks {c : Char} (hc : c ∈ marks) : c.isAlphanum = false := by
  simp only [marks, List.mem_cons, List.not_mem_nil, or_false] at hc
  rcases hc with rfl | rfl | rfl | rfl | rfl | rfl | rfl | rfl | rfl | rfl <;> rfl

theorem isBlank_of_mem_marks {c : Char} (hc : c ∈ marks) : isBlank c = false := by
  simp only [marks, List.mem_cons, List.not_mem_nil, or_false] at hc
  rcases hc with rfl | rfl | rfl | rfl | rfl | rfl | rfl | rfl | rfl | rfl <;> rfl

/-- A mark is matched alone. -/
theorem matchLength_mark {c : Char} (hc : c ∈ marks) (cs : List Char) :
    matchLength (c :: cs) = 1 := by
  simp only [marks, List.mem_cons, List.not_mem_nil, or_false] at hc
  rcases hc with rfl | rfl | rfl | rfl | rfl | rfl | rfl | rfl | rfl | rfl <;> rfl

namespace Spells

variable {cs ds : List Char} {P Q : List Token → Prop}

theorem nil : Spells [] (· = []) := by
  intro line column rest _
  exact ⟨[], line, column, rfl, rfl⟩

theorem mono (h : Spells cs P) (hPQ : ∀ ts, P ts → Q ts) : Spells cs Q := by
  intro line column rest hrest
  obtain ⟨ts, line', column', hscan, hts⟩ := h line column rest hrest
  exact ⟨ts, line', column', hscan, hPQ ts hts⟩

/-- Two pieces in a row, if the second one ends the last token of the first. -/
theorem append (hcs : Spells cs P) (hds : Spells ds Q) (hends : Ends ds) :
    Spells (cs ++ ds) fun ts => ∃ us vs, ts = us ++ vs ∧ P us ∧ Q vs := by
  intro line column rest hrest
  obtain ⟨us, l, c, hus, hP⟩ := hcs line column (ds ++ rest) (hends.append hrest)
  obtain ⟨vs, l', c', hvs, hQ⟩ := hds l c rest hrest
  refine ⟨us ++ vs, l', c', ?_, us, vs, rfl, hP, hQ⟩
  rw [List.append_assoc, hus, hvs, List.append_assoc]

/-- A single character that matches alone. -/
theorem cons {c : Char} (hc : c.isAlphanum = false) (hblank : isBlank c = false)
    (hlen : ∀ rest, Ends rest → matchLength (c :: (cs ++ rest)) = 1) (h : Spells cs P) :
    Spells (c :: cs) fun ts =>
      ∃ t us, ts = t :: us ∧ t.kind = operatorKind (String.ofList [c]) ∧ P us := by
  intro line column rest hrest
  have hstep : scan line column ([c] ++ (cs ++ rest)) = ofMatch [c] line column ::
      scan (lineAfter [c] line) (columnAfter [c] column) (cs ++ rest) :=
    scan_of_match hblank (hlen rest hrest) line column
  obtain ⟨us, l, c', hus, hP⟩ := h (lineAfter [c] line) (columnAfter [c] column) rest hrest
  refine ⟨ofMatch [c] line column :: us, l, c', ?_, _, us, rfl, ?_, hP⟩
  · rw [List.cons_append, List.cons_append, ← hus]
    exact hstep
  · rw [Char.isAlphanum, Bool.or_eq_false_iff] at hc
    simp [ofMatch, hc.1, hc.2]

/-- A mark in front of a piece is a token of its own. -/
theorem mark {c : Char} (hc : c ∈ marks) (h : Spells cs P) :
    Spells (c :: cs) fun ts =>
      ∃ t us, ts = t :: us ∧ t.kind = operatorKind (String.ofList [c]) ∧ P us :=
  cons (isAlphanum_of_mem_marks hc) (isBlank_of_mem_marks hc) (fun _ _ => matchLength_mark hc _) h

/-- An equals sign, which a second one would change. -/
theorem assign {c : Char} (hc : c ≠ '=') (h : Spells (c :: cs) P) :
    Spells ('=' :: c :: cs) fun ts => ∃ t us, ts = t :: us ∧ t.kind = .assign ∧ P us := by
  refine cons rfl rfl (fun rest _ => ?_) h
  rw [List.cons_append, matchLength]
  · rfl
  · intro tail h
    cases h
  · intro tail h
    cases h
  · intro tail _ h
    exact hc (List.cons.inj h).1

/-- A piece, then a mark, then another piece. -/
theorem append_mark {c : Char} (hcs : Spells cs P) (hc : c ∈ marks) (hds : Spells ds Q) :
    Spells (cs ++ c :: ds) fun ts => ∃ us t vs, ts = us ++ t :: vs ∧
      t.kind = operatorKind (String.ofList [c]) ∧ P us ∧ Q vs := by
  refine (hcs.append (mark hc hds) (Ends.cons (isAlphanum_of_mem_marks hc) ds)).mono ?_
  rintro _ ⟨us, _, rfl, hus, t, vs, rfl, ht, hvs⟩
  exact ⟨us, t, vs, rfl, ht, hus, hvs⟩

/-- A word that matches as a whole. -/
theorem word {c : Char} (hc : c.isAlphanum)
    (hlen : ∀ rest, Ends rest → matchLength (c :: cs ++ rest) = cs.length + 1) :
    Spells (c :: cs) fun ts => ∃ line column, ts = [ofMatch (c :: cs) line column] := by
  intro line column rest hrest
  exact ⟨_, _, _, scan_of_match (isBlank_of_isAlphanum hc) (hlen rest hrest) line column,
    line, column, rfl⟩

/-- A row of digits is one token. -/
theorem digits {c : Char} (hc : c.isDigit) (hcs : ∀ x ∈ cs, x.isDigit) :
    Spells (c :: cs) fun ts =>
      ∃ t, ts = [t] ∧ t.kind = .nat ∧ t.text = String.ofList (c :: cs) := by
  refine (word (by simp [Char.isAlphanum, hc]) fun _ => matchLength_digits hc hcs).mono ?_
  rintro _ ⟨line, column, rfl⟩
  refine ⟨_, rfl, ?_⟩
  simp [ofMatch, isAlpha_of_isDigit hc, hc]

/-- A word with a capital in front is one token. -/
theorem name {c : Char} (hc : c.isUpper) (hcs : ∀ x ∈ cs, x.isAlpha) :
    Spells (c :: cs) fun ts =>
      ∃ t, ts = [t] ∧ t.kind = .id ∧ t.text = String.ofList (c :: cs) := by
  have halpha : c.isAlpha := isAlpha_iff.2 (.inl hc)
  refine (word (by simp [Char.isAlphanum, halpha]) fun _ => matchLength_word halpha hcs).mono ?_
  rintro _ ⟨line, column, rfl⟩
  refine ⟨_, rfl, ?_⟩
  simp only [ofMatch, halpha, if_true, wordKind_of_isUpper hc, and_self]

/-- A small letter is one token. -/
theorem letter {c : Char} (hc : c.isLower) :
    Spells [c] fun ts => ∃ t, ts = [t] ∧ t.kind = .sym ∧ t.text = c.toString := by
  have halpha : c.isAlpha := isAlpha_iff.2 (.inr hc)
  have hlen (rest : List Char) (hrest : Ends rest) : matchLength ([c] ++ rest) = 1 :=
    matchLength_word halpha (by simp) hrest
  refine (word (by simp [Char.isAlphanum, halpha]) hlen).mono ?_
  rintro _ ⟨line, column, rfl⟩
  refine ⟨_, rfl, ?_⟩
  simp only [ofMatch, halpha, if_true, wordKind_of_isLower hc, and_self]

end Spells

end SymScript.Token
