import Mathlib.Data.List.TakeWhile
import SymScript.Proofs.Lexemes

/-!
# What can be matched

The texts that a scan can match, and the tokens that they become: runs of blanks, letters and
digits, and operators.  These are stated over the texts alone.  The scan takes the longest of them
at each place, and the kind and the text of a token are those of the match that it comes from.
-/

namespace SymScript.Token

/-- The characters whose runs are matched. -/
def runClasses : List (Char → Bool) := [isBlank, Char.isAlpha, Char.isDigit]

/-- The operators, of one character or of two that start with one of them. -/
def operators : List (List Char × TokenKind) :=
  [(['('], .leftParen), ([')'], .rightParen), (['\x7b'], .leftBrace), (['\x7d'], .rightBrace),
    (['='], .assign), (['+'], .plus), (['-'], .minus), (['*'], .times), (['/'], .divide),
    (['^'], .caret), (['<'], .lt), (['>'], .gt), (['!'], .not), ([','], .comma),
    (['<', '='], .leq), (['>', '='], .geq), (['=', '='], .eq)]

/-- The words of the language. -/
def keywords : List (List Char × TokenKind) :=
  [(['t', 'r', 'u', 'e'], .true), (['f', 'a', 'l', 's', 'e'], .false), (['a', 'n', 'd'], .and),
    (['o', 'r'], .or), (['f', 'o', 'r', 'e', 'a', 'c', 'h'], .foreach), (['i', 'n'], .in),
    (['i', 'f'], .if), (['e', 'l', 's', 'e'], .else), (['r', 'e', 't', 'u', 'r', 'n'], .return),
    (['w', 'h', 'i', 'l', 'e'], .while), (['r', 'e', 'p', 'e', 'a', 't'], .repeat)]

/-- The texts that can be matched. -/
inductive Lexical : List Char → Prop
  | run {p : Char → Bool} {c : Char} {cs : List Char} (mem : p ∈ runClasses)
      (all : ∀ x ∈ c :: cs, p x = true) : Lexical (c :: cs)
  | operator {m : List Char} {k : TokenKind} (mem : (m, k) ∈ operators) : Lexical m

/-- The kind and the text of the token that a match becomes.  A word that is not one of the language
is a name if it begins with a capital letter.  Otherwise it is a symbol, which shows its first
letter only. -/
inductive Shown : List Char → TokenKind → String → Prop
  | operator {m : List Char} {k : TokenKind} (mem : (m, k) ∈ operators) :
      Shown m k (String.ofList m)
  | keyword {m : List Char} {k : TokenKind} (mem : (m, k) ∈ keywords) : Shown m k (String.ofList m)
  | number {c : Char} {cs : List Char} (all : ∀ x ∈ c :: cs, x.isDigit = true) :
      Shown (c :: cs) .nat (String.ofList (c :: cs))
  | name {c : Char} {cs : List Char} (first : c.isUpper = true) (all : ∀ x ∈ cs, x.isAlpha = true) :
      Shown (c :: cs) .id (String.ofList (c :: cs))
  | symbol {c : Char} {cs : List Char} (first : c.isLower = true) (all : ∀ x ∈ cs, x.isAlpha = true)
      (other : c :: cs ∉ keywords.map Prod.fst) : Shown (c :: cs) .sym c.toString

variable {c : Char} {cs rest m : List Char} {p : Char → Bool} {k : TokenKind}

/-! ### Runs and operators -/

/-- A run is matched up to the first character that is not of its class. -/
theorem matchLength_run (hp : p ∈ runClasses) (hc : p c = true) (cs : List Char) :
    matchLength (c :: cs) = (cs.takeWhile p).length + 1 := by
  have hblank (h : c.isAlphanum = true) : isBlank c = false := isBlank_of_isAlphanum h
  rw [matchLength.eq_def]
  simp only [runClasses, List.mem_cons, List.not_mem_nil, or_false] at hp
  rcases hp with rfl | rfl | rfl
  · simp only [hc, if_true, Nat.add_comm]
  · simp only [hblank (by simp [Char.isAlphanum, hc]), hc, Bool.false_eq_true, if_false, if_true,
      Nat.add_comm]
  · simp only [hblank (by simp [Char.isAlphanum, hc]), isAlpha_of_isDigit hc, hc,
      Bool.false_eq_true, if_false, if_true, Nat.add_comm]

/-- An operator starts with a character of no run; a second one is an equals sign. -/
theorem operators_cases (hm : (m, k) ∈ operators) : ∃ c cs, m = c :: cs ∧
    (∀ p ∈ runClasses, p c = false) ∧ "()\x7b\x7d=+-*/^<>!,".toList.contains c = true ∧
      (cs = [] ∨ (c = '<' ∨ c = '>' ∨ c = '=') ∧ cs = ['=']) := by
  have hclasses {c : Char} (hb : isBlank c = false) (ha : c.isAlpha = false)
      (hd : c.isDigit = false) : ∀ p ∈ runClasses, p c = false := by
    simp [runClasses, hb, ha, hd]
  have hmem : m ∈ operators.map Prod.fst := List.mem_map_of_mem hm
  simp only [operators, List.map_cons, List.map_nil, List.mem_cons, List.not_mem_nil, or_false]
    at hmem
  rcases hmem with rfl | rfl | rfl | rfl | rfl | rfl | rfl | rfl | rfl | rfl | rfl | rfl | rfl |
    rfl | rfl | rfl | rfl
  all_goals exact ⟨_, _, rfl, hclasses rfl rfl rfl, rfl, by decide⟩

/-- The length of a match as an operator, for the first character of one. -/
theorem matchLength_operators (hclasses : ∀ p ∈ runClasses, p c = false) (cs : List Char) :
    matchLength (c :: cs) = if (c = '<' ∨ c = '>' ∨ c = '=') ∧ cs.head? = some '=' then 2
      else if "()\x7b\x7d=+-*/^<>!,".toList.contains c then 1 else 0 :=
  matchLength_operator (hclasses _ (by simp [runClasses])) (hclasses _ (by simp [runClasses]))
    (hclasses _ (by simp [runClasses])) cs

theorem exists_mem_operators (hc : "()\x7b\x7d=+-*/^<>!,".toList.contains c = true) :
    ∃ k, ([c], k) ∈ operators := by
  have hmem : c ∈ ['(', ')', '\x7b', '\x7d', '=', '+', '-', '*', '/', '^', '<', '>', '!', ','] :=
    List.contains_iff_mem.1 hc
  simp only [List.mem_cons, List.not_mem_nil, or_false] at hmem
  refine ⟨operatorKind (String.ofList [c]), ?_⟩
  rcases hmem with rfl | rfl | rfl | rfl | rfl | rfl | rfl | rfl | rfl | rfl | rfl | rfl | rfl | rfl
  all_goals decide

/-- A run is matched whole if what follows does not go on with it. -/
theorem matchLength_run_append (hp : p ∈ runClasses) (hall : ∀ x ∈ c :: cs, p x = true)
    (hend : ∀ y ∈ rest.head?, p y = false) : matchLength (c :: cs ++ rest) = (c :: cs).length := by
  obtain ⟨hc, hcs⟩ := List.forall_mem_cons.1 hall
  have hstop : rest.takeWhile p = [] := by
    cases rest with
    | nil => rfl
    | cons y rest => rw [List.takeWhile_cons_of_neg (by rw [hend y rfl]; decide)]
  rw [List.cons_append, matchLength_run hp hc, List.takeWhile_append_of_pos hcs, hstop,
    List.append_nil]
  rfl

/-- An operator is matched whole if what follows does not make a longer one of it. -/
theorem matchLength_operator_append (hm : (m, k) ∈ operators)
    (hend : ∀ y ∈ rest.head?, ∀ k, (m ++ [y], k) ∉ operators) :
    matchLength (m ++ rest) = m.length := by
  obtain ⟨c, cs, rfl, hclasses, hcontains, hcs⟩ := operators_cases hm
  rw [List.cons_append, matchLength_operators hclasses, if_pos hcontains]
  rcases hcs with rfl | ⟨hc, rfl⟩
  · have hshort : ¬((c = '<' ∨ c = '>' ∨ c = '=') ∧ rest.head? = some '=') := by
      rintro ⟨hc, hrest⟩
      rcases hc with rfl | rfl | rfl
      · exact hend '=' hrest .leq (by decide)
      · exact hend '=' hrest .geq (by decide)
      · exact hend '=' hrest .eq (by decide)
    rw [List.nil_append, if_neg hshort]
    rfl
  · rw [if_pos ⟨hc, rfl⟩]
    rfl

/-! ### The longest match -/

/-- A text that can be matched is no longer than the match that is taken. -/
theorem Lexical.length_le (hm : Lexical m) (rest : List Char) :
    m.length ≤ matchLength (m ++ rest) := by
  cases hm with
  | run hp hall =>
    obtain ⟨hc, hcs⟩ := List.forall_mem_cons.1 hall
    rw [List.cons_append, matchLength_run hp hc, List.takeWhile_append_of_pos hcs,
      List.length_append]
    exact Nat.succ_le_succ (Nat.le_add_right _ _)
  | operator hmem =>
    obtain ⟨c, cs, rfl, hclasses, hcontains, hcs⟩ := operators_cases hmem
    rw [List.cons_append, matchLength_operators hclasses, if_pos hcontains]
    rcases hcs with rfl | ⟨hc, rfl⟩
    · split
      · exact Nat.le_succ 1
      · exact Nat.le_refl 1
    · rw [if_pos ⟨hc, rfl⟩]
      exact Nat.le_refl 2

/-- If anything is taken, it is a part of the text that can be matched. -/
theorem matchLength_cases (c : Char) (rest : List Char) : matchLength (c :: rest) = 0 ∨
    ∃ cs more, rest = cs ++ more ∧ (c :: cs).length = matchLength (c :: rest) ∧
      Lexical (c :: cs) := by
  by_cases hclass : ∃ p ∈ runClasses, p c = true
  · obtain ⟨p, hp, hc⟩ := hclass
    refine .inr ⟨rest.takeWhile p, rest.dropWhile p, List.takeWhile_append_dropWhile.symm, ?_,
      .run hp ?_⟩
    · rw [matchLength_run hp hc, List.length_cons]
    · exact List.forall_mem_cons.2 ⟨hc, fun x hx => List.mem_takeWhile_imp hx⟩
  · rw [matchLength_operators fun p hp => Bool.eq_false_iff.2 fun hc => hclass ⟨p, hp, hc⟩]
    split
    · rename_i h
      obtain ⟨hc, hrest⟩ := h
      obtain ⟨more, rfl⟩ := List.head?_eq_some_iff.1 hrest
      refine .inr ⟨['='], more, rfl, rfl, ?_⟩
      rcases hc with rfl | rfl | rfl
      · exact .operator (k := .leq) (by decide)
      · exact .operator (k := .geq) (by decide)
      · exact .operator (k := .eq) (by decide)
    · split
      · rename_i hcontains
        obtain ⟨k, hmem⟩ := exists_mem_operators hcontains
        exact .inr ⟨[], rest, rfl, rfl, .operator hmem⟩
      · exact .inl rfl

/-- Where no match is taken, none is possible. -/
theorem not_lexical_of_matchLength (h : matchLength cs = 0) (hm : m <+: cs) : ¬ Lexical m := by
  intro hlexical
  obtain ⟨rest, rfl⟩ := hm
  have hle := hlexical.length_le rest
  have hnil : m = [] := List.length_eq_zero_iff.1 (by omega)
  rw [hnil] at hlexical
  cases hlexical with
  | operator hmem =>
    obtain ⟨_, _, ⟨⟩, _⟩ := operators_cases hmem

/-- A match that begins with a blank is a run of them. -/
theorem isBlank_of_matchLength (hlength : (c :: cs).length = matchLength (c :: cs ++ rest)) :
    (c :: cs).all isBlank = isBlank c := by
  rw [List.all_cons]
  cases hc : isBlank c with
  | false => rfl
  | true =>
    rw [List.cons_append, matchLength_run (p := isBlank) (by simp [runClasses]) hc] at hlength
    have hcs : cs <+: (cs ++ rest).takeWhile isBlank := by
      refine List.prefix_of_prefix_length_le (List.prefix_append cs rest)
        (List.takeWhile_prefix _) ?_
      rw [List.length_cons] at hlength
      omega
    rw [Bool.true_and, List.all_eq_true]
    exact fun x hx => List.mem_takeWhile_imp (hcs.subset hx)

/-! ### What matches become -/

/-- A word that begins with a small letter and is not one of the language is a symbol. -/
theorem wordKind_of_not_mem (hc : c.isLower = true) (hother : c :: cs ∉ keywords.map Prod.fst) :
    wordKind (String.ofList (c :: cs)) = .sym := by
  have hupper : c.isUpper = false := by
    rw [Bool.eq_false_iff, Ne, isUpper_iff]
    have := isLower_iff.1 hc
    omega
  unfold wordKind
  split
  case h_12 => simp [hupper]
  all_goals
    rename_i hword
    refine absurd ?_ hother
    rw [← String.toList_ofList (l := c :: cs), hword]
    decide

/-- The scan makes of a match what it is to become. -/
theorem Shown.ofMatch_eq {text : String} (h : Shown m k text) (line column : Nat) :
    ofMatch m line column = { kind := k, text, line, column } := by
  cases h with
  | operator hmem =>
    simp only [operators, List.mem_cons, List.not_mem_nil, or_false, Prod.mk.injEq] at hmem
    rcases hmem with h | h | h | h | h | h | h | h | h | h | h | h | h | h | h | h | h
    all_goals
      obtain ⟨rfl, rfl⟩ := h
      rfl
  | keyword hmem =>
    simp only [keywords, List.mem_cons, List.not_mem_nil, or_false, Prod.mk.injEq] at hmem
    rcases hmem with h | h | h | h | h | h | h | h | h | h | h
    all_goals
      obtain ⟨rfl, rfl⟩ := h
      rfl
  | number hall =>
    have hc := (List.forall_mem_cons.1 hall).1
    simp [ofMatch, isAlpha_of_isDigit hc, hc]
  | name hc hall =>
    simp only [ofMatch, isAlpha_iff.2 (.inl hc), if_true, wordKind_of_isUpper hc]
  | symbol hc hall hother =>
    simp only [ofMatch, isAlpha_iff.2 (.inr hc), if_true, wordKind_of_not_mem hc hother]

/-- Every match but a blank one becomes a token. -/
theorem Lexical.exists_shown (hm : Lexical m) (hblank : m.all isBlank = false) :
    ∃ k text, Shown m k text := by
  cases hm with
  | operator hmem => exact ⟨_, _, .operator hmem⟩
  | @run p c cs hp hall =>
    have hcs := (List.forall_mem_cons.1 hall).2
    simp only [runClasses, List.mem_cons, List.not_mem_nil, or_false] at hp
    rcases hp with rfl | rfl | rfl
    · rw [List.all_eq_true.2 hall] at hblank
      cases hblank
    · rcases isAlpha_iff.1 (List.forall_mem_cons.1 hall).1 with hc | hc
      · exact ⟨_, _, .name hc hcs⟩
      · by_cases hother : c :: cs ∈ keywords.map Prod.fst
        · obtain ⟨⟨_, k⟩, hmem, rfl⟩ := List.mem_map.1 hother
          exact ⟨k, _, .keyword hmem⟩
        · exact ⟨_, _, .symbol hc hcs hother⟩
    · exact ⟨_, _, .number hall⟩

end SymScript.Token
