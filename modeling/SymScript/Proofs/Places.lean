import Mathlib.Data.List.Forall2
import Mathlib.Data.List.Induction
import SymScript.Proofs.Matches

/-!
# Where tokens stand

The scan takes the longest match wherever there is one and passes over every other character.  Its
matches are spans of the source that follow each other, and nothing can be matched at a place
outside them.  A token stands on the line that the line breaks before it give.  Its column counts
the characters since the last line break that belong to a match: a symbol counts with all its
letters, and a character that is passed over does not count.
-/

namespace SymScript.Token

variable {c : Char} {cs rest m : List Char}

/-! ### Spans -/

/-- A match: the place where it begins, and its text. -/
structure Span where
  start : Nat
  text : List Char

namespace Span

def stop (s : Span) : Nat := s.start + s.text.length

/-- The character at a place belongs to the span. -/
def Holds (s : Span) (k : Nat) : Prop := s.start ≤ k ∧ k < s.stop

instance (s : Span) (k : Nat) : Decidable (s.Holds k) := inferInstanceAs (Decidable (_ ∧ _))

def isBlank (s : Span) : Bool := s.text.all Token.isBlank

/-- The span can be matched where it begins, and nothing longer can. -/
structure Longest (source : List Char) (s : Span) : Prop where
  starts : s.text <+: source.drop s.start
  lexical : Lexical s.text
  longest : ∀ m, m <+: source.drop s.start → Lexical m → m.length ≤ s.text.length

end Span

/-- The spans from a place on are longest matches one after the other, and nothing can be matched
outside them. -/
structure CoversFrom (place : Nat) (source : List Char) (spans : List Span) : Prop where
  start_le : ∀ s ∈ spans, place ≤ s.start
  ordered : spans.Pairwise fun s t => s.stop ≤ t.start
  longest : ∀ s ∈ spans, s.Longest source
  outside : ∀ k, place ≤ k → k < source.length → (∀ s ∈ spans, ¬ s.Holds k) →
    ∀ m, m <+: source.drop k → ¬ Lexical m

/-- The line on which a text ends. -/
def lineOf (before : List Char) : Nat := 1 + before.count '\n'

/-- The characters that spans hold, from the last line break of a text to its end. -/
def columnOf (spans : List Span) (before : List Char) : Nat :=
  (before.zipIdx.reverse.takeWhile (·.1 != '\n')).countP fun x => spans.any (·.Holds x.2)

/-- The token of a span, at the line and the column that it has in the source. -/
def Span.token (source : List Char) (spans : List Span) (s : Span) : Token :=
  ofMatch s.text (lineOf (source.take s.start)) (columnOf spans (source.take s.start))

/-- The tokens of the spans that are not blank, and the end of the source. -/
def tokensOf (source : List Char) (spans shown : List Span) : List Token :=
  (shown.filter fun s => !s.isBlank).map (Span.token source spans) ++
    [endOf (lineOf source) (columnOf spans source)]

/-- One more character moves the column, unless it is skipped or ends the line. -/
theorem columnOf_concat (spans : List Span) (before : List Char) (c : Char) :
    columnOf spans (before ++ [c]) = if c = '\n' then 0
      else columnOf spans before + if spans.any (·.Holds before.length) then 1 else 0 := by
  rw [columnOf, List.zipIdx_append, List.reverse_append]
  simp only [List.zipIdx_singleton, List.reverse_singleton, List.singleton_append,
    List.takeWhile_cons, Nat.zero_add, bne_iff_ne, ne_eq, ite_not]
  split
  · rfl
  · rw [List.countP_cons]
    rfl

theorem columnAfter_concat (m : List Char) (c : Char) (column : Nat) :
    columnAfter (m ++ [c]) column = if c = '\n' then 0 else columnAfter m column + 1 := by
  rw [columnAfter, columnAfter, List.reverse_append]
  by_cases hc : c = '\n'
  · simp [hc]
  · simp [hc, Ne.symm hc]
    split <;> omega

/-- Over a match that spans hold, the column is counted on as the scan does it. -/
theorem columnOf_append {spans : List Span} {before : List Char} (m : List Char)
    (hm : ∀ k, before.length ≤ k → k < before.length + m.length → spans.any (·.Holds k) = true) :
    columnOf spans (before ++ m) = columnAfter m (columnOf spans before) := by
  induction m using List.reverseRecOn with
  | nil =>
    rw [List.append_nil]
    rfl
  | append_singleton m c ih =>
    rw [List.length_append, List.length_singleton] at hm
    have hlast := hm (before ++ m).length
    rw [List.length_append] at hlast
    rw [← List.append_assoc, columnOf_concat, columnAfter_concat, ih fun k hk hlt =>
      hm k hk (by omega), List.length_append, if_pos (hlast (Nat.le_add_right _ _) (by omega))]

/-- A character that no span holds is not counted. -/
theorem columnOf_skip {spans : List Span} {before : List Char} (hc : c ≠ '\n')
    (hout : ∀ s ∈ spans, ¬ s.Holds before.length) :
    columnOf spans (before ++ [c]) = columnOf spans before := by
  have hany : spans.any (·.Holds before.length) = false := by
    rw [List.any_eq_false]
    exact fun s hs h => hout s hs (of_decide_eq_true h)
  rw [columnOf_concat, if_neg hc, hany]
  rfl

/-- The line after a match. -/
theorem lineOf_append (before m : List Char) :
    lineOf (before ++ m) = lineAfter m (lineOf before) := by
  rw [lineOf, lineOf, lineAfter, List.count_append, Nat.add_assoc]

/-! ### The scan -/

/-- The match of the scan is the longest one at its place. -/
theorem longest_of_matchLength {before : List Char} (hlength : m.length = matchLength (m ++ rest))
    (hlexical : Lexical m) : Span.Longest (before ++ (m ++ rest)) ⟨before.length, m⟩ := by
  refine ⟨?_, hlexical, fun w hw hword => ?_⟩
  · rw [List.drop_left]
    exact List.prefix_append m rest
  · rw [List.drop_left] at hw
    obtain ⟨more, hmore⟩ := hw
    have hle := hword.length_le more
    rw [hmore, ← hlength] at hle
    exact hle

/-- A character that matches nothing is in no span. -/
theorem CoversFrom.skip {before : List Char} {spans : List Span}
    (hzero : matchLength (c :: rest) = 0)
    (h : CoversFrom (before.length + 1) (before ++ c :: rest) spans) :
    CoversFrom before.length (before ++ c :: rest) spans := by
  refine ⟨fun s hs => Nat.le_of_succ_le (h.start_le s hs), h.ordered, h.longest,
    fun k hk hlt hout => ?_⟩
  rcases Nat.eq_or_lt_of_le hk with rfl | hk
  · rw [List.drop_left]
    exact fun w hw => not_lexical_of_matchLength hzero hw
  · exact h.outside k hk hlt hout

/-- A match is a span in front of those behind it. -/
theorem CoversFrom.cons {before : List Char} {spans : List Span}
    (hlength : m.length = matchLength (m ++ rest))
    (hlexical : Lexical m)
    (h : CoversFrom (before.length + m.length) (before ++ (m ++ rest)) spans) :
    CoversFrom before.length (before ++ (m ++ rest)) (⟨before.length, m⟩ :: spans) := by
  refine ⟨?_, ?_, ?_, fun k hk hlt hout => ?_⟩
  · exact List.forall_mem_cons.2 ⟨Nat.le_refl _,
      fun s hs => Nat.le_trans (Nat.le_add_right _ _) (h.start_le s hs)⟩
  · exact List.pairwise_cons.2 ⟨h.start_le, h.ordered⟩
  · exact List.forall_mem_cons.2 ⟨longest_of_matchLength hlength hlexical, h.longest⟩
  · obtain ⟨hfirst, hout⟩ := List.forall_mem_cons.1 hout
    exact h.outside k (Nat.not_lt.1 fun hlt => hfirst ⟨hk, hlt⟩) hlt hout

/-- A match becomes a token at its line and column, unless it is blank. -/
theorem scan_matched (hlength : (c :: cs).length = matchLength (c :: cs ++ rest))
    (line column : Nat) :
    scan line column (c :: cs ++ rest) =
      (if isBlank c then [] else [ofMatch (c :: cs) line column]) ++
        scan (lineAfter (c :: cs) line) (columnAfter (c :: cs) column) rest := by
  rw [List.cons_append] at hlength ⊢
  rw [scan, ← hlength]
  simp only [List.length_cons, List.take_left, List.drop_left]
  split <;> rfl

/-- The token of a span stands at the line and column that its place gives. -/
theorem tokensOf_cons {before : List Char}
    (hlength : (c :: cs).length = matchLength (c :: cs ++ rest)) (spans shown : List Span) :
    tokensOf (before ++ (c :: cs ++ rest)) spans (⟨before.length, c :: cs⟩ :: shown) =
      (if isBlank c then [] else [ofMatch (c :: cs) (lineOf before) (columnOf spans before)]) ++
        tokensOf (before ++ (c :: cs ++ rest)) spans shown := by
  have htoken : Span.token (before ++ (c :: cs ++ rest)) spans ⟨before.length, c :: cs⟩ =
      ofMatch (c :: cs) (lineOf before) (columnOf spans before) := by
    rw [Span.token, List.take_left]
  have hblank : (⟨before.length, c :: cs⟩ : Span).isBlank = isBlank c :=
    isBlank_of_matchLength hlength
  rw [tokensOf, tokensOf, List.filter_cons, hblank]
  cases isBlank c with
  | true => rfl
  | false =>
    rw [Bool.not_false, if_pos rfl, List.map_cons, htoken]
    rfl

/-- The spans cover the rest of a source, and the scan makes their tokens of it, when the line and
the column are those of the place that it has come to.  The spans of the part before may be any that
end there. -/
structure Scans (before rest : List Char) (spans : List Span) : Prop where
  covers : CoversFrom before.length (before ++ rest) spans
  scan_eq : ∀ earlier : List Span, (∀ s ∈ earlier, s.stop ≤ before.length) →
    scan (lineOf before) (columnOf (earlier ++ spans) before) rest =
      tokensOf (before ++ rest) (earlier ++ spans) spans

namespace Scans

variable {before : List Char} {spans : List Span}

theorem nil (before : List Char) : Scans before [] [] where
  covers := ⟨List.forall_mem_nil _, .nil, List.forall_mem_nil _, fun k hk hlt => by
    rw [List.append_nil] at hlt
    omega⟩
  scan_eq earlier _ := by
    rw [scan, tokensOf, List.append_nil, List.append_nil]
    rfl

/-- A character that matches nothing is no line break and lies in no span, so line and column
stay. -/
theorem skip (hzero : matchLength (c :: rest) = 0) (h : Scans (before ++ [c]) rest spans) :
    Scans before (c :: rest) spans := by
  obtain ⟨hcovers, hscan⟩ := h
  rw [List.append_assoc, List.singleton_append, List.length_append, List.length_singleton]
    at hcovers hscan
  refine ⟨hcovers.skip hzero, fun earlier hearlier => ?_⟩
  have hc : c ≠ '\n' := by
    rintro rfl
    rw [matchLength_run (p := isBlank) (by simp [runClasses]) rfl] at hzero
    cases hzero
  have hout : ∀ s ∈ earlier ++ spans, ¬ s.Holds before.length := by
    rintro s hs ⟨hstart, hstop⟩
    rcases List.mem_append.1 hs with hs | hs
    · exact absurd (hearlier s hs) (Nat.not_le.2 hstop)
    · exact absurd (hcovers.start_le s hs) (Nat.not_le.2 (Nat.lt_succ_of_le hstart))
  have hline : lineOf (before ++ [c]) = lineOf before := by
    rw [lineOf_append, lineAfter, List.count_singleton, beq_false_of_ne hc]
    rfl
  rw [scan_skip hzero, ← hline, ← columnOf_skip hc hout]
  exact hscan earlier fun s hs => Nat.le_succ_of_le (hearlier s hs)

/-- A match is a span in front of the others, over which line and column are counted on. -/
theorem cons (hlength : (c :: cs).length = matchLength (c :: cs ++ rest))
    (hlexical : Lexical (c :: cs)) (h : Scans (before ++ c :: cs) rest spans) :
    Scans before (c :: cs ++ rest) (⟨before.length, c :: cs⟩ :: spans) := by
  obtain ⟨hcovers, hscan⟩ := h
  rw [List.append_assoc, List.length_append] at hcovers hscan
  refine ⟨hcovers.cons hlength hlexical, fun earlier hearlier => ?_⟩
  have hheld : ∀ k, before.length ≤ k → k < before.length + (c :: cs).length →
      (earlier ++ ⟨before.length, c :: cs⟩ :: spans).any (·.Holds k) = true := by
    intro k hk hlt
    exact List.any_eq_true.2 ⟨⟨before.length, c :: cs⟩, by simp, decide_eq_true ⟨hk, hlt⟩⟩
  have hrest := hscan (earlier ++ [⟨before.length, c :: cs⟩]) fun s hs => by
    rcases List.mem_append.1 hs with hs | hs
    · exact Nat.le_trans (hearlier s hs) (Nat.le_add_right _ _)
    · exact Nat.le_of_eq (congrArg Span.stop (List.mem_singleton.1 hs))
  rw [List.append_assoc, List.singleton_append, columnOf_append _ hheld, lineOf_append] at hrest
  rw [scan_matched hlength, hrest, tokensOf_cons hlength]

end Scans

/-- The rest of every source has such spans, by induction on its length: a match takes a character
at least. -/
theorem exists_scans (before rest : List Char) : ∃ spans, Scans before rest spans := by
  induction hl : rest.length using Nat.strongRecOn generalizing before rest with
  | ind l ih =>
    cases rest with
    | nil => exact ⟨[], .nil before⟩
    | cons c rest =>
      rw [List.length_cons] at hl
      rcases matchLength_cases c rest with hzero | ⟨cs, more, rfl, hlength, hlexical⟩
      · obtain ⟨spans, h⟩ := ih rest.length (by omega) (before ++ [c]) rest rfl
        exact ⟨spans, h.skip hzero⟩
      · rw [List.length_append] at hl
        obtain ⟨spans, h⟩ := ih more.length (by omega) (before ++ c :: cs) more rfl
        exact ⟨_, h.cons hlength hlexical⟩

/-- The kind and the text of the token of a span are those that its match becomes. -/
theorem Span.Longest.shown_token {source : List Char} {s : Span} (h : s.Longest source)
    (hblank : s.isBlank = false) (spans : List Span) :
    Shown s.text (s.token source spans).kind (s.token source spans).text ∧
      (s.token source spans).line = lineOf (source.take s.start) ∧
      (s.token source spans).column = columnOf spans (source.take s.start) := by
  obtain ⟨k, text, hshown⟩ := h.lexical.exists_shown hblank
  rw [Span.token, hshown.ofMatch_eq]
  exact ⟨hshown, rfl, rfl⟩

/-- The tokens of a source are those of its matches that are not blank, in order, and its end.  The
matches do not overlap, each is the longest one at its place, and nothing can be matched outside
them. Each token has the kind and the text that its match becomes.  Its line is one more than the
number of line breaks before it, and its column is the number of matched characters since the last
of them. -/
theorem exists_spans_tokens (source : String) : ∃ spans : List Span,
    spans.Pairwise (fun s t => s.stop ≤ t.start) ∧ (∀ s ∈ spans, s.Longest source.toList) ∧
    (∀ k < source.toList.length, (∀ s ∈ spans, ¬ s.Holds k) →
      ∀ m, m <+: source.toList.drop k → ¬ Lexical m) ∧
    ∃ ts last, tokens source = ts ++ [last] ∧
      List.Forall₂ (fun s t => Shown s.text t.kind t.text ∧
          t.line = 1 + (source.toList.take s.start).count '\n' ∧
          t.column = columnOf spans (source.toList.take s.start))
        (spans.filter fun s => !s.isBlank) ts ∧
      last.kind = .eof ∧ last.text = "<EOF>" ∧ last.line = 1 + source.toList.count '\n' ∧
      last.column = columnOf spans source.toList := by
  obtain ⟨spans, hcovers, hscan⟩ := exists_scans [] source.toList
  refine ⟨spans, hcovers.ordered, hcovers.longest, fun k => hcovers.outside k (Nat.zero_le k), _, _,
    hscan [] (List.forall_mem_nil _), ?_, rfl, rfl, rfl, rfl⟩
  rw [List.forall₂_map_right_iff, List.forall₂_same]
  intro s hs
  obtain ⟨hmem, hblank⟩ := List.mem_filter.1 hs
  exact (hcovers.longest s hmem).shown_token (by simpa using hblank) spans

end SymScript.Token
