import SymScript.Proofs.Printing

/-!
# Reading a printed expression

An expression is read inside the body of a function. The tokens around it are always the same, and
so is the tree around its tree; what is read is what was printed.
-/

namespace SymScript.Ast

open ParseTree Parse Token

/-! ### The program around an expression -/

/-- The tokens around the expression of a framed text. -/
structure FrameTokens where
  main : Token
  opening : Token
  closing : Token
  left : Token
  name : Token
  sign : Token
  right : Token
  main_kind : main.kind = .id
  main_text : main.text = "Main"
  opening_kind : opening.kind = .leftParen
  closing_kind : closing.kind = .rightParen
  left_kind : left.kind = .leftBrace
  name_kind : name.kind = .id
  name_text : name.text = "A"
  sign_kind : sign.kind = .assign
  right_kind : right.kind = .rightBrace

namespace FrameTokens

variable (f : FrameTokens)

def around (ts : List Token) : List Token :=
  f.main :: f.opening :: f.closing :: f.left :: f.name :: f.sign :: (ts ++ [f.right])

def instruction (t : ParseTree) : ParseTree := .node .instruction [.leaf f.name, .leaf f.sign, t]

def block (t : ParseTree) : ParseTree :=
  .node .block [.leaf f.left, f.instruction t, .leaf f.right]

def function (t : ParseTree) : ParseTree :=
  .node .function [.leaf f.main, .leaf f.opening, .leaf f.closing, f.block t]

/-- The tree of the program around the tree of an expression. -/
def program (t : ParseTree) (last : Token) : ParseTree :=
  .node .program [f.function t, .leaf last]

/-- The program around an expression is read as its frame with the tree of the expression. -/
theorem reads_program {watch : Watch} {n : Nat} {t : ParseTree} {last : Token}
    (ht : Derives .sum t) (hlast : last.kind = .eof) (hn : 4 * t.terminals.length + 7 ≤ n) :
    Reads (Parse.program watch n) (f.around t.terminals ++ [last]) (f.program t last) [] := by
  obtain ⟨n, rfl⟩ : ∃ m, n = m + 4 := ⟨n - 4, by omega⟩
  have hvalue : Reads (expression watch n) (t.terminals ++ [f.right, last]) t [f.right, last] := by
    refine ht.reads_expression (by omega) ?_
    rw [next_cons, f.right_kind]
    rfl
  have hbody := Reads.instructions_step (by rw [next_cons, f.name_kind]; decide)
    (Reads.instruction_assign f.name_kind f.sign_kind hvalue) (Reads.instructions_stop f.right_kind)
  have hfunction := Reads.function f.main_kind
    (Reads.signature_empty f.opening_kind f.closing_kind)
    (Reads.block f.left_kind hbody f.right_kind)
  have hfunctions := Reads.functions_step (by exact f.main_kind) hfunction
    (Reads.functions_stop (by rw [next_cons, hlast]; decide))
  rw [around]
  simp only [List.cons_append, List.append_assoc, List.nil_append]
  exact Reads.program hfunctions hlast

/-- The meaning of the program is the assignment of what the expression means. -/
theorem meaning_program {t : ParseTree} {e : Ast} (last : Token) (ht : meaning t = .ok (.node e)) :
    meaning (f.program t last) =
      .ok (.node (.program [.function "Main" [] (.block [.assign "A" e])])) := by
  have hname : terminal f.name = .ok (.node (.id false "A")) :=
    IsName.terminal_eq ⟨'A', [], rfl, rfl, rfl⟩ f.name_kind f.name_text
  have hmain : terminal f.main = .ok (.node (.id false "Main")) :=
    IsName.terminal_eq ⟨'M', ['a', 'i', 'n'], rfl, rfl, rfl⟩ f.main_kind f.main_text
  have hinstruction : meaning (f.instruction t) = .ok (.node (.assign "A" e)) := by
    have htext : (ParseTree.leaf f.name).text = "A" := by
      rw [ParseTree.text, terminals_leaf, List.map_singleton, f.name_text]
      rfl
    have hmeaning : meaning (f.instruction t) = Meaning.node <$> instructionOf
      (ParseTree.leaf f.name).text [terminal f.name, terminal f.sign, meaning t] := rfl
    rw [hmeaning, htext, hname, ht]
    rfl
  have hblock : meaning (f.block t) = .ok (.node (.block [.assign "A" e])) := by
    have hmeaning : meaning (f.block t) = meaningOf .block
      [.leaf f.left, f.instruction t, .leaf f.right]
      [terminal f.left, meaning (f.instruction t), terminal f.right] := rfl
    rw [hmeaning, hinstruction]
    rfl
  have hfunction : meaning (f.function t) =
      .ok (.node (.function "Main" [] (.block [.assign "A" e]))) := by
    have hmeaning : meaning (f.function t) = Meaning.node <$> functionOf
      [terminal f.main, terminal f.opening, terminal f.closing, meaning (f.block t)] := rfl
    rw [hmeaning, hmain, hblock]
    rfl
  have hmeaning : meaning (f.program t last) = meaningOf .program [f.function t, .leaf last]
    [meaning (f.function t), terminal last] := rfl
  rw [hmeaning, hfunction]
  rfl

end FrameTokens

/-! ### The text around an expression -/

/-- The text starts with a character that leaves an equals sign before it alone. -/
def Starts (cs : List Char) : Prop := ∃ c ds, cs = c :: ds ∧ c ≠ '='

theorem Starts.append {cs : List Char} (h : Starts cs) (ds : List Char) : Starts (cs ++ ds) := by
  obtain ⟨c, cs, rfl, hc⟩ := h
  exact ⟨c, cs ++ ds, rfl, hc⟩

/-- A text with a sign in front starts with no equality sign. -/
theorem starts_signed (s : Bool) {leaf : String} (h : Starts leaf.toList) :
    Starts (signed s leaf).toList := by
  cases s with
  | false => exact h
  | true => exact ⟨'-', leaf.toList, by simp [signed], by decide⟩

theorem IsName.starts {name : String} (hname : IsName name) : Starts name.toList := by
  obtain ⟨c, cs, rfl, hc, -⟩ := hname
  refine ⟨c, cs, String.toList_ofList, ?_⟩
  rintro rfl
  cases hc

/-- What is printed starts with no equality sign, so that the assignment before it is one. -/
theorem Writable.starts {e : Ast} (he : Writable e) (level : Precedence) :
    Starts (print level e).toList := by
  induction he generalizing level with
  | nat s hdigits =>
    obtain ⟨c, cs, rfl, hc, -⟩ := hdigits
    refine starts_signed s ⟨c, cs, String.toList_ofList, ?_⟩
    rintro rfl
    cases hc
  | id s hname => exact starts_signed s hname.starts
  | sym s hletter =>
    obtain ⟨c, rfl, hc⟩ := hletter
    refine starts_signed s ⟨c, [], by simp [Char.toString], ?_⟩
    rintro rfl
    cases hc
  | @binary s op a b _ _ _ iha _ =>
    have hminus : Starts "-(".toList := ⟨'-', ['('], rfl, by decide⟩
    have hparen : Starts "(".toList := ⟨'(', [], rfl, by decide⟩
    rw [print]
    split
    · simp only [String.toList_append]
      exact (hminus.append _).append _
    · split <;> simp only [String.toList_append]
      · exact (hparen.append _).append _
      · exact ((iha op.leftLevel).append _).append _
  | @call name as hname _ _ =>
    cases as with
    | nil =>
      rw [print, String.toList_append]
      exact hname.starts.append _
    | cons a as =>
      rw [print]
      simp only [String.toList_append]
      exact (((hname.starts.append _).append _).append _).append _

/-- The text around a printed expression is scanned to its frame with tokens that denote the
expression. -/
theorem spells_frame {e : Ast} (he : Writable e) :
    Spells (frame (print .sum e)).toList fun ts =>
      ∃ (f : FrameTokens) (us : List Token), ts = f.around us ∧ Denotes .sum e us := by
  have hmain : IsName "Main" := ⟨'M', ['a', 'i', 'n'], rfl, rfl, rfl⟩
  have hname : IsName "A" := ⟨'A', [], rfl, rfl, rfl⟩
  have hvalue := (he.spells .sum).append_mark (show '\x7d' ∈ marks by decide) Spells.nil
  obtain ⟨c, cs, hchars, hc⟩ := (he.starts .sum).append ['\x7d']
  rw [hchars] at hvalue
  have hframe : (frame (print .sum e)).toList = "Main".toList ++ '(' :: ')' :: '\x7b' ::
      ("A".toList ++ '=' :: c :: cs) := by
    rw [← hchars]
    simp [frame]
  rw [hframe]
  refine (hmain.spells.append_mark (by decide) (Spells.mark (by decide) (Spells.mark (by decide)
    (hname.spells.append (Spells.assign hc hvalue) (Ends.cons (by decide) _))))).mono ?_
  rintro _ ⟨_, opening, _, rfl, ho, ⟨main, rfl, hmk, hmt⟩, closing, _, rfl, hcl, left, _, rfl, hl,
    _, _, rfl, ⟨name, rfl, hnk, hnt⟩, sign, _, rfl, hs, us, right, _, rfl, hr, hus, rfl⟩
  exact ⟨⟨main, opening, closing, left, name, sign, right, hmk, hmt, ho, hcl, hl, hnk, hnt, hs, hr⟩,
    us, rfl, hus⟩

/-- What is printed is read back: scanning, parsing and building undo printing on every expression
that can be written down. -/
theorem expressionOfText_print {e : Ast} (he : Writable e) :
    expressionOfText (print .sum e) = .ok e := by
  obtain ⟨ts, line, column, hscan, f, us, rfl, t, ht, rfl, hmeaning⟩ :=
    spells_frame he 1 0 [] Ends.nil
  have htokens : tokens (frame (print .sum e)) = f.around t.terminals ++ [endOf line column] := by
    rw [tokens, ← List.append_nil (frame (print .sum e)).toList, hscan, scan]
  have hreads : Reads (Parse.program none (fuelFor (tokens (frame (print .sum e)))))
      (tokens (frame (print .sum e))) (f.program t (endOf line column)) [] := by
    rw [htokens]
    refine f.reads_program ht rfl ?_
    simp only [fuelFor, FrameTokens.around, List.length_append, List.length_cons]
    omega
  have hparsed : (ParseTree.ofText (frame (print .sum e)) false).result =
      .ok (f.program t (endOf line column)) := by
    simp only [ParseTree.ofText, Bool.false_eq_true, if_false]
    rw [hreads []]
  rw [expressionOfText, ofParsed, hparsed]
  simp only [ofParseTree, f.meaning_program _ hmeaning]
  rfl

/-- An expression with signs at every kind of node, with grouping against both associativities, and
with calls in a call. -/
def signedSample : Ast :=
  .binary true .sub (.nat true "07")
    (.binary false .pow (.binary false .pow (.id true "Ab") (.sym false "x"))
      (.binary false .pow (.sym true "y")
        (.call "F"
          [.binary false .sub (.nat false "1") (.binary true .mul (.id false "B") (.sym false "z")),
            .call "G" []])))

theorem expressionOfText_print_signedSample :
    print .sum signedSample = "-(-07-(-Ab^x)^-y^F(1--(B*z),G()))" ∧
      expressionOfText (print .sum signedSample) = .ok signedSample := by
  have h07 : IsNumeral "07" := ⟨'0', ['7'], rfl, rfl, rfl⟩
  have h1 : IsNumeral "1" := ⟨'1', [], rfl, rfl, rfl⟩
  have hAb : IsName "Ab" := ⟨'A', ['b'], rfl, rfl, rfl⟩
  have hB : IsName "B" := ⟨'B', [], rfl, rfl, rfl⟩
  have hF : IsName "F" := ⟨'F', [], rfl, rfl, rfl⟩
  have hG : IsName "G" := ⟨'G', [], rfl, rfl, rfl⟩
  have hx : IsLetter "x" := ⟨'x', rfl, rfl⟩
  have hy : IsLetter "y" := ⟨'y', rfl, rfl⟩
  have hz : IsLetter "z" := ⟨'z', rfl, rfl⟩
  refine ⟨by decide +kernel, expressionOfText_print (.binary true rfl (.nat true h07)
    (.binary false rfl (.binary false rfl (.id true hAb) (.sym false hx))
      (.binary false rfl (.sym true hy) (.call hF ?_))))⟩
  intro a ha
  simp only [List.mem_cons, List.not_mem_nil, or_false] at ha
  rcases ha with rfl | rfl
  · exact .binary false rfl (.nat false h1) (.binary true rfl (.id false hB) (.sym false hz))
  · exact .call hG nofun

end SymScript.Ast
