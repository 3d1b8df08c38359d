import SymScript.Proofs.Conditions
import SymScript.Proofs.Recognition
import SymScript.Proofs.Writing

/-!
# Conditions in a source

A condition has the same tokens in a source as alone. So a source with nothing but the condition and
an empty block is parsed exactly if the condition is safe.
-/

namespace SymScript

open Recognizer Parse

/-! ### A condition and an empty block -/

namespace Token

/-- A source that has nothing but a condition in it. -/
def conditionSource (text : String) : String := "Main()\x7bif " ++ text ++ " \x7b\x7d\x7d"

/-- The kinds of the tokens of a text are those of its lexemes. -/
theorem kinds_tokens (text : String) :
    kinds (tokens text) = (lexemes text.toList).map Prod.fst := by
  rw [lexemes, List.map_map]
  rfl

/-- The front of the text around a condition. -/
theorem kinds_opening (cs : List Char) :
    (lexemes ("Main()\x7bif ".toList ++ cs)).map Prod.fst =
      .id :: .leftParen :: .rightParen :: .leftBrace :: .if :: (lexemes cs).map Prod.fst := by
  have hmain : matchLength ("Main()\x7bif ".toList ++ cs) = 4 := rfl
  have hif : matchLength ('i' :: 'f' :: ' ' :: cs) = 2 := rfl
  have hlexemes : lexemes ("Main()\x7bif ".toList ++ cs) =
      matchLexeme ['M', 'a', 'i', 'n'] ::
      lexemes ('(' :: ')' :: '\x7b' :: 'i' :: 'f' :: ' ' :: cs) :=
    lexemes_match rfl hmain
  rw [hlexemes, lexemes_mark (by decide), lexemes_mark (by decide), lexemes_mark (by decide),
    lexemes_match rfl hif]
  change _ :: _ :: _ :: _ :: _ :: (lexemes (' ' :: cs)).map Prod.fst = _
  rw [lexemes_blank rfl]
  rfl

theorem kinds_closing : (lexemes " \x7b\x7d\x7d".toList).map Prod.fst =
    [.leftBrace, .rightBrace, .rightBrace, .eof] := by
  change (lexemes [' ', '\x7b', '\x7d', '\x7d']).map Prod.fst = _
  rw [lexemes_blank rfl, lexemes_mark (by decide), lexemes_mark (by decide),
    lexemes_mark (by decide), lexemes_nil]
  rfl

/-- In its source a condition has the tokens that it has alone. -/
theorem kinds_conditionSource {text : String} {ks : List TokenKind}
    (h : kinds (tokens text) = ks ++ [.eof]) : kinds (tokens (conditionSource text)) =
      .id :: .leftParen :: .rightParen :: .leftBrace :: .if ::
        (ks ++ [.leftBrace, .rightBrace, .rightBrace, .eof]) := by
  obtain ⟨hwords, happend⟩ := endsMatches_blank.lexemes_append text.toList
  have heq : (words text.toList).map Prod.fst = ks := by
    rw [kinds_tokens, hwords, List.map_append] at h
    exact List.append_cancel_right h
  have htext : (conditionSource text).toList =
      "Main()\x7bif ".toList ++ (text.toList ++ ' ' :: "\x7b\x7d\x7d".toList) := by
    rw [conditionSource, String.toList_append, String.toList_append, List.append_assoc]
    rfl
  rw [kinds_tokens, htext, kinds_opening, happend, List.map_append, heq]
  exact congrArg (fun ls => _ :: _ :: _ :: _ :: _ :: (ks ++ ls)) kinds_closing

end Token

open Token (kinds conditionSource)

namespace Parse

variable {α β : Type} {ts us : List Token} {K K' : List TokenKind} {b : Bool}
variable {lines : List String} {n : Nat}

theorem Reads.leaves {p : Parse α} {a : α} (h : Reads p ts a us) :
    Leaves p ts (some (kinds us)) := by
  intro reports
  rw [h reports]
  rfl

/-- What follows a parse that may stop, if what it leaves is known. -/
theorem Leaves.bind_of_kinds {p : Parse α} {f : α → Parse β}
    (hp : Leaves p ts (if b then some K else none))
    (hf : ∀ a us, kinds us = K → Leaves (f a) us (some K')) :
    Leaves (p >>= f) ts (if b then some K' else none) := by
  cases b with
  | false => exact LeavesIf.bind (g := some) hp fun _ _ h => by cases h
  | true =>
    exact LeavesIf.bind (g := fun _ => some K') hp fun a us h => hf a us (Option.some.inj h).symm

/-- An empty block is read to its end. -/
theorem leaves_emptyBlock (hus : kinds us = .leftBrace :: .rightBrace :: K) :
    Leaves (block (some lines) (n + 2)) us (some K) := by
  obtain ⟨opening, us, rfl, ho, hus⟩ := List.map_eq_cons_iff.1 hus
  obtain ⟨closing, us, rfl, hc, rfl⟩ := List.map_eq_cons_iff.1 hus
  exact (Reads.block ho (Reads.instructions_stop hc) hc).leaves

/-- A conditional instruction is read to its end just where its condition is safe. -/
theorem leaves_ifInstruction {keyword : Token} {c : Clause} (hkeyword : keyword.kind = .if)
    (hts : kinds ts = c.kinds ++ .leftBrace :: .rightBrace :: K) (hK : next K ≠ .else)
    (hn : 4 * ts.length + 8 ≤ n + 2) :
    Leaves (instruction (some lines) (n + 3)) (keyword :: ts)
      (if c.safe false then some K else none) := by
  have hcondition := (decidesWithin lines (n + 2)).condition hn
  rw [hts, condition_brace] at hcondition
  rw [instruction]
  refine LeavesIf.peek_bind ?_
  rw [Token.kinds_cons, next_cons, hkeyword]
  refine LeavesIf.take_bind (hcondition.bind_of_kinds fun test us hus => ?_)
  refine LeavesIf.bind (g := some) (leaves_emptyBlock hus) fun body vs hvs => LeavesIf.peek_bind ?_
  cases hvs
  rw [if_neg hK]
  exact LeavesIf.pure rfl

/-- A body with one instruction. -/
theorem leaves_block {opening first : Token} (hopening : opening.kind = .leftBrace)
    (hfirst : first.kind ≠ .rightBrace)
    (h : Leaves (instruction (some lines) (n + 1)) (first :: ts)
      (if b then some (.rightBrace :: K) else none)) :
    Leaves (block (some lines) (n + 3)) (opening :: first :: ts) (if b then some K else none) := by
  have hinner : Leaves (instructions (some lines) (n + 2)) (first :: ts)
      (if b then some (.rightBrace :: K) else none) := by
    rw [instructions]
    refine LeavesIf.peek_bind ?_
    rw [Token.kinds_cons, next_cons, if_neg hfirst]
    refine h.bind_of_kinds fun instruction us hus => Leaves.map ?_
    obtain ⟨closing, us, rfl, hc, rfl⟩ := List.map_eq_cons_iff.1 hus
    have hstop : Reads (instructions (some lines) (n + 1)) (closing :: us) [] (closing :: us) :=
      Reads.instructions_stop hc
    rw [← hc]
    exact hstop.leaves
  rw [block]
  refine LeavesIf.eat_bind hopening (hinner.bind_of_kinds fun inner us hus => ?_)
  obtain ⟨closing, us, rfl, hc, rfl⟩ := List.map_eq_cons_iff.1 hus
  exact LeavesIf.eat_bind hc (LeavesIf.pure rfl)

/-- A function without parameters. -/
theorem leaves_function {name opening closing : Token} (hname : name.kind = .id)
    (hopening : opening.kind = .leftParen) (hclosing : closing.kind = .rightParen)
    (h : Leaves (block (some lines) n) ts (if b then some K else none)) :
    Leaves (function (some lines) n) (name :: opening :: closing :: ts)
      (if b then some K else none) := by
  rw [function]
  exact LeavesIf.eat_bind hname
    (LeavesIf.reads_bind (Reads.signature_empty hopening hclosing) (Leaves.map h))

/-- A program with one function. -/
theorem leaves_program_of_function {name : Token} (hname : name.kind = .id)
    (h : Leaves (function (some lines) (n + 1)) (name :: ts) (if b then some [.eof] else none)) :
    Leaves (program (some lines) (n + 2)) (name :: ts) (if b then some [] else none) := by
  have hinner : Leaves (functions (some lines) (n + 2)) (name :: ts)
      (if b then some [.eof] else none) := by
    rw [functions]
    refine LeavesIf.peek_bind ?_
    rw [Token.kinds_cons, next_cons, if_pos hname]
    refine h.bind_of_kinds fun function us hus => Leaves.map ?_
    rw [← hus]
    refine (Reads.functions_stop ?_).leaves
    rw [Token.next_eq_next_kinds, hus]
    rintro ⟨⟩
  rw [program]
  refine hinner.bind_of_kinds fun inner us hus => ?_
  obtain ⟨last, us, rfl, hlast, hus⟩ := List.map_eq_cons_iff.1 hus
  rw [← hus]
  exact LeavesIf.eat_bind hlast (LeavesIf.pure rfl)

/-- A program with one condition is read to its end just where the condition is safe. -/
theorem leaves_program {c : Clause}
    (hts : kinds ts = .id :: .leftParen :: .rightParen :: .leftBrace :: .if ::
      (c.kinds ++ [.leftBrace, .rightBrace, .rightBrace, .eof])) :
    Leaves (program (some lines) (ParseTree.fuelFor ts)) ts (if c.safe false then some []
      else none) := by
  obtain ⟨name, ts, rfl, hname, hts⟩ := List.map_eq_cons_iff.1 hts
  obtain ⟨opening, ts, rfl, hopening, hts⟩ := List.map_eq_cons_iff.1 hts
  obtain ⟨closing, ts, rfl, hclosing, hts⟩ := List.map_eq_cons_iff.1 hts
  obtain ⟨brace, ts, rfl, hbrace, hts⟩ := List.map_eq_cons_iff.1 hts
  obtain ⟨keyword, ts, rfl, hkeyword, hts⟩ := List.map_eq_cons_iff.1 hts
  have hfuel : ParseTree.fuelFor (name :: opening :: closing :: brace :: keyword :: ts) =
      (8 * ts.length + 50) + 6 := by
    simp only [ParseTree.fuelFor, List.length_cons]
    omega
  rw [hfuel]
  refine leaves_program_of_function hname (leaves_function hname hopening hclosing ?_)
  refine leaves_block hbrace (by rw [hkeyword]; decide) ?_
  exact leaves_ifInstruction hkeyword hts (by decide) (by omega)

/-- Whether a parse gives a result at all. -/
theorem Leaves.isOk_iff {p : Parse α} (h : Leaves p ts (if b then some K else none))
    (reports : List String) : (∃ a, (p.run.run ⟨ts, reports⟩).1 = .ok a) ↔ b = true := by
  have h := h reports
  generalize p.run.run ⟨ts, reports⟩ = run at h ⊢
  obtain ⟨_ | a, r⟩ := run
  · constructor
    · rintro ⟨a, ⟨⟩⟩
    · rintro rfl
      cases h
  · constructor
    · intro _
      cases b with
      | false => cases h
      | true => rfl
    · intro _
      exact ⟨a, rfl⟩

end Parse

namespace ParseTree

/-- Let a text be a plain writing of a condition.  The source with nothing but that condition and an
empty block is parsed if and only if, within parentheses, no comparison of the condition has an
expression in parentheses as its left side and a sign at the beginning of its right side. -/
theorem ofText_conditionSource {text : String} {c : Clause}
    (htext : Written true c.kinds text.toList) :
    (∃ t, (ofText (conditionSource text) true).result = .ok t) ↔ c.safe false = true := by
  have hkinds : kinds (Token.tokens text) = c.kinds ++ [.eof] := by
    rw [Token.kinds_tokens, htext.kinds_lexemes]
  have hleaves : Leaves (Parse.program (some (Text.lines (conditionSource text)))
      (fuelFor (Token.tokens (conditionSource text)))) (Token.tokens (conditionSource text))
      (if c.safe false then some [] else none) :=
      leaves_program (Token.kinds_conditionSource hkinds)
  exact hleaves.isOk_iff []

/-- The condition that fails within parentheses, without them; next to it, within parentheses, one
that differs from it by a factor on the left. -/
def factorSample : Clause :=
  let x : Phrase := .group (.leaf .sym rfl)
  let y : Phrase := .signed .minus rfl (.leaf .sym rfl)
  .join (.compare x .eq rfl y) .and rfl
    (.group (.join (.compare (.binary x .times rfl (.leaf .nat rfl)) .eq rfl y) .or rfl
      (.negation (.group (.truth .true rfl)))))

theorem ofText_conditionSource_factorSample :
    Written true factorSample.kinds "(x)==-y and ((x)*1==-y or !(true))".toList ∧
      factorSample.safe false = true ∧
      ∃ t, (ofText (conditionSource "(x)==-y and ((x)*1==-y or !(true))") true).result = .ok t := by
  have htext : Written true factorSample.kinds "(x)==-y and ((x)*1==-y or !(true))".toList := by
    refine .step '(' [] (.operator (by decide)) rfl (by decide) ?_
    refine .step 'x' [] (.symbol rfl) rfl (by decide) ?_
    refine .step ')' [] (.operator (by decide)) rfl (by decide) ?_
    refine .step '=' ['='] (.operator (by decide)) rfl (by decide) ?_
    refine .step '-' [] (.operator (by decide)) rfl (by decide) ?_
    refine .step 'y' [] (.symbol rfl) rfl (by decide) ?_
    refine .blank rfl rfl (.step 'a' ['n', 'd'] (.keyword (by decide)) rfl (by decide) ?_)
    refine .blank rfl rfl (.step '(' [] (.operator (by decide)) rfl (by decide) ?_)
    refine .step '(' [] (.operator (by decide)) rfl (by decide) ?_
    refine .step 'x' [] (.symbol rfl) rfl (by decide) ?_
    refine .step ')' [] (.operator (by decide)) rfl (by decide) ?_
    refine .step '*' [] (.operator (by decide)) rfl (by decide) ?_
    refine .step '1' [] (.number (List.forall_mem_singleton.2 rfl)) rfl (by decide) ?_
    refine .step '=' ['='] (.operator (by decide)) rfl (by decide) ?_
    refine .step '-' [] (.operator (by decide)) rfl (by decide) ?_
    refine .step 'y' [] (.symbol rfl) rfl (by decide) ?_
    refine .blank rfl rfl (.step 'o' ['r'] (.keyword (by decide)) rfl (by decide) ?_)
    refine .blank rfl rfl (.step '!' [] (.operator (by decide)) rfl (by decide) ?_)
    refine .step '(' [] (.operator (by decide)) rfl (by decide) ?_
    refine .step 't' ['r', 'u', 'e'] (.keyword (by decide)) rfl (by decide) ?_
    refine .step ')' [] (.operator (by decide)) rfl (by decide) ?_
    refine .step ')' [] (.operator (by decide)) rfl (by decide) ?_
    exact .nil
  exact ⟨htext, rfl, (ofText_conditionSource htext).2 rfl⟩

/-- The comparison of two symbols. -/
def symbolsCompared : Clause := .compare (.leaf .sym rfl) .eq rfl (.leaf .sym rfl)

theorem written_signedRight : Written true (Clause.group (.compare (.group (.leaf .sym rfl)) .eq rfl
    (.signed .minus rfl (.leaf .sym rfl)))).kinds "((x)==-y)".toList := by
  refine .step '(' [] (.operator (by decide)) rfl (by decide) ?_
  refine .step '(' [] (.operator (by decide)) rfl (by decide) ?_
  refine .step 'x' [] (.symbol rfl) rfl (by decide) ?_
  refine .step ')' [] (.operator (by decide)) rfl (by decide) ?_
  refine .step '=' ['='] (.operator (by decide)) rfl (by decide) ?_
  refine .step '-' [] (.operator (by decide)) rfl (by decide) ?_
  refine .step 'y' [] (.symbol rfl) rfl (by decide) ?_
  exact .step ')' [] (.operator (by decide)) rfl (by decide) .nil

/-- A comparison with a decimal, which the scan does not know, as the grammar allows it. -/
theorem written_decimal :
    Written false (Clause.compare (.leaf .nat rfl) .eq rfl (.leaf .sym rfl)).kinds
    "1.5==x".toList := by
  have hone : ∀ x ∈ ['1'], x.isDigit = true := List.forall_mem_singleton.2 rfl
  have hfive : ∀ x ∈ ['5'], x.isDigit = true := List.forall_mem_singleton.2 rfl
  refine .step '1' ['.', '5'] (.decimal hone hfive) rfl (by rintro ⟨⟩) ?_
  refine .step '=' ['='] (.operator (by decide)) rfl (by rintro ⟨⟩) ?_
  exact .step 'x' [] (.symbol rfl) rfl (by rintro ⟨⟩) .nil

/-- A comparison with a comment behind it, as the grammar allows it. -/
theorem written_comment : Written false symbolsCompared.kinds "x==y/*z*/".toList := by
  refine .step 'x' [] (.symbol rfl) rfl (by rintro ⟨⟩) ?_
  refine .step '=' ['='] (.operator (by decide)) rfl (by rintro ⟨⟩) ?_
  refine .step 'y' [] (.symbol rfl) rfl (by rintro ⟨⟩) ?_
  have hend : ¬ ['*', '/'] <:+: ['z'] ++ ['*'] := by decide
  have hcomment : Spacing ('/' :: '*' :: (['z'] ++ ['*', '/'])) := .block hend
  have hcomplete : Complete ('/' :: '*' :: (['z'] ++ ['*', '/'])) [] := by
    rintro n hn ⟨more, hmore⟩
    exact absurd (List.append_eq_nil_iff.1 hmore).1 hn
  exact .space hcomment hcomplete (by rintro ⟨⟩) .nil

/-- A letter with a word right behind it, as the grammar allows it. -/
theorem written_letters : Written false (symbolsCompared.join .or rfl (.truth .true rfl)).kinds
    "x==yor true".toList := by
  refine .step 'x' [] (.symbol rfl) rfl (by rintro ⟨⟩) ?_
  refine .step '=' ['='] (.operator (by decide)) rfl (by rintro ⟨⟩) ?_
  have hcomplete {rest : List Char} : Complete ['y'] rest := complete_of_isLower rfl (by decide)
  refine Written.token (m := ['y']) (.symbol rfl) hcomplete (by rintro ⟨⟩) ?_
  refine .step 'o' ['r'] (.keyword (by decide)) rfl (by rintro ⟨⟩) (.blank rfl rfl ?_)
  exact .step 't' ['r', 'u', 'e'] (.keyword (by decide)) rfl (by rintro ⟨⟩) .nil

/-- Conditions of the grammar that are refused.  The first is a comparison in parentheses: the
parser takes the first closing parenthesis for the operator and the second one for the end of the
inner parenthesis. The others are not plain: a decimal part, a comment, and a word right after a
symbol. -/
theorem not_isOk_ofText_written :
    (∃ c : Clause, Written true c.kinds "((x)==-y)".toList) ∧
      (ofText (conditionSource "((x)==-y)") true).result.isOk = false ∧
      (ofText (conditionSource "((x)==-y)") true).reports =
        ["Detected by Parser - At line 1, column 14 in Parser:\n" ++
          "Main()\x7bif ((x)==-y) \x7b\x7d\x7d\n             ^\nexpected 2 got =="] ∧
      ∀ text ∈ ["1.5==x", "x==y/*z*/", "x==yor true"],
        (∃ c : Clause, c.safe false = true ∧ Written false c.kinds text.toList) ∧
          (ofText (conditionSource text) true).result.isOk = false := by
  refine ⟨⟨_, written_signedRight⟩, by decide +kernel, by decide +kernel, ?_⟩
  refine List.forall_mem_cons.2 ⟨⟨⟨_, rfl, written_decimal⟩, by decide +kernel⟩, ?_⟩
  refine List.forall_mem_cons.2 ⟨⟨⟨_, rfl, written_comment⟩, by decide +kernel⟩, ?_⟩
  exact List.forall_mem_singleton.2 ⟨⟨_, rfl, written_letters⟩, by decide +kernel⟩

end ParseTree

end SymScript
