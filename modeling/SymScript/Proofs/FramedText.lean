import SymScript.Proofs.Depth
import SymScript.Proofs.Lexemes
import SymScript.Proofs.ParsingEnds
import SymScript.Proofs.RoundTrip
import SymScript.Proofs.Terminals

/-!
# What is read of a framed text

A text is converted to an expression inside a frame, and the parse of the frame has no watch. So any
token is taken for the closing brace and any other one for the end, and what was read as further
instructions or functions is dropped with what was not read at all. The main statement gives the
tree of every framed text that is converted, with an account of all its tokens, and says exactly
when the expression is all of the text: when nothing was dropped, and the text does not begin with
an equals sign, which joins the one of the frame.
-/

namespace SymScript

/-! ### Taking a run apart -/

namespace Parse

open ParseTree

variable {α β : Type} {ts us vs : List Token}

/-- From `ts` on the parse gives `a` and leaves `us`. -/
def Yields (p : Parse α) (ts : List Token) (a : α) (us : List Token) : Prop :=
  ∃ reports reports', p.run.run ⟨ts, reports⟩ = (.ok a, ⟨us, reports'⟩)

namespace Yields

/-- A run of two parses is a run of each. -/
theorem bind_inv {p : Parse α} {f : α → Parse β} {b : β} (h : Yields (p >>= f) ts b vs) :
    ∃ a us, Yields p ts a us ∧ Yields (f a) us b vs := by
  obtain ⟨reports, reports', h⟩ := h
  rw [ExceptT.run_bind, StateT.run_bind] at h
  cases hrun : p.run.run ⟨ts, reports⟩ with
  | mk result middle =>
    rw [hrun] at h
    cases result with
    | error stop => cases h
    | ok a => exact ⟨a, middle.rest, ⟨reports, middle.reports, hrun⟩, middle.reports, reports', h⟩

/-- A parse that gives a value gives it and takes nothing. -/
theorem pure_inv {a b : α} (h : Yields (pure a) ts b us) : b = a ∧ us = ts := by
  obtain ⟨reports, reports', h⟩ := h
  cases h
  exact ⟨rfl, rfl⟩

/-- Looking ahead gives the kind of the first token. -/
theorem peek_inv {f : TokenKind → Parse β} {b : β} (h : Yields (peek >>= f) ts b us) :
    Yields (f (Token.next ts)) ts b us := h

/-- Without a watch any token is eaten. -/
theorem eat_inv {kind : TokenKind} {a : ParseTree} (h : Yields (eat none kind) ts a us) :
    ∃ t, ts = t :: us ∧ a = .leaf t := by
  obtain ⟨reports, reports', h⟩ := h
  cases ts with
  | nil => cases h
  | cons t ts =>
    cases h
    exact ⟨t, rfl, rfl⟩

/-- What a parse takes is the front of the tokens. -/
theorem takes {p : Parse α} {P : α → List Token → Prop} {a : α} (h : Yields p ts a us)
    (hp : Takes p P) : ∃ taken, ts = taken ++ us ∧ P a taken := by
  obtain ⟨reports, reports', h⟩ := h
  exact hp h

end Yields

/-- A parse that takes tokens whenever it ends has taken some. -/
theorem Yields.length_lt {p : Parse α} {a : α} {k : Nat} (h : Yields p ts a us)
    (hp : Settles k p p ts) : us.length < k := by
  obtain ⟨reports, reports', h⟩ := h
  have hended := (hp reports).2
  rw [h] at hended
  exact hended

/-- Instructions in a row have the tokens that were taken, and none only if there is none. -/
theorem Yields.instructions_inv {n : Nat} {is : List ParseTree}
    (h : Yields (instructions none n) ts is us) (hn : 4 * ts.length + 6 ≤ n) :
    ts = terminalsAll is ++ us ∧ (terminalsAll is = [] → is = []) := by
  obtain ⟨taken, hts, rfl⟩ := h.takes (collectsInstructions none n).instructions
  refine ⟨hts, fun hnil => ?_⟩
  obtain ⟨n, rfl⟩ : ∃ m, n = m + 1 := ⟨n - 1, by omega⟩
  rw [instructions] at h
  replace h := h.peek_inv
  split at h
  · exact h.pure_inv.1
  · obtain ⟨first, vs, hfirst, h⟩ := h.bind_inv
    obtain ⟨rest, ws, hrest, h⟩ := h.bind_inv
    obtain ⟨-, rfl⟩ := h.pure_inv
    have hlt := hfirst.length_lt ((settlesInstructions none n n).instruction (by omega))
    have hle := hrest.length_lt ((settlesInstructions none n n).instructions (by omega))
    rw [hnil, List.nil_append] at hts
    rw [hts] at hlt
    omega

/-- Functions in a row have the tokens that were taken, and none only if there is none. -/
theorem Yields.functions_inv {n : Nat} {fs : List ParseTree}
    (h : Yields (functions none n) ts fs us) (hn : 4 * ts.length + 1 ≤ n) :
    ts = terminalsAll fs ++ us ∧ (terminalsAll fs = [] → fs = []) := by
  obtain ⟨taken, hts, rfl⟩ := h.takes (collects_functions none n)
  refine ⟨hts, fun hnil => ?_⟩
  obtain ⟨n, rfl⟩ : ∃ m, n = m + 1 := ⟨n - 1, by omega⟩
  rw [functions] at h
  replace h := h.peek_inv
  split at h
  · obtain ⟨first, vs, hfirst, h⟩ := h.bind_inv
    obtain ⟨rest, ws, hrest, h⟩ := h.bind_inv
    obtain ⟨-, rfl⟩ := h.pure_inv
    have hlt := hfirst.length_lt (settles_function (by omega))
    have hle := hrest.length_lt (settles_functions (by omega))
    rw [hnil, List.nil_append] at hts
    rw [hts] at hlt
    omega
  · exact h.pure_inv.1

/-- An instruction that begins with a name is an assignment. -/
theorem Yields.assignment_inv {n : Nat} {name sign : Token} {t : ParseTree}
    (hname : name.kind = .id) (h : Yields (instruction none (n + 1)) (name :: sign :: ts) t us) :
    ∃ value, t = .node .instruction [.leaf name, .leaf sign, value] ∧
      ts = value.terminals ++ us := by
  rw [instruction] at h
  replace h := h.peek_inv
  rw [Token.next_cons, hname] at h
  obtain ⟨_, vs, heat, h⟩ := h.bind_inv
  obtain ⟨_, hts, rfl⟩ := heat.eat_inv
  cases hts
  obtain ⟨_, vs, heat, h⟩ := h.bind_inv
  obtain ⟨_, hts, rfl⟩ := heat.eat_inv
  cases hts
  obtain ⟨value, vs, hvalue, h⟩ := h.bind_inv
  obtain ⟨rfl, rfl⟩ := h.pure_inv
  obtain ⟨taken, hts, rfl⟩ := hvalue.takes (collectsExpressions none n).expression
  exact ⟨value, rfl, hts⟩

/-- A block is its instructions between two braces. -/
theorem Yields.block_inv {n : Nat} {left : Token} {t : ParseTree}
    (h : Yields (block none (n + 1)) (left :: ts) t us) :
    ∃ is right, t = .node .block (.leaf left :: is ++ [.leaf right]) ∧
      Yields (instructions none n) ts is (right :: us) := by
  rw [block] at h
  obtain ⟨_, vs, heat, h⟩ := h.bind_inv
  obtain ⟨_, hts, rfl⟩ := heat.eat_inv
  cases hts
  obtain ⟨is, vs, his, h⟩ := h.bind_inv
  obtain ⟨_, ws, heat, h⟩ := h.bind_inv
  obtain ⟨right, rfl, rfl⟩ := heat.eat_inv
  obtain ⟨rfl, rfl⟩ := h.pure_inv
  exact ⟨is, right, rfl, his⟩

/-- A function without parameters. -/
theorem Yields.function_inv {n : Nat} {main opening closing : Token} {t : ParseTree}
    (hclosing : closing.kind = .rightParen)
    (h : Yields (function none n) (main :: opening :: closing :: ts) t us) :
    ∃ body, t = .node .function [.leaf main, .leaf opening, .leaf closing, body] ∧
      Yields (block none n) ts body us := by
  rw [function] at h
  obtain ⟨_, vs, heat, h⟩ := h.bind_inv
  obtain ⟨_, hts, rfl⟩ := heat.eat_inv
  cases hts
  obtain ⟨inner, vs, hinner, hbody⟩ := h.bind_inv
  rw [signature] at hinner
  obtain ⟨_, ws, heat, hinner⟩ := hinner.bind_inv
  obtain ⟨_, hts, rfl⟩ := heat.eat_inv
  cases hts
  replace hinner := hinner.peek_inv
  rw [Token.next_cons, hclosing, if_neg (by decide)] at hinner
  obtain ⟨_, ws, heat, hinner⟩ := hinner.bind_inv
  obtain ⟨_, hts, rfl⟩ := heat.eat_inv
  cases hts
  obtain ⟨rfl, rfl⟩ := hinner.pure_inv
  obtain ⟨body, ws, hblock, hbody⟩ := hbody.bind_inv
  obtain ⟨rfl, rfl⟩ := hbody.pure_inv
  exact ⟨body, rfl, hblock⟩

end Parse

namespace Ast

open ParseTree Parse Token

/-! ### The tree of a framed text -/

/-- The parts of the tree of a framed text. Of what follows the expression some may have been read
as further instructions and some as further functions, and any token may stand in the place of the
closing brace or of the end. -/
structure FramedTree where
  main : Token
  opening : Token
  closing : Token
  left : Token
  name : Token
  sign : Token
  value : ParseTree
  instructions : List ParseTree
  right : Token
  functions : List ParseTree
  last : Token

namespace FramedTree

variable (x : FramedTree)

def instruction : ParseTree := .node .instruction [.leaf x.name, .leaf x.sign, x.value]

def block : ParseTree :=
  .node .block (.leaf x.left :: (x.instruction :: x.instructions) ++ [.leaf x.right])

def function : ParseTree :=
  .node .function [.leaf x.main, .leaf x.opening, .leaf x.closing, x.block]

def tree : ParseTree := .node .program ((x.function :: x.functions) ++ [.leaf x.last])

/-- The tokens up to the sign of the assignment. -/
def header : List Token := [x.main, x.opening, x.closing, x.left, x.name, x.sign]

/-- The tokens after those of the expression. -/
def after : List Token :=
  terminalsAll x.instructions ++ x.right :: (terminalsAll x.functions ++ [x.last])

/-- The tokens of the tree are the header, the value and what follows it. -/
theorem terminals_tree : x.tree.terminals = x.header ++ x.value.terminals ++ x.after := by
  simp [tree, function, block, instruction, header, after, terminals, terminalsAll,
    terminalsAll_append]

end FramedTree

/-- The expression of the first assignment of the first function, as a tree. -/
def firstValue : ParseTree → Option ParseTree
  | .node .program
    (.node .function [_, _, _, .node .block (_ :: .node .instruction [_, _, value] :: _)] :: _) =>
    some value
  | _ => none

/-- The tree that is read when the first tokens are those of the frame. -/
theorem exists_framedTree {main opening closing left name sign : Token}
    {ts us : List Token} {n : Nat}
    {t : ParseTree} (hmain : main.kind = .id) (hclosing : closing.kind = .rightParen)
    (hname : name.kind = .id) (hn : 4 * ts.length + 12 ≤ n)
    (h : Yields (Parse.program none n) (main :: opening :: closing :: left :: name ::
      sign :: ts) t us) :
    ∃ x : FramedTree, t = x.tree ∧ x.header = [main, opening, closing, left, name, sign] ∧
      ts = x.value.terminals ++ x.after ++ us ∧
        (terminalsAll x.instructions = [] → x.instructions = []) ∧
      (terminalsAll x.functions = [] → x.functions = []) := by
  obtain ⟨n, rfl⟩ : ∃ m, n = m + 4 := ⟨n - 4, by omega⟩
  obtain ⟨fs, vs, hfs, h⟩ := h.bind_inv
  obtain ⟨_, ws, heat, h⟩ := h.bind_inv
  obtain ⟨last, rfl, rfl⟩ := heat.eat_inv
  obtain ⟨rfl, rfl⟩ := h.pure_inv
  rw [Parse.functions] at hfs
  replace hfs := hfs.peek_inv
  rw [next_cons, if_pos hmain] at hfs
  obtain ⟨first, vs, hfirst, hfs⟩ := hfs.bind_inv
  obtain ⟨functions, ws, hfunctions, hfs⟩ := hfs.bind_inv
  obtain ⟨rfl, rfl⟩ := hfs.pure_inv
  obtain ⟨body, rfl, hbody⟩ := hfirst.function_inv hclosing
  obtain ⟨is, right, rfl, his⟩ := hbody.block_inv
  rw [Parse.instructions] at his
  replace his := his.peek_inv
  rw [next_cons, hname, if_neg (by decide)] at his
  obtain ⟨_, ws, hassignment, his⟩ := his.bind_inv
  obtain ⟨instructions, xs, hinstructions, his⟩ := his.bind_inv
  obtain ⟨rfl, rfl⟩ := his.pure_inv
  obtain ⟨value, rfl, rfl⟩ := hassignment.assignment_inv hname
  rw [List.length_append] at hn
  obtain ⟨rfl, hnoinstructions⟩ := hinstructions.instructions_inv (by omega)
  simp only [List.length_append, List.length_cons] at hn
  obtain ⟨rfl, hnofunctions⟩ := hfunctions.functions_inv (by omega)
  refine ⟨⟨main, opening, closing, left, name, sign, value, instructions, right, functions, last⟩,
    rfl, rfl, ?_, hnoinstructions, hnofunctions⟩
  simp [FramedTree.after]

/-! ### The expression that is taken out of the tree -/

theorem child_eq_ok {m : Meaning} {e : Ast} (h : m.child = .ok e) : m = .node e := by
  cases m with
  | node t =>
    cases h
    rfl
  | _ => cases h

theorem dropLast_meanings (ts : List ParseTree) (u : ParseTree) :
    (meanings (ts ++ [u])).dropLast = meanings ts := by
  induction ts with
  | nil => rfl
  | cons t ts ih =>
    cases ts with
    | nil => rfl
    | cons t' ts => exact congrArg (meaning t :: ·) ih

/-- The first of the nodes that a row of trees stands for. -/
theorem meaning_of_mapM {t : ParseTree} {ts : List ParseTree} {ms : List Meaning} {a : Ast}
    {as : List Ast}
    (hms : (meanings (t :: ts)).mapM (fun m => m) = .ok ms)
    (has : ms.mapM Meaning.child = .ok (a :: as)) : meaning t = .ok (.node a) := by
  cases mapM_eq_ok_iff.1 hms with
  | cons hm _ =>
    cases mapM_eq_ok_iff.1 has with
    | cons ha _ => rw [hm, child_eq_ok ha]

/-- The meaning of a program gives that of its first function. -/
theorem meaning_of_program {t u : ParseTree} {ts : List ParseTree} {a : Ast} {as : List Ast}
    (h : meaning (.node .program (t :: ts ++ [u])) = .ok (.node (.program (a :: as)))) :
    meaning t = .ok (.node a) := by
  rw [meaning, meaningOf, dropLast_meanings] at h
  obtain ⟨ms, hms, h⟩ := bind_eq_ok h
  obtain ⟨bs, hbs, h⟩ := bind_eq_ok h
  cases h
  exact meaning_of_mapM hms hbs

/-- The meaning of a block gives that of its first instruction. -/
theorem meaning_of_block {t l u : ParseTree} {ts : List ParseTree} {a : Ast} {as : List Ast}
    (h : meaning (.node .block (l :: (t :: ts) ++ [u])) = .ok (.node (.block (a :: as)))) :
    meaning t = .ok (.node a) := by
  have hdrop : ((meanings (l :: (t :: ts) ++ [u])).drop 1).dropLast = meanings (t :: ts) :=
    dropLast_meanings (t :: ts) u
  rw [meaning, meaningOf, hdrop] at h
  split at h
  · cases h
  · obtain ⟨ms, hms, h⟩ := bind_eq_ok h
    obtain ⟨bs, hbs, h⟩ := bind_eq_ok h
    cases h
    exact meaning_of_mapM hms hbs

namespace FramedTree

variable {x : FramedTree} {e : Ast}

/-- The meaning of the function gives that of its block. -/
theorem meaning_of_function {n : String} {b : Ast} {ps : List String}
    (h : meaning x.function = .ok (.node (.function n ps b))) :
    meaning x.block = .ok (.node b) := by
  have hmeaning : meaning x.function = Meaning.node <$> (do
    let main ← terminal x.main
    let body ← meaning x.block
    return .function (← main.value) [] (← body.child)) := rfl
  rw [hmeaning] at h
  obtain ⟨f, hf, h⟩ := bind_eq_ok h
  cases h
  obtain ⟨main, -, hf⟩ := bind_eq_ok hf
  obtain ⟨body, hbody, hf⟩ := bind_eq_ok hf
  obtain ⟨n, -, hf⟩ := bind_eq_ok hf
  obtain ⟨b, hb, hf⟩ := bind_eq_ok hf
  cases hf
  rw [hbody, child_eq_ok hb]

/-- The meaning of the assignment gives that of its value. -/
theorem meaning_of_instruction {n : String} (hname : x.name.text = "A")
    (h : meaning x.instruction = .ok (.node (.assign n e))) : meaning x.value = .ok (.node e) := by
  have htext : (ParseTree.leaf x.name).text = "A" := by
    rw [ParseTree.text, terminals_leaf, List.map_singleton, hname]
    rfl
  have hmeaning : meaning x.instruction = Meaning.node <$> instructionOf
    (ParseTree.leaf x.name).text [terminal x.name, terminal x.sign, meaning x.value] := rfl
  rw [hmeaning, htext] at h
  obtain ⟨i, hi, h⟩ := bind_eq_ok h
  cases h
  change (do
    let name ← terminal x.name
    let value ← meaning x.value
    return Ast.assign (← name.value) (← value.child)) = _ at hi
  obtain ⟨name, -, hi⟩ := bind_eq_ok hi
  obtain ⟨value, hvalue, hi⟩ := bind_eq_ok hi
  obtain ⟨n, -, hi⟩ := bind_eq_ok hi
  obtain ⟨e, he, hi⟩ := bind_eq_ok hi
  cases hi
  rw [hvalue, child_eq_ok he]

/-- The expression that a framed text gives is the one of its tree. -/
theorem meaning_value (hname : x.name.text = "A")
    (h : (do firstExpression (← ofParseTree x.tree)) = .ok e) :
    meaning x.value = .ok (.node e) := by
  obtain ⟨p, hp, h⟩ := bind_eq_ok h
  obtain ⟨m, hm, hp⟩ := bind_eq_ok hp
  rw [child_eq_ok hp] at hm
  unfold firstExpression at h
  split at h
  · cases h
    exact meaning_of_instruction hname
      (meaning_of_block (meaning_of_function (meaning_of_program hm)))
  · cases h

end FramedTree

/-! ### The tokens of a framed text -/

/-- A single equality sign is an assignment. -/
theorem lexemes_assign {cs : List Char} (h : cs.head? ≠ some '=') :
    lexemes ('=' :: cs) = (.assign, "=") :: lexemes cs := by
  have hlength : matchLength ('=' :: cs) = 1 := by
    rw [matchLength_operator rfl rfl rfl, if_neg fun hlong => h hlong.2]
    rfl
  rw [lexemes_match rfl hlength]
  rfl

/-- A double equality sign is a comparison. -/
theorem lexemes_equal (cs : List Char) :
    lexemes ('=' :: '=' :: cs) = (.eq, "==") :: lexemes cs := by
  rw [lexemes_match rfl (show matchLength ('=' :: '=' :: cs) = 1 + 1 from rfl)]
  rfl

theorem lexemes_eq_words (cs : List Char) : lexemes cs = words cs ++ [(.eof, "<EOF>")] :=
  (endsMatches_brace.lexemes_append cs).1

theorem words_assign {cs : List Char} (h : cs.head? ≠ some '=') :
    words ('=' :: cs) = (.assign, "=") :: words cs := by
  rw [words, lexemes_assign h, lexemes_eq_words, ← List.cons_append, List.dropLast_concat]

theorem words_equal (cs : List Char) : words ('=' :: '=' :: cs) = (.eq, "==") :: words cs := by
  rw [words, lexemes_equal, lexemes_eq_words, ← List.cons_append, List.dropLast_concat]

/-- A text that begins with an equals sign is not a beginning of what follows the sign. -/
theorem not_isPrefix_words (cs : List Char) : ¬words ('=' :: cs) <+: words cs := by
  induction hl : cs.length using Nat.strongRecOn generalizing cs with
  | ind l ih =>
    intro h
    by_cases hcs : cs.head? = some '='
    · -- signs are matched in pairs from the left, so the two rows differ where the last pair is
      obtain ⟨ds, rfl⟩ := List.head?_eq_some_iff.1 hcs
      rw [words_equal] at h
      by_cases hds : ds.head? = some '='
      · obtain ⟨es, rfl⟩ := List.head?_eq_some_iff.1 hds
        rw [words_equal, List.cons_prefix_cons] at h
        exact ih es.length (by rw [← hl, List.length_cons, List.length_cons]; omega) es rfl h.2
      · rw [words_assign hds, List.cons_prefix_cons] at h
        exact absurd h.1 (by decide)
    · rw [words_assign hcs] at h
      have hle := h.length_le
      rw [List.length_cons] at hle
      omega

/-- What the frame puts before the sign of its assignment. -/
def opened : List (TokenKind × String) :=
  [(.id, "Main"), (.leftParen, "("), (.rightParen, ")"), (.leftBrace, "\x7b"), (.id, "A")]

/-- What the frame puts after the text. -/
def closed : List (TokenKind × String) := [(.rightBrace, "\x7d"), (.eof, "<EOF>")]

/-- The front of the frame is always scanned to the same lexemes. -/
theorem lexemes_opened (cs : List Char) :
    lexemes ("Main()\x7bA".toList ++ '=' :: cs) = opened ++ lexemes ('=' :: cs) := by
  have hmain : matchLength ("Main()\x7bA".toList ++ '=' :: cs) = 4 := rfl
  have hname : matchLength ('A' :: '=' :: cs) = 1 := rfl
  have hlexemes : lexemes ("Main()\x7bA".toList ++ '=' :: cs) =
      matchLexeme ['M', 'a', 'i', 'n'] :: lexemes ('(' :: ')' :: '\x7b' :: 'A' :: '=' :: cs) :=
    lexemes_match rfl hmain
  have hwords : matchLexeme ['M', 'a', 'i', 'n'] = (.id, "Main") ∧ matchLexeme ['A'] = (.id, "A") :=
    ⟨rfl, rfl⟩
  rw [hlexemes, lexemes_mark (by decide), lexemes_mark (by decide), lexemes_mark (by decide),
    lexemes_match rfl hname, List.take_zero, List.drop_zero, hwords.1, hwords.2]
  rfl

/-- In its frame a text has the tokens that it has alone, unless it begins with an equals sign: that
one joins the sign of the frame. -/
theorem lexemes_frame (text : String) : ∃ sign read,
    lexemes (frame text).toList = opened ++ sign :: (words read ++ closed) ∧
      (text.toList.head? ≠ some '=' ∧ read = text.toList ∨ text.toList = '=' :: read) := by
  have htext : (frame text).toList = "Main()\x7bA".toList ++ '=' :: (text.toList ++ ['\x7d']) := by
    simp [frame]
  have hclosed (cs : List Char) : lexemes (cs ++ ['\x7d']) = words cs ++ closed := by
    rw [(endsMatches_brace.lexemes_append cs).2, lexemes_mark (by decide), lexemes_nil]
    rfl
  rw [htext, lexemes_opened]
  by_cases hequals : text.toList.head? = some '='
  · obtain ⟨cs, hcs⟩ := List.head?_eq_some_iff.1 hequals
    refine ⟨(.eq, "=="), cs, ?_, .inr hcs⟩
    rw [hcs, List.cons_append, lexemes_equal, hclosed]
  · refine ⟨(.assign, "="), text.toList, ?_, .inl ⟨hequals, rfl⟩⟩
    rw [lexemes_assign, hclosed]
    cases hcs : text.toList with
    | nil => rintro ⟨⟩
    | cons c cs => rwa [hcs] at hequals

/-! ### Conversion -/

/-- The tree of a framed text whose parse gives one, with the tokens that it leaves. -/
theorem exists_ofText_frame {text : String} {t : ParseTree}
    (h : (ParseTree.ofText (frame text) false).result = .ok t) :
    ∃ (x : FramedTree) (unread : List Token), t = x.tree ∧
      tokens (frame text) = x.header ++ (x.value.terminals ++ x.after ++ unread) ∧
        x.name.text = "A" ∧
      (terminalsAll x.instructions = [] → x.instructions = []) ∧
      (terminalsAll x.functions = [] → x.functions = []) := by
  let run :=
    (Parse.program none (fuelFor (tokens (frame text)))).run.run { rest := tokens (frame text) }
  have hyields : Yields (Parse.program none (fuelFor (tokens (frame text)))) (tokens (frame text)) t
      run.2.rest := ⟨[], run.2.reports, Prod.ext h rfl⟩
  generalize run.2.rest = unread at hyields
  obtain ⟨sign, read, hlexemes, -⟩ := lexemes_frame text
  change (tokens (frame text)).map lexeme = _ at hlexemes
  generalize tokens (frame text) = ts at hlexemes hyields ⊢
  obtain ⟨main, ts, rfl, hmain, hlexemes⟩ := List.map_eq_cons_iff.1 hlexemes
  obtain ⟨opening, ts, rfl, -, hlexemes⟩ := List.map_eq_cons_iff.1 hlexemes
  obtain ⟨closing, ts, rfl, hclosing, hlexemes⟩ := List.map_eq_cons_iff.1 hlexemes
  obtain ⟨left, ts, rfl, -, hlexemes⟩ := List.map_eq_cons_iff.1 hlexemes
  obtain ⟨name, ts, rfl, hname, hlexemes⟩ := List.map_eq_cons_iff.1 hlexemes
  obtain ⟨sign, ts, rfl, -, -⟩ := List.map_eq_cons_iff.1 hlexemes
  obtain ⟨x, rfl, hheader, rfl, hinstructions, hfunctions⟩ := exists_framedTree
    (congrArg Prod.fst hmain) (congrArg Prod.fst hclosing) (congrArg Prod.fst hname)
    (by simp only [fuelFor, List.length_cons]; omega) hyields
  refine ⟨x, unread, rfl, by rw [hheader]; rfl, ?_, hinstructions, hfunctions⟩
  cases hheader
  exact congrArg Prod.snd hname

/-- The expression is all of the text just if nothing follows it in the frame but what the frame
adds. -/
theorem words_eq_iff {x : FramedTree} {unread : List Token} {ws : List (TokenKind × String)}
    (h : (x.value.terminals ++ x.after ++ unread).map lexeme = ws ++ closed)
    (hinstructions : terminalsAll x.instructions = [] → x.instructions = [])
    (hfunctions : terminalsAll x.functions = [] → x.functions = []) :
    x.value.terminals.map lexeme = ws ↔ x.instructions = [] ∧ x.functions = [] ∧ unread = [] := by
  rw [List.append_assoc, List.map_append] at h
  constructor
  · rintro rfl
    have hlength := congrArg List.length (List.append_cancel_left h)
    simp only [FramedTree.after, closed, List.length_map, List.length_append, List.length_cons,
      List.length_nil] at hlength
    exact ⟨hinstructions (List.length_eq_zero_iff.1 (by omega)),
      hfunctions (List.length_eq_zero_iff.1 (by omega)), List.length_eq_zero_iff.1 (by omega)⟩
  · rintro ⟨hi, hf, rfl⟩
    refine (List.append_inj' h ?_).1
    simp [FramedTree.after, hi, hf, terminalsAll, closed]

/-- Two tokens at least come after the expression. -/
theorem terminals_isPrefix_words {x : FramedTree} {unread : List Token}
    {ws : List (TokenKind × String)}
    (h : (x.value.terminals ++ x.after ++ unread).map lexeme = ws ++ closed) :
    x.value.terminals.map lexeme <+: ws := by
  rw [List.append_assoc, List.map_append] at h
  refine List.prefix_of_prefix_length_le ⟨_, h⟩ (List.prefix_append ws closed) ?_
  have hlength := congrArg List.length h
  simp only [FramedTree.after, closed, List.length_map, List.length_append, List.length_cons,
    List.length_nil] at hlength ⊢
  omega

/-- If a text is converted to an expression, its frame has been read as a program, and the
expression is the one of its first assignment. All tokens are accounted for: those of the tree come
first, and the others were not read. The expression has exactly the tokens of the text if and only
if the text does not begin with an equals sign and nothing was read as a further instruction or
function or left unread. -/
theorem expressionOfText_whole_iff {text : String} {e : Ast} (h : expressionOfText text = .ok e) :
    ∃ (x : FramedTree) (unread : List Token),
      (ParseTree.ofText (frame text) false).result = .ok x.tree ∧
      tokens (frame text) = x.tree.terminals ++ unread ∧
      meaning x.value = .ok (.node e) ∧
      (x.value.terminals.map lexeme = words text.toList ↔
        text.toList.head? ≠ some '=' ∧ x.instructions = [] ∧ x.functions = [] ∧ unread = []) := by
  obtain ⟨t, ht⟩ : ∃ t, (ParseTree.ofText (frame text) false).result = .ok t := by
    rw [expressionOfText, ofParsed] at h
    split at h
    · exact ⟨_, by assumption⟩
    · cases h
  rw [expressionOfText, ofParsed, ht] at h
  obtain ⟨x, unread, rfl, htokens, hname, hinstructions, hfunctions⟩ := exists_ofText_frame ht
  refine ⟨x, unread, ht, ?_, FramedTree.meaning_value hname h, ?_⟩
  · rw [htokens, x.terminals_tree]
    simp only [List.append_assoc]
  obtain ⟨sign, read, hlexemes, hread⟩ := lexemes_frame text
  have hrest : (x.value.terminals ++ x.after ++ unread).map lexeme = words read ++ closed := by
    change (tokens (frame text)).map lexeme = _ at hlexemes
    rw [htokens, List.map_append, List.append_cons opened] at hlexemes
    exact (List.append_inj hlexemes rfl).2
  rcases hread with ⟨hequals, rfl⟩ | hequals
  · rw [words_eq_iff hrest hinstructions hfunctions]
    exact (and_iff_right hequals).symm
  · -- the sign of the text is part of the one of the frame, so it is not in the expression
    have hshort := terminals_isPrefix_words hrest
    rw [hequals]
    constructor
    · intro heq
      rw [heq] at hshort
      exact absurd hshort (not_isPrefix_words read)
    · rintro ⟨hne, -⟩
      exact absurd rfl hne

/-- A text that is read as a whole, where the frame ends a word and the exponent has a sign. -/
theorem expressionOfText_whole_iff_power :
    ∃ (e : Ast) (x : FramedTree) (unread : List Token), expressionOfText "F(2)^-ab" = .ok e ∧
      (ParseTree.ofText (frame "F(2)^-ab") false).result = .ok x.tree ∧
      meaning x.value = .ok (.node e) ∧ x.value.terminals.map lexeme = words "F(2)^-ab".toList ∧
      x.instructions = [] ∧ x.functions = [] ∧ unread = [] := by
  have hconverted : (expressionOfText "F(2)^-ab").toOption.isSome = true := by decide +kernel
  have hvalue : ((ParseTree.ofText (frame "F(2)^-ab") false).result.toOption.bind firstValue).map
      (·.terminals.map lexeme) = some (words "F(2)^-ab".toList) := by
    decide +kernel
  cases he : expressionOfText "F(2)^-ab" with
  | error => rw [he] at hconverted; cases hconverted
  | ok e =>
    obtain ⟨x, unread, ht, -, hmeaning, hwhole⟩ := expressionOfText_whole_iff he
    rw [ht] at hvalue
    have hwords := Option.some.inj hvalue
    exact ⟨e, x, unread, rfl, ht, hmeaning, hwords, (hwhole.1 hwords).2⟩

/-- The letter of a symbol. -/
def letter? : Ast → Option (Bool × String)
  | sym negated letter => some (negated, letter)
  | _ => none

/-- What is accepted as a letter is a symbol. -/
theorem eq_sym_of_letter? {x : Except AstFault Ast} {s : Bool} {letter : String}
    (h : x.toOption.bind letter? = some (s, letter)) : x = .ok (.sym s letter) := by
  cases x with
  | error => cases h
  | ok e =>
    cases e with
    | sym => cases h; rfl
    | _ => cases h

/-- An assignment after the expression is read and dropped. -/
theorem not_whole_assignment :
    expressionOfText "x B=y" = .ok (.sym false "x") ∧
      ∀ x : FramedTree, (ParseTree.ofText (frame "x B=y") false).result = .ok x.tree →
        x.value.terminals.map lexeme ≠ words "x B=y".toList := by
  refine ⟨eq_sym_of_letter? (by decide +kernel), fun x ht => ?_⟩
  have hvalue : ((ParseTree.ofText (frame "x B=y") false).result.toOption.bind firstValue).map
      (·.terminals.map lexeme) = some [(.sym, "x")] := by
    decide +kernel
  rw [ht] at hvalue
  have hwords : x.value.terminals.map lexeme = [(.sym, "x")] := Option.some.inj hvalue
  rw [hwords]
  decide +kernel

end Ast

end SymScript
