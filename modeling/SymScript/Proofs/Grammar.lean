import SymScript.ParseTree.Parser

/-!
# The grammar of expressions

The trees that expressions have, level by level, and the parser on them: on the tokens of a tree of
the grammar it gives that tree back, with any watch, whatever comes after them that does not go on
the expression.
-/

namespace SymScript

/-- How tightly an expression holds together, from sums to single operands. -/
inductive Precedence where
  | sum | product | power | operand
deriving DecidableEq, Repr

def Precedence.rank : Precedence → Nat
  | sum => 0
  | product => 1
  | power => 2
  | operand => 3

namespace ParseTree

/-- What follows the first member of a list: every other member with the comma before it. -/
def listed (rest : List (Token × ParseTree)) : List ParseTree :=
  rest.flatMap fun p => [.leaf p.1, p.2]

@[simp] theorem terminals_leaf (t : Token) : (leaf t).terminals = [t] := by rw [terminals]

/-- The tokens of a node with an operator are those of its sides, with the operator between them. -/
@[simp] theorem terminals_binary (rule : Rule) (l r : ParseTree) (op : Token) :
    (node rule [l, .leaf op, r]).terminals = l.terminals ++ op :: r.terminals := by
  simp [terminals, terminalsAll]

/-- The tokens of a list with separators, from the front. -/
@[simp] theorem terminalsAll_listed_cons (p : Token × ParseTree) (ps : List (Token × ParseTree)) :
    terminalsAll (listed (p :: ps)) = p.1 :: (p.2.terminals ++ terminalsAll (listed ps)) := by
  simp [listed, terminals, terminalsAll]

/-- The trees of the expressions of a level. -/
inductive Derives : Precedence → ParseTree → Prop
  | ofProduct {t : ParseTree} (ht : Derives .product t) : Derives .sum t
  | ofPower {t : ParseTree} (ht : Derives .power t) : Derives .product t
  | ofOperand {t : ParseTree} (ht : Derives .operand t) : Derives .power t
  | sum {l r : ParseTree} {op : Token} (hl : Derives .sum l) (hop : op.kind.isSign)
      (hr : Derives .product r) : Derives .sum (.node .expression [l, .leaf op, r])
  | product {l r : ParseTree} {op : Token} (hl : Derives .product l)
      (hop : op.kind.isFactorOperator) (hr : Derives .power r) :
      Derives .product (.node .expression [l, .leaf op, r])
  | power {l r : ParseTree} {op : Token} (hl : Derives .operand l) (hop : op.kind = .caret)
      (hr : Derives .power r) : Derives .power (.node .expression [l, .leaf op, r])
  | signed {t : ParseTree} {sign : Token} (hsign : sign.kind.isSign) (ht : Derives .operand t) :
      Derives .operand (.node .expression [.leaf sign, t])
  | grouped {t : ParseTree} {opening closing : Token} (ho : opening.kind = .leftParen)
      (ht : Derives .sum t) (hc : closing.kind = .rightParen) :
      Derives .operand (.node .expression [.leaf opening, t, .leaf closing])
  | single {t : Token} (ht : t.kind = .id ∨ t.kind = .nat ∨ t.kind = .sym) :
      Derives .operand (.node .expression [.leaf t])
  | emptyCall {name opening closing : Token} (hn : name.kind = .id) (ho : opening.kind = .leftParen)
      (hc : closing.kind = .rightParen) :
      Derives .operand
        (.node .expression [.node .call [.leaf name, .leaf opening, .leaf closing]])
  | call {name opening closing : Token} {first : ParseTree} {rest : List (Token × ParseTree)}
      (hn : name.kind = .id) (ho : opening.kind = .leftParen) (hf : Derives .sum first)
      (hcomma : ∀ p ∈ rest, p.1.kind = .comma) (hr : ∀ p ∈ rest, Derives .sum p.2)
      (hc : closing.kind = .rightParen) :
      Derives .operand (.node .expression [.node .call
        [.leaf name, .leaf opening, .node .expressionList (first :: listed rest), .leaf closing]])

namespace Derives

/-- What holds together tightly may stand where less is asked. -/
theorem loosen {k level : Precedence} {t : ParseTree} (ht : Derives level t)
    (h : k.rank ≤ level.rank) : Derives k t := by
  cases level with
  | sum =>
    cases k with
    | sum => exact ht
    | _ => cases h
  | product =>
    cases k with
    | sum => exact ofProduct ht
    | product => exact ht
    | _ => exact absurd h (by decide)
  | power =>
    cases k with
    | sum => exact ofProduct (ofPower ht)
    | product => exact ofPower ht
    | power => exact ht
    | operand => exact absurd h (by decide)
  | operand =>
    cases k with
    | sum => exact ofProduct (ofPower (ofOperand ht))
    | product => exact ofPower (ofOperand ht)
    | power => exact ofOperand ht
    | operand => exact ht

/-- Every derived tree is a node for an expression. -/
theorem exists_eq_node {level : Precedence} {t : ParseTree} (ht : Derives level t) :
    ∃ cs, t = .node .expression cs := by
  induction ht with
  | ofProduct _ ih | ofPower _ ih | ofOperand _ ih => exact ih
  | _ => exact ⟨_, rfl⟩

/-- The first token of an expression; it closes nothing. -/
theorem exists_terminals_eq {level : Precedence} {t : ParseTree} (ht : Derives level t) :
    ∃ first ts, t.terminals = first :: ts ∧ first.kind ≠ .rightParen := by
  induction ht with
  | ofProduct _ ih | ofPower _ ih | ofOperand _ ih => exact ih
  | sum _ _ _ ih _ | product _ _ _ ih _ | power _ _ _ ih _ =>
    obtain ⟨first, ts, hts, hfirst⟩ := ih
    exact ⟨first, _, by rw [terminals_binary, hts, List.cons_append], hfirst⟩
  | @signed t sign hsign _ _ =>
    refine ⟨sign, t.terminals, by simp [terminals, terminalsAll], ?_⟩
    intro h
    rw [h] at hsign
    cases hsign
  | grouped ho _ _ _ => exact ⟨_, _, rfl, by rw [ho]; decide⟩
  | single ht => exact ⟨_, _, rfl, by rcases ht with h | h | h <;> rw [h] <;> decide⟩
  | emptyCall hn _ _ => exact ⟨_, _, rfl, by rw [hn]; decide⟩
  | call hn _ _ _ _ _ _ _ => exact ⟨_, _, rfl, by rw [hn]; decide⟩

/-- No expression is empty. -/
theorem length_pos {level : Precedence} {t : ParseTree} (ht : Derives level t) :
    0 < t.terminals.length := by
  obtain ⟨first, ts, hts, -⟩ := ht.exists_terminals_eq
  rw [hts]
  exact Nat.succ_pos _

end Derives

end ParseTree

/-! ### What a parse reads -/

namespace Token

/-- The kind of the next token. -/
def next (ts : List Token) : TokenKind := ((ts[0]?).map Token.kind).getD .eof

/-- The next token is the first one. -/
@[simp] theorem next_cons (t : Token) (ts : List Token) : next (t :: ts) = t.kind := rfl

end Token

namespace Parse

/-- The parse takes tokens away until `rest` is left, gives `a` and reports nothing. -/
def Reads {α : Type} (p : Parse α) (ts : List Token) (a : α) (rest : List Token) : Prop :=
  ∀ reports, p.run.run ⟨ts, reports⟩ = (.ok a, ⟨rest, reports⟩)

namespace Reads

variable {α β : Type} {ts us vs : List Token}

/-- A parse that gives a value reads nothing. -/
protected theorem pure (a : α) : Reads (pure a) ts a ts := fun _ => rfl

/-- Two parses in a row read one part of the tokens after the other. -/
protected theorem bind {p : Parse α} {f : α → Parse β} {a : α} {b : β} (hp : Reads p ts a us)
    (hf : Reads (f a) us b vs) : Reads (p >>= f) ts b vs := by
  intro reports
  rw [ExceptT.run_bind, StateT.run_bind, hp reports]
  exact hf reports

/-- Looking at the next token does not take it. -/
theorem peek : Reads peek ts (Token.next ts) ts := fun _ => rfl

/-- Taking a token gives it as a leaf. -/
theorem take {t : Token} : Reads take (t :: ts) (.leaf t) ts := fun _ => rfl

/-- A token of the wanted kind is taken, with a watch or without one. -/
theorem eat (watch : Watch) {t : Token} {kind : TokenKind} (h : t.kind = kind) :
    Reads (eat watch kind) (t :: ts) (.leaf t) ts := by
  intro reports
  cases watch with
  | none => rfl
  | some lines =>
    change (ite (t.kind = kind) Parse.take _).run.run ⟨t :: ts, reports⟩ = _
    rw [if_pos h]
    rfl

/-! One lemma for each way a rule of the grammar can go. -/

variable {watch : Watch} {n : Nat} {t u l r : ParseTree}

/-- A sum ends where no sign follows. -/
theorem addends_stop (h : (Token.next ts).isSign = false) :
    Reads (addends watch (n + 1) t) ts t ts := by
  rw [addends]
  refine peek.bind ?_
  rw [if_neg (by simp [h])]
  exact Reads.pure t

/-- After a sign another term is read and joined to the left. -/
theorem addends_step {op : Token} (hop : op.kind.isSign) (hr : Reads (term watch n) ts r us)
    (hgo : Reads (addends watch n (.node .expression [l, .leaf op, r])) us t vs) :
    Reads (addends watch (n + 1) l) (op :: ts) t vs := by
  rw [addends]
  refine peek.bind ?_
  rw [Token.next_cons, if_pos hop]
  exact take.bind (hr.bind hgo)

/-- An expression is a term with the addends behind it. -/
theorem expression (ht : Reads (term watch n) ts t us) (hgo : Reads (addends watch n t) us u vs) :
    Reads (expression watch (n + 1)) ts u vs := by
  rw [Parse.expression]
  exact ht.bind hgo

/-- A term ends where no sign for a factor follows. -/
theorem factors_stop (h : (Token.next ts).isFactorOperator = false) :
    Reads (factors watch (n + 1) t) ts t ts := by
  rw [factors]
  refine peek.bind ?_
  rw [if_neg (by simp [h])]
  exact Reads.pure t

/-- After a sign for a factor another power is read and joined to the left. -/
theorem factors_step {op : Token} (hop : op.kind.isFactorOperator)
    (hr : Reads (power watch n) ts r us)
    (hgo : Reads (factors watch n (.node .expression [l, .leaf op, r])) us t vs) :
    Reads (factors watch (n + 1) l) (op :: ts) t vs := by
  rw [factors]
  refine peek.bind ?_
  rw [Token.next_cons, if_pos hop]
  exact take.bind (hr.bind hgo)

/-- A term is a power with the factors behind it. -/
theorem term (ht : Reads (power watch n) ts t us) (hgo : Reads (factors watch n t) us u vs) :
    Reads (term watch (n + 1)) ts u vs := by
  rw [Parse.term]
  exact ht.bind hgo

/-- A power without a caret is its base. -/
theorem power_stop (ht : Reads (unary watch n) ts t us) (h : Token.next us ≠ .caret) :
    Reads (power watch (n + 1)) ts t us := by
  rw [power]
  refine ht.bind (peek.bind ?_)
  rw [if_neg h]
  exact Reads.pure t

/-- After a caret the exponent is read as a power again, so powers are joined to the right. -/
theorem power_step {op : Token} (hl : Reads (unary watch n) ts l (op :: us))
    (hop : op.kind = .caret) (hr : Reads (power watch n) us r vs) :
    Reads (power watch (n + 1)) ts (.node .expression [l, .leaf op, r]) vs := by
  rw [power]
  refine hl.bind (peek.bind ?_)
  rw [Token.next_cons, if_pos hop]
  exact take.bind (hr.bind (Reads.pure _))

/-- A sign in front of an operand. -/
theorem unary_signed {sign : Token} (hsign : sign.kind.isSign)
    (ht : Reads (unary watch n) ts t us) :
    Reads (unary watch (n + 1)) (sign :: ts) (.node .expression [.leaf sign, t]) us := by
  rw [unary]
  refine peek.bind ?_
  rw [Token.next_cons, if_pos hsign]
  exact take.bind (ht.bind (Reads.pure _))

/-- An expression in parentheses. -/
theorem unary_grouped {opening closing : Token} (ho : opening.kind = .leftParen)
    (ht : Reads (Parse.expression watch n) ts t (closing :: us)) (hc : closing.kind = .rightParen) :
    Reads (unary watch (n + 1)) (opening :: ts)
      (.node .expression [.leaf opening, t, .leaf closing]) us := by
  rw [unary]
  refine peek.bind ?_
  rw [Token.next_cons, ho, if_neg (by decide), if_pos rfl]
  exact take.bind (ht.bind ((eat watch hc).bind (Reads.pure _)))

theorem ahead_one {t : Token} : Reads (ahead 1) (t :: ts) (Token.next ts) (t :: ts) := fun _ => rfl

/-- A name, a number or a symbol by itself; after a name no parenthesis may follow. -/
theorem unary_single {t : Token} (ht : t.kind = .id ∨ t.kind = .nat ∨ t.kind = .sym)
    (h : Token.next ts ≠ .leftParen) :
    Reads (unary watch (n + 1)) (t :: ts) (.node .expression [.leaf t]) ts := by
  have hsign : t.kind.isSign = false := by rcases ht with h | h | h <;> rw [h] <;> rfl
  have hparen : t.kind ≠ .leftParen := by rcases ht with h | h | h <;> rw [h] <;> decide
  rw [unary]
  refine peek.bind ?_
  rw [Token.next_cons, if_neg (by simp [hsign]), if_neg hparen]
  refine ahead_one.bind ?_
  rw [if_neg (by simp [h])]
  exact take.bind (Reads.pure _)

/-- A name before a parenthesis is a call. -/
theorem unary_call {name opening : Token} (hn : name.kind = .id) (ho : opening.kind = .leftParen)
    (ht : Reads (call watch n) (name :: opening :: ts) t us) :
    Reads (unary watch (n + 1)) (name :: opening :: ts) (.node .expression [t]) us := by
  rw [unary]
  refine peek.bind ?_
  rw [Token.next_cons, hn, if_neg (by decide), if_neg (by decide)]
  refine ahead_one.bind ?_
  rw [Token.next_cons, ho, if_pos (by decide)]
  exact ht.bind (Reads.pure _)

/-- A call without arguments. -/
theorem call_empty {name opening closing : Token} (hn : name.kind = .id)
    (ho : opening.kind = .leftParen) (hc : closing.kind = .rightParen) :
    Reads (call watch (n + 1)) (name :: opening :: closing :: ts)
      (.node .call [.leaf name, .leaf opening, .leaf closing]) ts := by
  rw [call]
  refine (eat watch hn).bind ((eat watch ho).bind (peek.bind ?_))
  rw [Token.next_cons, if_pos hc]
  exact (eat watch hc).bind (Reads.pure _)

/-- A call with arguments: an expression, and more of them behind commas. -/
theorem call_listed {name opening closing : Token} {ps : List ParseTree} (hn : name.kind = .id)
    (ho : opening.kind = .leftParen) (hne : Token.next ts ≠ .rightParen)
    (ht : Reads (Parse.expression watch n) ts t us)
    (hps : Reads (arguments watch n) us ps (closing :: vs)) (hc : closing.kind = .rightParen) :
    Reads (call watch (n + 1)) (name :: opening :: ts)
      (.node .call [.leaf name, .leaf opening, .node .expressionList (t :: ps), .leaf closing])
      vs := by
  rw [call]
  refine (eat watch hn).bind ((eat watch ho).bind (peek.bind ?_))
  rw [if_neg hne]
  exact ht.bind (hps.bind ((eat watch hc).bind (Reads.pure _)))

/-- The arguments end where no comma follows. -/
theorem arguments_stop (h : Token.next ts ≠ .comma) : Reads (arguments watch (n + 1)) ts [] ts := by
  rw [arguments]
  refine peek.bind ?_
  rw [if_neg h]
  exact Reads.pure _

/-- After a comma one more argument is read. -/
theorem arguments_step {comma : Token} {ps : List ParseTree} (hcomma : comma.kind = .comma)
    (ht : Reads (Parse.expression watch n) ts t us) (hps : Reads (arguments watch n) us ps vs) :
    Reads (arguments watch (n + 1)) (comma :: ts) (.leaf comma :: t :: ps) vs := by
  rw [arguments]
  refine peek.bind ?_
  rw [Token.next_cons, if_pos hcomma]
  exact (eat watch hcomma).bind (ht.bind (hps.bind (Reads.pure _)))

/-- A block is a list of instructions in braces. -/
theorem block {opening closing : Token} {is : List ParseTree} (ho : opening.kind = .leftBrace)
    (his : Reads (instructions watch n) ts is (closing :: us)) (hc : closing.kind = .rightBrace) :
    Reads (block watch (n + 1)) (opening :: ts)
      (.node .block (.leaf opening :: is ++ [.leaf closing])) us := by
  rw [Parse.block]
  exact (eat watch ho).bind (his.bind ((eat watch hc).bind (Reads.pure _)))

/-- The instructions end before a closing brace. -/
theorem instructions_stop (h : Token.next ts = .rightBrace) :
    Reads (instructions watch (n + 1)) ts [] ts := by
  rw [instructions]
  refine peek.bind ?_
  rw [if_pos h]
  exact Reads.pure _

/-- One more instruction, unless the block is closed. -/
theorem instructions_step {is : List ParseTree} (h : Token.next ts ≠ .rightBrace)
    (ht : Reads (instruction watch n) ts t us) (his : Reads (instructions watch n) us is vs) :
    Reads (instructions watch (n + 1)) ts (t :: is) vs := by
  rw [instructions]
  refine peek.bind ?_
  rw [if_neg h]
  exact ht.bind (his.bind (Reads.pure _))

/-- An assignment is a name, the sign for it and an expression. -/
theorem instruction_assign {name sign : Token} (hn : name.kind = .id) (hs : sign.kind = .assign)
    (ht : Reads (Parse.expression watch n) ts t us) :
    Reads (instruction watch (n + 1)) (name :: sign :: ts)
      (.node .instruction [.leaf name, .leaf sign, t]) us := by
  rw [instruction]
  refine peek.bind ?_
  rw [Token.next_cons, hn]
  exact (eat watch hn).bind ((eat watch hs).bind (ht.bind (Reads.pure _)))

/-- A function without parameters. -/
theorem signature_empty {opening closing : Token} (ho : opening.kind = .leftParen)
    (hc : closing.kind = .rightParen) :
    Reads (signature watch n) (opening :: closing :: ts) [.leaf opening, .leaf closing] ts := by
  refine (eat watch ho).bind (peek.bind ?_)
  rw [Token.next_cons, hc, if_neg (by decide)]
  exact (eat watch hc).bind (Reads.pure _)

/-- A function is a name, its signature and a block. -/
theorem function {name : Token} {ps : List ParseTree} (hn : name.kind = .id)
    (hps : Reads (signature watch n) ts ps us) (ht : Reads (Parse.block watch n) us t vs) :
    Reads (function watch n) (name :: ts) (.node .function (.leaf name :: ps ++ [t])) vs :=
  (eat watch hn).bind (hps.bind (ht.bind (Reads.pure _)))

/-- The functions end where no name follows. -/
theorem functions_stop (h : Token.next ts ≠ .id) : Reads (functions watch (n + 1)) ts [] ts := by
  rw [functions]
  refine peek.bind ?_
  rw [if_neg h]
  exact Reads.pure _

/-- A name begins one more function. -/
theorem functions_step {fs : List ParseTree} (h : Token.next ts = .id)
    (ht : Reads (Parse.function watch n) ts t us) (hfs : Reads (functions watch n) us fs vs) :
    Reads (functions watch (n + 1)) ts (t :: fs) vs := by
  rw [functions]
  refine peek.bind ?_
  rw [if_pos h]
  exact ht.bind (hfs.bind (Reads.pure _))

/-- A program is a list of functions up to the end of the text. -/
theorem program {last : Token} {fs : List ParseTree}
    (hfs : Reads (functions watch n) ts fs (last :: us)) (hl : last.kind = .eof) :
    Reads (program watch n) ts (.node .program (fs ++ [.leaf last])) us :=
  hfs.bind ((eat watch hl).bind (Reads.pure _))

end Reads

end Parse

/-! ### Completeness -/

/-- Whether a token after an expression of a level would be taken as part of it. -/
def Precedence.goesOn : Precedence → TokenKind → Bool
  | operand, k => k = .leftParen
  | power, k => k = .caret || k = .leftParen
  | product, k => k.isFactorOperator || k = .caret || k = .leftParen
  | sum, k => k.isSign || k.isFactorOperator || k = .caret || k = .leftParen

namespace ParseTree

open Parse Token

/-- How the parser deals with the tokens of a tree at a level. Sums and products are read from the
left, so that the tree is what their loop has gathered by the time it comes to `rest`. -/
def Parses (watch : Watch) (t : ParseTree) : Precedence → Prop
  | .sum => ∀ n rest, 4 * t.terminals.length + 3 ≤ n →
      Precedence.product.goesOn (next rest) = false →
      ∃ m, n ≤ m + t.terminals.length ∧ ∀ u us, Reads (addends watch m t) rest u us →
        Reads (expression watch n) (t.terminals ++ rest) u us
  | .product => ∀ n rest, 4 * t.terminals.length + 2 ≤ n →
      Precedence.power.goesOn (next rest) = false →
      ∃ m, n ≤ m + t.terminals.length ∧ ∀ u us, Reads (factors watch m t) rest u us →
        Reads (term watch n) (t.terminals ++ rest) u us
  | .power => ∀ n rest, 4 * t.terminals.length + 1 ≤ n →
      Precedence.power.goesOn (next rest) = false →
      Reads (power watch n) (t.terminals ++ rest) t rest
  | .operand => ∀ n rest, 4 * t.terminals.length ≤ n →
      Precedence.operand.goesOn (next rest) = false →
      Reads (unary watch n) (t.terminals ++ rest) t rest

namespace Parses

variable {watch : Watch} {t : ParseTree} {n : Nat} {rest : List Token}

/-- What parses at the loosest level is read as an expression, if nothing follows that goes on with
it. -/
theorem expression (h : Parses watch t .sum) (hn : 4 * t.terminals.length + 3 ≤ n)
    (hrest : Precedence.sum.goesOn (next rest) = false) :
    Reads (expression watch n) (t.terminals ++ rest) t rest := by
  simp only [Precedence.goesOn, Bool.or_eq_false_iff] at hrest
  obtain ⟨m, hm, hgo⟩ := h n rest hn (by simp [Precedence.goesOn, hrest])
  obtain ⟨m, rfl⟩ := Nat.exists_eq_add_one_of_ne_zero (show m ≠ 0 by omega)
  exact hgo t rest (Reads.addends_stop hrest.1.1.1)

/-- What parses as a product is read as a term, if no factor follows. -/
theorem term (h : Parses watch t .product) (hn : 4 * t.terminals.length + 2 ≤ n)
    (hrest : Precedence.product.goesOn (next rest) = false) :
    Reads (term watch n) (t.terminals ++ rest) t rest := by
  simp only [Precedence.goesOn, Bool.or_eq_false_iff] at hrest
  obtain ⟨m, hm, hgo⟩ := h n rest hn (by simp [Precedence.goesOn, hrest])
  obtain ⟨m, rfl⟩ := Nat.exists_eq_add_one_of_ne_zero (show m ≠ 0 by omega)
  exact hgo t rest (Reads.factors_stop hrest.1.1)

/-- A product is a sum of one addend. -/
theorem ofProduct (h : Parses watch t .product) (hpos : 0 < t.terminals.length) :
    Parses watch t .sum := by
  intro n rest hn hrest
  obtain ⟨n, rfl⟩ := Nat.exists_eq_add_one_of_ne_zero (show n ≠ 0 by omega)
  refine ⟨n, by omega, fun u us hgo => ?_⟩
  exact Reads.expression (h.term (by omega) hrest) hgo

/-- A power is a product of one factor. -/
theorem ofPower (h : Parses watch t .power) (hpos : 0 < t.terminals.length) :
    Parses watch t .product := by
  intro n rest hn hrest
  obtain ⟨n, rfl⟩ := Nat.exists_eq_add_one_of_ne_zero (show n ≠ 0 by omega)
  refine ⟨n, by omega, fun u us hgo => ?_⟩
  exact Reads.term (h _ rest (by omega) hrest) hgo

/-- An operand is a power without an exponent. -/
theorem ofOperand (h : Parses watch t .operand) : Parses watch t .power := by
  intro n rest hn hrest
  simp only [Precedence.goesOn, Bool.or_eq_false_iff, decide_eq_false_iff_not] at hrest
  obtain ⟨n, rfl⟩ := Nat.exists_eq_add_one_of_ne_zero (show n ≠ 0 by omega)
  exact Reads.power_stop (h _ rest (by omega) (by simp [Precedence.goesOn, hrest])) hrest.1

variable {l r : ParseTree} {op : Token}

/-- A sum parses if its sides do: the left one as a sum, the right one as a product. -/
theorem sum (hl : Parses watch l .sum) (hop : op.kind.isSign) (hr : Parses watch r .product) :
    Parses watch (.node .expression [l, .leaf op, r]) .sum := by
  intro n rest hn hrest
  rw [terminals_binary, List.length_append, List.length_cons] at hn
  have hnext : Precedence.product.goesOn op.kind = false := by
    cases hk : op.kind <;> rw [hk] at hop <;> first | rfl | cases hop
  obtain ⟨m, hm, hgo⟩ := hl n (op :: (r.terminals ++ rest)) (by omega) hnext
  obtain ⟨m, rfl⟩ := Nat.exists_eq_add_one_of_ne_zero (show m ≠ 0 by omega)
  rw [terminals_binary, List.length_append, List.length_cons]
  refine ⟨m, by omega, fun u us h => ?_⟩
  rw [List.append_assoc, List.cons_append]
  exact hgo u us (Reads.addends_step hop (hr.term (by omega) hrest) h)

/-- A product parses if its sides do: the left one as a product, the right one as a power. -/
theorem product (hl : Parses watch l .product) (hop : op.kind.isFactorOperator)
    (hr : Parses watch r .power) : Parses watch (.node .expression [l, .leaf op, r]) .product := by
  intro n rest hn hrest
  rw [terminals_binary, List.length_append, List.length_cons] at hn
  have hnext : Precedence.power.goesOn op.kind = false := by
    cases hk : op.kind <;> rw [hk] at hop <;> first | rfl | cases hop
  obtain ⟨m, hm, hgo⟩ := hl n (op :: (r.terminals ++ rest)) (by omega) hnext
  obtain ⟨m, rfl⟩ := Nat.exists_eq_add_one_of_ne_zero (show m ≠ 0 by omega)
  rw [terminals_binary, List.length_append, List.length_cons]
  refine ⟨m, by omega, fun u us h => ?_⟩
  rw [List.append_assoc, List.cons_append]
  exact hgo u us (Reads.factors_step hop (hr _ rest (by omega) hrest) h)

/-- A power parses if its sides do: the left one as an operand, the right one as a power. -/
theorem power (hl : Parses watch l .operand) (hop : op.kind = .caret) (hr : Parses watch r .power) :
    Parses watch (.node .expression [l, .leaf op, r]) .power := by
  intro n rest hn hrest
  rw [terminals_binary, List.length_append, List.length_cons] at hn
  obtain ⟨n, rfl⟩ := Nat.exists_eq_add_one_of_ne_zero (show n ≠ 0 by omega)
  rw [terminals_binary, List.append_assoc, List.cons_append]
  refine Reads.power_step (hl _ (op :: (r.terminals ++ rest)) (by omega) ?_) hop
    (hr _ rest (by omega) hrest)
  rw [next_cons, hop]
  rfl

/-- A signed operand parses if the operand does. -/
theorem signed {sign : Token} (hsign : sign.kind.isSign) (ht : Parses watch t .operand) :
    Parses watch (.node .expression [.leaf sign, t]) .operand := by
  intro n rest hn hrest
  have hts : (node .expression [.leaf sign, t]).terminals = sign :: t.terminals := by
    simp [terminals, terminalsAll]
  rw [hts, List.length_cons] at hn
  obtain ⟨n, rfl⟩ := Nat.exists_eq_add_one_of_ne_zero (show n ≠ 0 by omega)
  rw [hts]
  exact Reads.unary_signed hsign (ht n rest (by omega) hrest)

/-- An expression in parentheses parses if the expression does, and is an operand then. -/
theorem grouped {opening closing : Token} (ho : opening.kind = .leftParen)
    (ht : Parses watch t .sum) (hc : closing.kind = .rightParen) :
    Parses watch (.node .expression [.leaf opening, t, .leaf closing]) .operand := by
  intro n rest hn _
  have hts : (node .expression [.leaf opening, t, .leaf closing]).terminals =
      opening :: (t.terminals ++ [closing]) := by
    simp [terminals, terminalsAll]
  rw [hts, List.length_cons, List.length_append] at hn
  obtain ⟨n, rfl⟩ := Nat.exists_eq_add_one_of_ne_zero (show n ≠ 0 by omega)
  rw [hts, List.cons_append, List.append_assoc, List.singleton_append]
  refine Reads.unary_grouped ho (ht.expression (by omega) ?_) hc
  rw [next_cons, hc]
  rfl

theorem single {t : Token} (ht : t.kind = .id ∨ t.kind = .nat ∨ t.kind = .sym) :
    Parses watch (.node .expression [.leaf t]) .operand := by
  intro n rest hn hrest
  have hts : (node .expression [.leaf t]).terminals = [t] := by simp [terminals, terminalsAll]
  rw [hts, List.length_singleton] at hn
  obtain ⟨n, rfl⟩ := Nat.exists_eq_add_one_of_ne_zero (show n ≠ 0 by omega)
  rw [hts]
  exact Reads.unary_single ht (by simpa [Precedence.goesOn] using hrest)

theorem emptyCall {name opening closing : Token} (hn : name.kind = .id)
    (ho : opening.kind = .leftParen) (hc : closing.kind = .rightParen) :
    Parses watch (.node .expression [.node .call [.leaf name, .leaf opening, .leaf closing]])
      .operand := by
  intro n rest hlen _
  have hts : (node .expression [.node .call [.leaf name, .leaf opening, .leaf closing]]).terminals =
      [name, opening, closing] := by
    simp [terminals, terminalsAll]
  rw [hts, List.length_cons, List.length_cons, List.length_singleton] at hlen
  obtain ⟨n, rfl⟩ := Nat.exists_eq_add_one_of_ne_zero (show n ≠ 0 by omega)
  obtain ⟨n, rfl⟩ := Nat.exists_eq_add_one_of_ne_zero (show n ≠ 0 by omega)
  rw [hts]
  exact Reads.unary_call hn ho (Reads.call_empty hn ho hc)

variable {ps : List (Token × ParseTree)} {closing : Token} {us : List Token}

/-- After an argument stands the next comma or the closing parenthesis. -/
theorem goesOn_listed (hc : closing.kind = .rightParen) (hcomma : ∀ p ∈ ps, p.1.kind = .comma) :
    Precedence.sum.goesOn (next (terminalsAll (listed ps) ++ closing :: us)) = false := by
  cases ps with
  | nil =>
    rw [listed, List.flatMap_nil, terminalsAll, List.nil_append, next_cons, hc]
    rfl
  | cons p ps =>
    rw [terminalsAll_listed_cons, List.cons_append, next_cons, hcomma p List.mem_cons_self]
    rfl

/-- The arguments after the first, up to the closing parenthesis. -/
theorem arguments (hc : closing.kind = .rightParen) (hcomma : ∀ p ∈ ps, p.1.kind = .comma)
    (hps : ∀ p ∈ ps, Parses watch p.2 .sum) :
    ∀ n, 4 * (terminalsAll (listed ps)).length + 1 ≤ n →
      Reads (arguments watch n) (terminalsAll (listed ps) ++ closing :: us) (listed ps)
        (closing :: us) := by
  induction ps with
  | nil =>
    intro n hn
    obtain ⟨n, rfl⟩ := Nat.exists_eq_add_one_of_ne_zero (show n ≠ 0 by omega)
    refine Reads.arguments_stop ?_
    rw [listed, List.flatMap_nil, terminalsAll, List.nil_append, next_cons, hc]
    decide
  | cons p ps ih =>
    intro n hn
    have htail := ih (fun q hq => hcomma q (List.mem_cons_of_mem _ hq))
      (fun q hq => hps q (List.mem_cons_of_mem _ hq))
    rw [terminalsAll_listed_cons, List.length_cons, List.length_append] at hn
    obtain ⟨n, rfl⟩ := Nat.exists_eq_add_one_of_ne_zero (show n ≠ 0 by omega)
    rw [terminalsAll_listed_cons, List.cons_append, List.append_assoc]
    exact Reads.arguments_step (hcomma p List.mem_cons_self)
      ((hps p List.mem_cons_self).expression (by omega)
        (goesOn_listed hc fun q hq => hcomma q (List.mem_cons_of_mem _ hq)))
      (htail n (by omega))

/-- A call parses if its arguments do. -/
theorem call {name opening : Token} {first : ParseTree} (hn : name.kind = .id)
    (ho : opening.kind = .leftParen) (hfirst : Parses watch first .sum)
    (hnext : ∀ ts, next (first.terminals ++ ts) ≠ .rightParen)
    (hcomma : ∀ p ∈ ps, p.1.kind = .comma) (hps : ∀ p ∈ ps, Parses watch p.2 .sum)
    (hc : closing.kind = .rightParen) :
    Parses watch (.node .expression [.node .call
      [.leaf name, .leaf opening, .node .expressionList (first :: listed ps), .leaf closing]])
      .operand := by
  intro n rest hlen _
  have hts : (node .expression [.node .call [.leaf name, .leaf opening,
      .node .expressionList (first :: listed ps), .leaf closing]]).terminals =
      name :: opening :: (first.terminals ++ (terminalsAll (listed ps) ++ [closing])) := by
    simp [terminals, terminalsAll]
  simp only [hts, List.length_cons, List.length_append, List.length_nil] at hlen
  obtain ⟨n, rfl⟩ := Nat.exists_eq_add_one_of_ne_zero (show n ≠ 0 by omega)
  obtain ⟨n, rfl⟩ := Nat.exists_eq_add_one_of_ne_zero (show n ≠ 0 by omega)
  rw [hts, List.cons_append, List.cons_append, List.append_assoc, List.append_assoc,
    List.singleton_append]
  exact Reads.unary_call hn ho (Reads.call_listed hn ho (hnext _)
    (hfirst.expression (by omega) (goesOn_listed hc hcomma))
    (arguments hc hcomma hps n (by omega)) hc)

end Parses

namespace Derives

variable {level : Precedence} {t : ParseTree}

/-- By induction on the derivation: every tree of the grammar is parsed as its level asks. -/
theorem parses (watch : Watch) (ht : Derives level t) : Parses watch t level := by
  induction ht with
  | ofProduct ht ih => exact ih.ofProduct ht.length_pos
  | ofPower ht ih => exact ih.ofPower ht.length_pos
  | ofOperand _ ih => exact ih.ofOperand
  | sum _ hop _ ihl ihr => exact ihl.sum hop ihr
  | product _ hop _ ihl ihr => exact ihl.product hop ihr
  | power _ hop _ ihl ihr => exact ihl.power hop ihr
  | signed hsign _ ih => exact ih.signed hsign
  | grouped ho _ hc ih => exact ih.grouped ho hc
  | single ht => exact Parses.single ht
  | emptyCall hn ho hc => exact Parses.emptyCall hn ho hc
  | call hn ho hf hcomma _ hc ihf ihr =>
    refine Parses.call hn ho ihf ?_ hcomma ihr hc
    intro ts
    obtain ⟨first, rest, hts, hfirst⟩ := hf.exists_terminals_eq
    rw [hts, List.cons_append, next_cons]
    exact hfirst

/-- The parser gives every expression of the grammar back from its tokens. -/
theorem reads_expression {watch : Watch} {n : Nat} {rest : List Token} (ht : Derives .sum t)
    (hn : 4 * t.terminals.length + 3 ≤ n) (hrest : Precedence.sum.goesOn (next rest) = false) :
    Reads (expression watch n) (t.terminals ++ rest) t rest :=
  (ht.parses watch).expression hn hrest

end Derives

end ParseTree

end SymScript
