import SymScript.Proofs.ParsingEnds
import SymScript.Proofs.Recognizer

/-!
# The parser as a recognizer

With a watch, a parse of an expression or a condition stops exactly where the recognizer fails, and
otherwise leaves tokens of the kinds that the recognizer leaves.  What it reports on the way plays
no part.
-/

namespace SymScript

open Recognizer

namespace Token

def kinds (ts : List Token) : List TokenKind := ts.map Token.kind

@[simp] theorem kinds_nil : kinds [] = [] := rfl

@[simp] theorem kinds_cons (t : Token) (ts : List Token) :
    kinds (t :: ts) = t.kind :: kinds ts := rfl

@[simp] theorem length_kinds (ts : List Token) : (kinds ts).length = ts.length := List.length_map ..

/-- The parser and the recognizer look at the same kind. -/
theorem next_eq_next_kinds (ts : List Token) : next ts = Recognizer.next (kinds ts) := by
  cases ts with
  | nil => rfl
  | cons t ts => rfl

end Token

open Token (kinds)

namespace Parse

variable {α β : Type} {wanted : β → Bool} {ts : List Token} {o : Option (List TokenKind)}

/-- The kinds of the tokens that are left, if the parse gave a result that is wanted. -/
def leftOver (wanted : β → Bool) : Except ParseStop β × Reading → Option (List TokenKind)
  | (.ok b, r) => if wanted b then some (kinds r.rest) else none
  | (.error _, _) => none

/-- The parse gives a wanted result and leaves tokens of the kinds in `o`, or there is none in
`o`. -/
def LeavesIf (wanted : β → Bool) (p : Parse β) (ts : List Token)
    (o : Option (List TokenKind)) : Prop :=
  ∀ reports, leftOver wanted (p.run.run ⟨ts, reports⟩) = o

/-- The parse leaves tokens of the kinds in `o`, or it stops and there is none in `o`. -/
abbrev Leaves (p : Parse β) : List Token → Option (List TokenKind) → Prop :=
  LeavesIf (fun _ => true) p

namespace LeavesIf

/-- A parse after another one leaves what the recognizers leave one after the other. -/
protected theorem bind {p : Parse α} {f : α → Parse β} {g : Recognizer} (hp : Leaves p ts o)
    (hf : ∀ a us, o = some (kinds us) → LeavesIf wanted (f a) us (g (kinds us))) :
    LeavesIf wanted (p >>= f) ts (o.bind g) := by
  intro reports
  have hp := hp reports
  rw [ExceptT.run_bind, StateT.run_bind]
  generalize p.run.run ⟨ts, reports⟩ = run at hp
  obtain ⟨_ | a, us, reports'⟩ := run
  · rw [← hp]
    rfl
  · rw [← hp]
    exact hf a us hp.symm reports'

/-- A first part that reads without a fault. -/
theorem reads_bind {p : Parse α} {f : α → Parse β} {a : α} {us : List Token} (hp : Reads p ts a us)
    (h : LeavesIf wanted (f a) us o) : LeavesIf wanted (p >>= f) ts o := by
  intro reports
  rw [ExceptT.run_bind, StateT.run_bind, hp reports]
  exact h reports

/-- Looking ahead leaves all tokens. -/
theorem peek_bind {f : TokenKind → Parse β} (h : LeavesIf wanted (f (next (kinds ts))) ts o) :
    LeavesIf wanted (peek >>= f) ts o := by
  rw [← Token.next_eq_next_kinds] at h
  exact reads_bind Reads.peek h

/-- Looking two tokens ahead leaves all tokens. -/
theorem ahead_one_bind {t : Token} {f : TokenKind → Parse β}
    (h : LeavesIf wanted (f (next (kinds ts))) (t :: ts) o) :
    LeavesIf wanted (ahead 1 >>= f) (t :: ts) o := by
  rw [← Token.next_eq_next_kinds] at h
  exact reads_bind Reads.ahead_one h

/-- Taking a token leaves the others. -/
theorem take_bind {t : Token} {f : ParseTree → Parse β} (h : LeavesIf wanted (f (.leaf t)) ts o) :
    LeavesIf wanted (take >>= f) (t :: ts) o := reads_bind Reads.take h

/-- Taking a token of the right kind leaves the others. -/
theorem eat_bind {lines : List String} {t : Token} {k : TokenKind} {f : ParseTree → Parse β}
    (hk : t.kind = k) (h : LeavesIf wanted (f (.leaf t)) ts o) :
    LeavesIf wanted (eat (some lines) k >>= f) (t :: ts) o :=
  reads_bind (Reads.eat (some lines) hk) h

protected theorem pure {b : β} (h : wanted b = true) :
    LeavesIf wanted (pure b) ts (some (kinds ts)) := by
  intro reports
  change (if wanted b then some (kinds ts) else none) = _
  rw [if_pos h]

end LeavesIf

namespace Leaves

/-- What is made of the result does not matter. -/
theorem map {p : Parse α} {f : α → β} (hp : Leaves p ts o) :
    Leaves (p >>= fun a => pure (f a)) ts o := by
  have hf (a : α) (us : List Token) : Leaves (pure (f a)) us (some (kinds us)) := LeavesIf.pure rfl
  have h := LeavesIf.bind hp fun a us _ => hf a us
  rwa [Option.bind_fun_some] at h

theorem take : Leaves take ts (takeAny (kinds ts)) := by
  cases ts with
  | nil => exact fun _ => rfl
  | cons t ts => exact fun _ => rfl

/-- Taking a token of a kind succeeds where the recognizer expects that kind. -/
theorem eat (lines : List String) (k : TokenKind) :
    Leaves (eat (some lines) k) ts (expect k (kinds ts)) := by
  intro reports
  cases ts with
  | nil => rfl
  | cons t ts =>
    change leftOver _ ((ite (t.kind = k) Parse.take _).run.run ⟨t :: ts, reports⟩) =
      ite (t.kind = k) _ _
    split
    · rfl
    · -- the wrong token stops the parse whether or not its line is there to be shown
      cases lines[t.line - 1]? with
      | none => rfl
      | some line => rfl

/-- A parser that looks whether the next token joins, and if so goes on after it. -/
theorem loop {r : Recognizer} {p : TokenKind → Bool} {q : TokenKind → Prop} [DecidablePred q]
    {go stop : Parse β} (hr : Shrinks r) (hp : p .eof = false)
    (hpq : q (next (kinds ts)) ↔ p (next (kinds ts)) = true)
    (hgo : ∀ t us, ts = t :: us → q t.kind → Leaves go ts (chain r p (kinds us)))
    (hstop : Leaves stop ts (some (kinds ts))) :
    Leaves (peek >>= fun k => if q k then go else stop) ts (Recognizer.loop r p (kinds ts)) := by
  refine LeavesIf.peek_bind ?_
  cases ts with
  | nil =>
    rw [if_neg (by rw [hpq, Token.kinds_nil, next, List.headD_nil, hp]; decide),
      Token.kinds_nil, loop_nil]
    exact hstop
  | cons t ts =>
    rw [Token.kinds_cons, next_cons] at hpq ⊢
    by_cases hk : q t.kind
    · rw [if_pos hk, loop_of_joins hr (hpq.1 hk)]
      exact hgo t ts rfl hk
    · rw [if_neg hk, loop_of_not (Bool.eq_false_iff.2 fun h => hk (hpq.2 h))]
      exact hstop

end Leaves

/-! ### Expressions -/

/-- The parsers of expressions with the fuel `n` are the recognizers on all short lists. -/
structure ReadsWithin (lines : List String) (n : Nat) : Prop where
  unary : ∀ {ts : List Token}, 4 * ts.length ≤ n →
    Leaves (unary (some lines) n) ts (operand (kinds ts))
  power : ∀ {ts : List Token}, 4 * ts.length + 1 ≤ n →
    Leaves (power (some lines) n) ts (chain operand (· = .caret) (kinds ts))
  factors : ∀ {ts : List Token} (l : ParseTree), next (kinds ts) ≠ .caret → 4 * ts.length + 1 ≤ n →
    Leaves (factors (some lines) n l) ts (loop operand TokenKind.isTight (kinds ts))
  term : ∀ {ts : List Token}, 4 * ts.length + 2 ≤ n →
    Leaves (term (some lines) n) ts (chain operand TokenKind.isTight (kinds ts))
  addends : ∀ {ts : List Token} (l : ParseTree), (next (kinds ts)).isTight = false →
    4 * ts.length + 1 ≤ n → Leaves (addends (some lines) n l) ts (operators (kinds ts))
  expression : ∀ {ts : List Token}, 4 * ts.length + 3 ≤ n →
    Leaves (expression (some lines) n) ts (Recognizer.expression (kinds ts))
  arguments : ∀ {ts : List Token}, 4 * ts.length + 1 ≤ n →
    Leaves (arguments (some lines) n) ts (loop Recognizer.expression (· = .comma) (kinds ts))
  call : ∀ {name opening : Token} {ts : List Token}, name.kind = .id → opening.kind = .leftParen →
    4 * ts.length + 7 ≤ n →
    Leaves (call (some lines) n) (name :: opening :: ts) (Recognizer.arguments operand (kinds ts))

namespace ReadsWithin

variable {lines : List String} {n : Nat} {us : List Token} (hn : ReadsWithin lines n)

/-- What is left after a recognizer is shorter. -/
theorem length_lt {r : Recognizer} (hr : Shrinks r) (h : r (kinds ts) = some (kinds us)) :
    us.length < ts.length := by
  have := hr h
  rwa [Token.length_kinds, Token.length_kinds] at this

/-- Behind a power stands no caret. -/
theorem next_ne_caret (h : chain operand (· = .caret) (kinds ts) = some (kinds us)) :
    next (kinds us) ≠ .caret :=
  of_decide_eq_false (next_of_chain operand_shrinks rfl h)

include hn

/-- Powers are operands with carets between them. -/
theorem power_succ (hts : 4 * ts.length + 1 ≤ n + 1) :
    Leaves (Parse.power (some lines) (n + 1)) ts (chain operand (· = .caret) (kinds ts)) := by
  rw [Parse.power]
  refine LeavesIf.bind (hn.unary (by omega)) fun base us hus => ?_
  have hlt := length_lt operand_shrinks hus
  refine Leaves.loop operand_shrinks rfl decide_eq_true_iff.symm ?_ (LeavesIf.pure rfl)
  rintro t us rfl hk
  rw [List.length_cons] at hlt
  exact LeavesIf.take_bind (Leaves.map (hn.power (by omega)))

/-- Operands, by cases on the first token. -/
theorem unary_succ (hts : 4 * ts.length ≤ n + 1) :
    Leaves (Parse.unary (some lines) (n + 1)) ts (operand (kinds ts)) := by
  rw [Parse.unary]
  refine LeavesIf.peek_bind ?_
  cases ts with
  | nil => exact fun _ => operand_nil.symm
  | cons t ts =>
    rw [List.length_cons] at hts
    rw [Token.kinds_cons, next_cons, operand_cons]
    by_cases hsign : t.kind.isSign
    · rw [if_pos hsign, if_pos hsign]
      exact LeavesIf.take_bind (Leaves.map (hn.unary (by omega)))
    rw [if_neg hsign, if_neg hsign]
    by_cases hparen : t.kind = .leftParen
    · rw [if_pos hparen, if_pos hparen]
      refine LeavesIf.take_bind (LeavesIf.bind (hn.expression (by omega)) fun inner us _ => ?_)
      exact Leaves.map (Leaves.eat lines .rightParen)
    rw [if_neg hparen, if_neg hparen]
    refine LeavesIf.ahead_one_bind ?_
    by_cases hcall : t.kind = .id ∧ next (kinds ts) = .leftParen
    · have hcond : (t.kind = .id && next (kinds ts) = .leftParen) = true := by simp [hcall]
      rw [if_pos hcond, if_pos hcond]
      cases ts with
      | nil => cases hcall.2
      | cons opening ts =>
        rw [List.length_cons] at hts
        exact Leaves.map (hn.call hcall.1 hcall.2 (by omega))
    · have hcond : ¬(t.kind = .id && next (kinds ts) = .leftParen) = true := by simpa using hcall
      rw [if_neg hcond, if_neg hcond]
      exact LeavesIf.take_bind (LeavesIf.pure rfl)

/-- Factors behind a tree are operands behind tight operators. -/
theorem factors_succ (l : ParseTree) (hne : next (kinds ts) ≠ .caret)
    (hts : 4 * ts.length + 1 ≤ n + 1) :
    Leaves (Parse.factors (some lines) (n + 1) l) ts
      (loop operand TokenKind.isTight (kinds ts)) := by
  rw [Parse.factors]
  refine Leaves.loop operand_shrinks rfl (by simp [TokenKind.isTight, hne]) ?_ (LeavesIf.pure rfl)
  rintro t us rfl hk
  rw [List.length_cons] at hts
  rw [← chain_caret_bind]
  refine LeavesIf.take_bind (LeavesIf.bind (hn.power (by omega)) fun r vs hvs => ?_)
  have hlt := length_lt (chain_shrinks operand_shrinks) hvs
  exact hn.factors _ (next_ne_caret hvs) (by omega)

/-- Terms are operands with tight operators between them. -/
theorem term_succ (hts : 4 * ts.length + 2 ≤ n + 1) :
    Leaves (Parse.term (some lines) (n + 1)) ts (chain operand TokenKind.isTight (kinds ts)) := by
  rw [Parse.term, ← chain_caret_bind]
  refine LeavesIf.bind (hn.power (by omega)) fun l us hus => ?_
  have hlt := length_lt (chain_shrinks operand_shrinks) hus
  exact hn.factors _ (next_ne_caret hus) (by omega)

/-- Addends behind a tree are operands behind any operators. -/
theorem addends_succ (l : ParseTree) (hne : (next (kinds ts)).isTight = false)
    (hts : 4 * ts.length + 1 ≤ n + 1) :
    Leaves (Parse.addends (some lines) (n + 1) l) ts (operators (kinds ts)) := by
  rw [Parse.addends]
  have hjoins : (next (kinds ts)).isSign ↔ (next (kinds ts)).isOperator := by
    rw [TokenKind.isTight] at hne
    rw [TokenKind.isOperator, Bool.or_assoc, hne, Bool.or_false]
  refine Leaves.loop operand_shrinks rfl hjoins ?_ (LeavesIf.pure rfl)
  rintro t us rfl hk
  rw [List.length_cons] at hts
  change Leaves _ _ (Recognizer.expression (kinds us))
  rw [← chain_tight_bind]
  refine LeavesIf.take_bind (LeavesIf.bind (hn.term (by omega)) fun r vs hvs => ?_)
  have hlt := length_lt (chain_shrinks operand_shrinks) hvs
  exact hn.addends _ (next_of_chain operand_shrinks rfl hvs) (by omega)

/-- Expressions are operands with operators between them. -/
theorem expression_succ (hts : 4 * ts.length + 3 ≤ n + 1) :
    Leaves (Parse.expression (some lines) (n + 1)) ts (Recognizer.expression (kinds ts)) := by
  rw [Parse.expression, ← chain_tight_bind]
  refine LeavesIf.bind (hn.term (by omega)) fun l us hus => ?_
  have hlt := length_lt (chain_shrinks operand_shrinks) hus
  exact hn.addends _ (next_of_chain operand_shrinks rfl hus) (by omega)

/-- Further arguments are expressions behind commas. -/
theorem arguments_succ (hts : 4 * ts.length + 1 ≤ n + 1) :
    Leaves (Parse.arguments (some lines) (n + 1)) ts
      (loop Recognizer.expression (· = .comma) (kinds ts)) := by
  rw [Parse.arguments]
  refine Leaves.loop expression_shrinks rfl decide_eq_true_iff.symm ?_ (LeavesIf.pure rfl)
  rintro t us rfl hk
  rw [List.length_cons] at hts
  refine LeavesIf.eat_bind hk (LeavesIf.bind (hn.expression (by omega)) fun first vs hvs => ?_)
  have hlt := length_lt expression_shrinks hvs
  exact Leaves.map (hn.arguments (by omega))

/-- A call is a list of arguments in parentheses behind the name. -/
theorem call_succ {name opening : Token} (hname : name.kind = .id)
    (hopening : opening.kind = .leftParen) (hts : 4 * ts.length + 7 ≤ n + 1) :
    Leaves (Parse.call (some lines) (n + 1)) (name :: opening :: ts)
      (Recognizer.arguments operand (kinds ts)) := by
  rw [Parse.call, Recognizer.arguments]
  refine LeavesIf.eat_bind hname (LeavesIf.eat_bind hopening (LeavesIf.peek_bind ?_))
  by_cases hk : next (kinds ts) = .rightParen
  · rw [if_pos hk, if_pos hk]
    cases ts with
    | nil => cases hk
    | cons closing ts => exact LeavesIf.eat_bind hk (LeavesIf.pure rfl)
  · rw [if_neg hk, if_neg hk, chain, Option.bind_assoc]
    refine LeavesIf.bind (hn.expression (by omega)) fun first us hus => ?_
    have hlt := length_lt expression_shrinks hus
    refine LeavesIf.bind (hn.arguments (by omega)) fun rest vs _ => ?_
    exact Leaves.map (Leaves.eat lines .rightParen)

end ReadsWithin

/-- The parser for expressions leaves what the recognizer leaves, by induction on the fuel. -/
theorem readsWithin (lines : List String) (n : Nat) : ReadsWithin lines n := by
  induction n with
  | zero =>
    refine ⟨fun {ts} h => ?_, ?_, ?_, ?_, ?_, ?_, ?_, ?_⟩
    · have hnil : ts = [] := List.eq_nil_of_length_eq_zero (by omega)
      rw [hnil]
      exact fun _ => operand_nil.symm
    all_goals
      intros
      omega
  | succ n hn =>
    exact ⟨hn.unary_succ, hn.power_succ, hn.factors_succ, hn.term_succ, hn.addends_succ,
      hn.expression_succ, hn.arguments_succ, hn.call_succ⟩

/-! ### Conditions -/

/-- An attempt that declines or stops, but not for want of fuel, is as if it had not been made. -/
theorem LeavesIf.attempt_bind {p : Parse (Option ParseTree)}
    {f : Option ParseTree → Parse β} {k : Nat}
    {o' : Option (List TokenKind)} (hends : Settles k p p ts) (hp : LeavesIf Option.isSome p ts o)
    (hsome : ∀ t us, LeavesIf wanted (f (some t)) us (some (kinds us)))
    (hnone : LeavesIf wanted (f none) ts o') : LeavesIf wanted (attempt p >>= f) ts (o.or o') := by
  intro reports
  have hp := hp reports
  have hended := (hends reports).2
  -- the attempt runs `p` once, from here
  change leftOver wanted
    ((attempt (ExceptT.mk fun _ => p.run.run ⟨ts, reports⟩) >>= f).run.run ⟨ts, reports⟩) = _
  generalize p.run.run ⟨ts, reports⟩ = run at hp hended
  obtain ⟨stop | _ | t, us, reports'⟩ := run
  · rw [← hp]
    cases stop with
    | endless => exact absurd rfl hended
    | _ => exact hnone reports'
  · rw [← hp]
    exact hnone reports'
  · rw [← hp]
    exact hsome t us reports'

/-- The parsers of conditions with the fuel `n` are the recognizers on all short lists. -/
structure DecidesWithin (lines : List String) (n : Nat) : Prop where
  simple : ∀ {ts : List Token}, 4 * ts.length + 6 ≤ n →
    Leaves (simpleCondition (some lines) n) ts (Recognizer.simple (kinds ts))
  conjuncts : ∀ {ts : List Token} (l : ParseTree), 4 * ts.length + 3 ≤ n →
    Leaves (conjuncts (some lines) n l) ts (loop Recognizer.simple (· = .and) (kinds ts))
  conjunction : ∀ {ts : List Token}, 4 * ts.length + 7 ≤ n →
    Leaves (conjunction (some lines) n) ts (chain Recognizer.simple (· = .and) (kinds ts))
  disjuncts : ∀ {ts : List Token} (l : ParseTree), next (kinds ts) ≠ .and → 4 * ts.length + 4 ≤ n →
    Leaves (disjuncts (some lines) n l) ts (connectives (kinds ts))
  condition : ∀ {ts : List Token}, 4 * ts.length + 8 ≤ n →
    Leaves (condition (some lines) n) ts (Recognizer.condition (kinds ts))
  grouped : ∀ {opening : Token} {ts : List Token}, 4 * ts.length + 9 ≤ n →
    LeavesIf Option.isSome (groupedCondition (some lines) n) (opening :: ts)
      ((Recognizer.condition (kinds ts)).bind close)

/-- Comparisons are two expressions with any one token between them. -/
theorem leaves_comparison {lines : List String} {n : Nat} (hts : 4 * ts.length + 3 ≤ n) :
    Leaves (comparison (some lines) n) ts (Recognizer.comparison (kinds ts)) := by
  have hn := readsWithin lines n
  rw [comparison, Recognizer.comparison, Option.bind_assoc]
  refine LeavesIf.bind (hn.expression (by omega)) fun l us hus => ?_
  have hlt := ReadsWithin.length_lt expression_shrinks hus
  refine LeavesIf.bind Leaves.take fun op vs hvs => ?_
  have hlt' := ReadsWithin.length_lt takeAny_shrinks hvs
  exact Leaves.map (hn.expression (by omega))

namespace DecidesWithin

variable {lines : List String} {n : Nat} (hn : DecidesWithin lines n)

include hn

/-- Simple conditions, by cases on the first token. -/
theorem simple_succ (hts : 4 * ts.length + 6 ≤ n + 1) :
    Leaves (simpleCondition (some lines) (n + 1)) ts (Recognizer.simple (kinds ts)) := by
  rw [simpleCondition]
  refine LeavesIf.peek_bind ?_
  cases ts with
  | nil =>
    rw [Token.kinds_nil, simple_nil]
    exact leaves_comparison (by omega)
  | cons t ts =>
    rw [Token.kinds_cons, next_cons, simple_cons, TokenKind.isTruthValue]
    by_cases hnot : t.kind = .not
    · rw [if_pos hnot, if_pos hnot]
      rw [List.length_cons] at hts
      exact LeavesIf.take_bind (Leaves.map (hn.simple (by omega)))
    rw [if_neg hnot, if_neg hnot]
    by_cases htruth : (t.kind = .true || t.kind = .false) = true
    · rw [if_pos htruth, if_pos htruth]
      exact LeavesIf.take_bind (LeavesIf.pure rfl)
    rw [if_neg htruth, if_neg htruth]
    have hcomparison : Leaves (comparison (some lines) n) (t :: ts)
        (Recognizer.comparison (t.kind :: kinds ts)) := leaves_comparison (by omega)
    by_cases hparen : t.kind = .leftParen
    · rw [if_pos hparen, if_pos hparen]
      have hends := (settlesConditions (some lines) n n).grouped
        (show 4 * (t :: ts).length + 5 ≤ min n n by omega)
      rw [List.length_cons] at hts
      exact LeavesIf.attempt_bind hends (hn.grouped (by omega))
        (fun t us => LeavesIf.pure rfl) hcomparison
    · rw [if_neg hparen, if_neg hparen]
      exact hcomparison

/-- Further conjuncts are simple conditions behind their connective. -/
theorem conjuncts_succ (l : ParseTree) (hts : 4 * ts.length + 3 ≤ n + 1) :
    Leaves (Parse.conjuncts (some lines) (n + 1) l) ts
      (loop Recognizer.simple (· = .and) (kinds ts)) := by
  rw [Parse.conjuncts]
  refine Leaves.loop simple_shrinks rfl decide_eq_true_iff.symm ?_ (LeavesIf.pure rfl)
  rintro t us rfl hk
  rw [List.length_cons] at hts
  refine LeavesIf.take_bind (LeavesIf.bind (hn.simple (by omega)) fun r vs hvs => ?_)
  have hlt := ReadsWithin.length_lt simple_shrinks hvs
  exact hn.conjuncts _ (by omega)

/-- Conjunctions are simple conditions with one connective between them. -/
theorem conjunction_succ (hts : 4 * ts.length + 7 ≤ n + 1) :
    Leaves (Parse.conjunction (some lines) (n + 1)) ts
      (chain Recognizer.simple (· = .and) (kinds ts)) := by
  rw [Parse.conjunction]
  refine LeavesIf.bind (hn.simple (by omega)) fun l us hus => ?_
  have hlt := ReadsWithin.length_lt simple_shrinks hus
  exact hn.conjuncts _ (by omega)

/-- Alternatives behind a tree are simple conditions behind any connectives. -/
theorem disjuncts_succ (l : ParseTree) (hne : next (kinds ts) ≠ .and)
    (hts : 4 * ts.length + 4 ≤ n + 1) :
    Leaves (Parse.disjuncts (some lines) (n + 1) l) ts (connectives (kinds ts)) := by
  rw [Parse.disjuncts]
  have hjoins : next (kinds ts) = .or ↔ (next (kinds ts)).isConnective := by
    rw [TokenKind.isConnective_iff, or_iff_right hne]
  refine Leaves.loop simple_shrinks rfl hjoins ?_ (LeavesIf.pure rfl)
  rintro t us rfl hk
  rw [List.length_cons] at hts
  change Leaves _ _ (Recognizer.condition (kinds us))
  rw [← chain_and_bind]
  refine LeavesIf.take_bind (LeavesIf.bind (hn.conjunction (by omega)) fun r vs hvs => ?_)
  have hlt := ReadsWithin.length_lt (chain_shrinks simple_shrinks) hvs
  exact hn.disjuncts _ (of_decide_eq_false (next_of_chain simple_shrinks rfl hvs)) (by omega)

/-- Conditions are simple conditions with connectives between them. -/
theorem condition_succ (hts : 4 * ts.length + 8 ≤ n + 1) :
    Leaves (Parse.condition (some lines) (n + 1)) ts (Recognizer.condition (kinds ts)) := by
  rw [Parse.condition, ← chain_and_bind]
  refine LeavesIf.bind (hn.conjunction (by omega)) fun l us hus => ?_
  have hlt := ReadsWithin.length_lt (chain_shrinks simple_shrinks) hus
  exact hn.disjuncts _ (of_decide_eq_false (next_of_chain simple_shrinks rfl hus)) (by omega)

/-- A condition in parentheses is accepted just where the recognizer finds one that is closed. -/
theorem grouped_succ {opening : Token} (hts : 4 * ts.length + 9 ≤ n + 1) :
    LeavesIf Option.isSome (groupedCondition (some lines) (n + 1)) (opening :: ts)
      ((Recognizer.condition (kinds ts)).bind close) := by
  rw [groupedCondition]
  refine LeavesIf.take_bind (LeavesIf.bind (hn.condition (by omega)) fun inner us _ => ?_)
  refine LeavesIf.peek_bind ?_
  rw [close]
  cases us with
  | nil => exact fun _ => rfl
  | cons closing us =>
    rw [Token.kinds_cons, next_cons, List.tail_cons]
    by_cases hk : closing.kind = .rightParen
    · rw [if_pos hk, decide_eq_true hk, Bool.true_and]
      refine LeavesIf.take_bind (LeavesIf.peek_bind ?_)
      by_cases hfollows : (next (kinds us)).followsCondition
      · rw [if_pos hfollows, if_pos hfollows]
        exact LeavesIf.pure rfl
      · rw [if_neg hfollows, if_neg hfollows]
        exact fun _ => rfl
    · rw [if_neg hk, decide_eq_false hk, Bool.false_and]
      exact fun _ => rfl

end DecidesWithin

/-- The parser for conditions leaves what the recognizer leaves, by induction on the fuel. -/
theorem decidesWithin (lines : List String) (n : Nat) : DecidesWithin lines n := by
  induction n with
  | zero =>
    constructor
    all_goals
      intros
      omega
  | succ n hn =>
    exact ⟨hn.simple_succ, hn.conjuncts_succ, hn.conjunction_succ, hn.disjuncts_succ,
      hn.condition_succ, hn.grouped_succ⟩

end Parse

end SymScript
