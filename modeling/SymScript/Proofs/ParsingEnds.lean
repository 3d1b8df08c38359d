import SymScript.ParseTree.Parser

/-!
# Parsing ends

Every parse ends, with a tree or by stopping, whatever the text is and whether wrong tokens are
reported or taken.  The depth of its calls is linear in the number of tokens that are left when it
starts: a call is made after a token has been taken, or it is one of a few that are made in a row at
the same place.

The loops are covered by the same count, since every round takes a token or stops: after the last
token nothing can be taken.  An attempt may read the same tokens twice, but not deeper; running out
of fuel is not lost in it.
-/

namespace SymScript.Parse

variable {α β : Type} {watch : Watch} {n m k : Nat} {ts : List Token}

/-! ### Two parses with fuel to spare -/

/-- A result that leaves fewer than `k` tokens, or a stop that is not for want of fuel. -/
def Ended (k : Nat) : Except ParseStop α × Reading → Prop
  | (.ok _, r) => r.rest.length < k
  | (.error stop, _) => stop ≠ .endless

/-- Both parses of the tokens `ts` come to the same end. -/
def Settles (k : Nat) (p q : Parse α) (ts : List Token) : Prop :=
  ∀ reports, p.run.run ⟨ts, reports⟩ = q.run.run ⟨ts, reports⟩ ∧ Ended k (p.run.run ⟨ts, reports⟩)

namespace Settles

variable {j : Nat} {p q : Parse α}

/-- A parse that gives a value does not need fuel. -/
protected theorem pure (a : α) (h : ts.length < k) : Settles k (pure a) (pure a) ts :=
  fun _ => ⟨rfl, h⟩

/-- Parses in a row settle if each does, on the tokens that the one before it leaves. -/
protected theorem bind {f g : α → Parse β} (hp : Settles j p q ts)
    (hf : ∀ a us, us.length < j → Settles k (f a) (g a) us) : Settles k (p >>= f) (q >>= g) ts := by
  intro reports
  obtain ⟨heq, hended⟩ := hp reports
  rw [ExceptT.run_bind, StateT.run_bind, ExceptT.run_bind, StateT.run_bind, ← heq]
  generalize p.run.run ⟨ts, reports⟩ = run at hended
  obtain ⟨stop | a, us, reports'⟩ := run
  · exact ⟨rfl, hended⟩
  · exact hf a us hended reports'

/-- Leaving fewer tokens than fewer is leaving fewer. -/
theorem mono (h : Settles j p q ts) (hjk : j ≤ k) : Settles k p q ts := by
  intro reports
  obtain ⟨heq, hended⟩ := h reports
  refine ⟨heq, ?_⟩
  generalize p.run.run ⟨ts, reports⟩ = run at hended
  obtain ⟨stop | a, us, reports'⟩ := run
  · exact hended
  · exact Nat.lt_of_lt_of_le hended hjk

/-- A choice settles if both sides do. -/
protected theorem ite {c : Prop} [Decidable c] {p' q' : Parse α} (hp : Settles k p q ts)
    (hp' : Settles k p' q' ts) : Settles k (if c then p else p') (if c then q else q') ts := by
  split
  · exact hp
  · exact hp'

/-- A first part that only looks ahead. -/
theorem ahead_bind (i : Nat) {f g : TokenKind → Parse α}
    (h : ∀ kind, Settles k (f kind) (g kind) ts) :
    Settles k (ahead i >>= f) (ahead i >>= g) ts := fun reports => h _ reports

/-- Looking ahead does not need fuel. -/
theorem peek_bind {f g : TokenKind → Parse α} (h : ∀ kind, Settles k (f kind) (g kind) ts) :
    Settles k (peek >>= f) (peek >>= g) ts := ahead_bind 0 h

theorem take : Settles ts.length take take ts := by
  intro reports
  refine ⟨rfl, ?_⟩
  cases ts with
  | nil => exact ParseStop.noConfusion
  | cons t ts => exact Nat.lt_succ_self _

/-- Taking a token of a kind leaves fewer tokens. -/
theorem eat (watch : Watch) (kind : TokenKind) :
    Settles ts.length (eat watch kind) (eat watch kind) ts := by
  intro reports
  refine ⟨rfl, ?_⟩
  cases ts with
  | nil => cases watch <;> exact ParseStop.noConfusion
  | cons t ts =>
    cases watch with
    | none => exact Nat.lt_succ_self _
    | some lines =>
      change Ended _ ((ite (t.kind = kind) Parse.take _).run.run ⟨t :: ts, reports⟩)
      split
      · exact Nat.lt_succ_self _
      · -- a wrong token stops the parse whether or not its line is there to be shown
        cases lines[t.line - 1]? with
        | none => exact ParseStop.noConfusion
        | some line => exact ParseStop.noConfusion

/-- An attempt that declines or stops goes on from where it started. -/
theorem attempt_bind {p q : Parse (Option ParseTree)} {f g : Option ParseTree → Parse α}
    (hp : Settles j p q ts) (hsome : ∀ t us, us.length < j → Settles k (f (some t)) (g (some t)) us)
    (hnone : Settles k (f none) (g none) ts) :
    Settles k (attempt p >>= f) (attempt q >>= g) ts := by
  intro reports
  obtain ⟨heq, hended⟩ := hp reports
  -- the attempts run `p` and `q` once, from here
  change ((attempt (ExceptT.mk fun _ => p.run.run ⟨ts, reports⟩) >>= f).run.run ⟨ts, reports⟩ =
    (attempt (ExceptT.mk fun _ => q.run.run ⟨ts, reports⟩) >>= g).run.run ⟨ts, reports⟩) ∧
    Ended k ((attempt (ExceptT.mk fun _ => p.run.run ⟨ts, reports⟩) >>= f).run.run ⟨ts, reports⟩)
  rw [← heq]
  generalize p.run.run ⟨ts, reports⟩ = run at hended
  obtain ⟨stop | _ | t, us, reports'⟩ := run
  · cases stop with
    | endless => exact absurd rfl hended
    | _ => exact hnone reports'
  · exact hnone reports'
  · exact hsome t us hended reports'

end Settles

/-! ### Expressions -/

/-- The parsers of expressions settle within the fuels `n` and `m`. -/
structure SettlesExpressions (watch : Watch) (n m : Nat) : Prop where
  unary : ∀ {ts}, 4 * ts.length + 2 ≤ min n m → Settles ts.length (unary watch n) (unary watch m) ts
  power : ∀ {ts}, 4 * ts.length + 3 ≤ min n m → Settles ts.length (power watch n) (power watch m) ts
  factors : ∀ {ts} l, 4 * ts.length + 1 ≤ min n m →
    Settles (ts.length + 1) (factors watch n l) (factors watch m l) ts
  term : ∀ {ts}, 4 * ts.length + 4 ≤ min n m → Settles ts.length (term watch n) (term watch m) ts
  addends : ∀ {ts} l, 4 * ts.length + 1 ≤ min n m →
    Settles (ts.length + 1) (addends watch n l) (addends watch m l) ts
  expression : ∀ {ts}, 4 * ts.length + 5 ≤ min n m →
    Settles ts.length (expression watch n) (expression watch m) ts
  call : ∀ {ts}, 4 * ts.length + 1 ≤ min n m → Settles ts.length (call watch n) (call watch m) ts
  arguments : ∀ {ts}, 4 * ts.length + 2 ≤ min n m →
    Settles (ts.length + 1) (arguments watch n) (arguments watch m) ts

namespace SettlesExpressions

variable (h : SettlesExpressions watch n m)

include h

/-- Operands settle, by cases on the first token. -/
theorem unary_succ (hts : 4 * ts.length + 2 ≤ min (n + 1) (m + 1)) :
    Settles ts.length (Parse.unary watch (n + 1)) (Parse.unary watch (m + 1)) ts := by
  rw [Parse.unary, Parse.unary]
  refine Settles.peek_bind fun kind => Settles.ite ?signed (Settles.ite ?grouped
    (Settles.ahead_bind 1 fun next => Settles.ite ?called ?single))
  case signed =>
    refine Settles.take.bind fun sign us hus => ?_
    refine (h.unary (by omega)).bind fun inner vs hvs => Settles.pure _ (by omega)
  case grouped =>
    refine Settles.take.bind fun opening us hus => (h.expression (by omega)).bind
      fun inner vs hvs => ?_
    exact (Settles.eat watch _).bind fun closing ws hws => Settles.pure _ (by omega)
  case called => exact (h.call (by omega)).bind fun inner us hus => Settles.pure _ hus
  case single => exact Settles.take.bind fun token us hus => Settles.pure _ hus

/-- Powers settle: the exponent has fewer tokens than the power. -/
theorem power_succ (hts : 4 * ts.length + 3 ≤ min (n + 1) (m + 1)) :
    Settles ts.length (Parse.power watch (n + 1)) (Parse.power watch (m + 1)) ts := by
  rw [Parse.power, Parse.power]
  refine (h.unary (by omega)).bind fun base us hus => Settles.peek_bind fun kind =>
    Settles.ite ?_ ?_
  · refine Settles.take.bind fun operator vs hvs => ?_
    exact (h.power (by omega)).bind fun exponent ws hws => Settles.pure _ (by omega)
  · exact Settles.pure _ hus

/-- A round of a loop takes at least the operator. -/
theorem factors_succ (l : ParseTree) (hts : 4 * ts.length + 1 ≤ min (n + 1) (m + 1)) :
    Settles (ts.length + 1) (Parse.factors watch (n + 1) l) (Parse.factors watch (m + 1) l) ts := by
  rw [Parse.factors, Parse.factors]
  refine Settles.peek_bind fun kind => Settles.ite ?_ (Settles.pure _ (Nat.lt_succ_self _))
  refine Settles.take.bind fun operator us hus => (h.power (by omega)).bind fun right vs hvs => ?_
  exact (h.factors _ (by omega)).mono (by omega)

/-- Terms settle: the factors behind the first have fewer tokens. -/
theorem term_succ (hts : 4 * ts.length + 4 ≤ min (n + 1) (m + 1)) :
    Settles ts.length (Parse.term watch (n + 1)) (Parse.term watch (m + 1)) ts := by
  rw [Parse.term, Parse.term]
  refine (h.power (by omega)).bind fun left us hus => ?_
  exact (h.factors left (by omega)).mono hus

/-- Addends behind a tree settle, also if there are none. -/
theorem addends_succ (l : ParseTree) (hts : 4 * ts.length + 1 ≤ min (n + 1) (m + 1)) :
    Settles (ts.length + 1) (Parse.addends watch (n + 1) l) (Parse.addends watch (m + 1) l) ts := by
  rw [Parse.addends, Parse.addends]
  refine Settles.peek_bind fun kind => Settles.ite ?_ (Settles.pure _ (Nat.lt_succ_self _))
  refine Settles.take.bind fun operator us hus => (h.term (by omega)).bind fun right vs hvs => ?_
  exact (h.addends _ (by omega)).mono (by omega)

/-- Expressions settle: the addends behind the first have fewer tokens. -/
theorem expression_succ (hts : 4 * ts.length + 5 ≤ min (n + 1) (m + 1)) :
    Settles ts.length (Parse.expression watch (n + 1)) (Parse.expression watch (m + 1)) ts := by
  rw [Parse.expression, Parse.expression]
  refine (h.term (by omega)).bind fun left us hus => ?_
  exact (h.addends left (by omega)).mono hus

/-- Calls settle: the arguments have fewer tokens than the call. -/
theorem call_succ (hts : 4 * ts.length + 1 ≤ min (n + 1) (m + 1)) :
    Settles ts.length (Parse.call watch (n + 1)) (Parse.call watch (m + 1)) ts := by
  rw [Parse.call, Parse.call]
  refine (Settles.eat watch _).bind fun name us hus => (Settles.eat watch _).bind
    fun opening vs hvs =>
    Settles.peek_bind fun kind => Settles.ite ?_ ?_
  · exact (Settles.eat watch _).bind fun closing ws hws => Settles.pure _ (by omega)
  · refine (h.expression (by omega)).bind fun first ws hws => (h.arguments (by omega)).bind
      fun rest xs hxs => ?_
    exact (Settles.eat watch _).bind fun closing ys hys => Settles.pure _ (by omega)

/-- Further arguments settle, also if there are none. -/
theorem arguments_succ (hts : 4 * ts.length + 2 ≤ min (n + 1) (m + 1)) :
    Settles (ts.length + 1) (Parse.arguments watch (n + 1)) (Parse.arguments watch (m + 1)) ts := by
  rw [Parse.arguments, Parse.arguments]
  refine Settles.peek_bind fun kind => Settles.ite ?_ (Settles.pure _ (Nat.lt_succ_self _))
  refine (Settles.eat watch _).bind fun comma us hus => (h.expression (by omega)).bind
    fun next vs hvs => ?_
  exact (h.arguments (by omega)).bind fun rest ws hws => Settles.pure _ (by omega)

end SettlesExpressions

/-- All parses for expressions settle, by induction on both amounts of fuel. -/
theorem settlesExpressions (watch : Watch) (n m : Nat) : SettlesExpressions watch n m := by
  induction n generalizing m with
  | zero =>
    constructor
    all_goals
      intros
      omega
  | succ n ih =>
    cases m with
    | zero =>
      constructor
      all_goals
        intros
        omega
    | succ m =>
      have h := ih m
      exact ⟨h.unary_succ, h.power_succ, h.factors_succ, h.term_succ, h.addends_succ,
        h.expression_succ, h.call_succ, h.arguments_succ⟩

/-! ### Conditions -/

/-- Comparisons settle if the expressions on both sides do. -/
theorem settles_comparison (hts : 4 * ts.length + 5 ≤ min n m) :
    Settles ts.length (comparison watch n) (comparison watch m) ts := by
  have h := settlesExpressions watch n m
  refine (h.expression hts).bind fun left us hus => Settles.take.bind fun operator vs hvs => ?_
  exact (h.expression (by omega)).bind fun right ws hws => Settles.pure _ (by omega)

/-- The parsers of conditions settle within the fuels `n` and `m`. -/
structure SettlesConditions (watch : Watch) (n m : Nat) : Prop where
  simple : ∀ {ts}, 4 * ts.length + 6 ≤ min n m →
    Settles ts.length (simpleCondition watch n) (simpleCondition watch m) ts
  conjuncts : ∀ {ts} l, 4 * ts.length + 3 ≤ min n m →
    Settles (ts.length + 1) (conjuncts watch n l) (conjuncts watch m l) ts
  conjunction : ∀ {ts}, 4 * ts.length + 7 ≤ min n m →
    Settles ts.length (conjunction watch n) (conjunction watch m) ts
  disjuncts : ∀ {ts} l, 4 * ts.length + 4 ≤ min n m →
    Settles (ts.length + 1) (disjuncts watch n l) (disjuncts watch m l) ts
  condition : ∀ {ts}, 4 * ts.length + 8 ≤ min n m →
    Settles ts.length (condition watch n) (condition watch m) ts
  grouped : ∀ {ts}, 4 * ts.length + 5 ≤ min n m →
    Settles ts.length (groupedCondition watch n) (groupedCondition watch m) ts

namespace SettlesConditions

variable (h : SettlesConditions watch n m)

include h

/-- The tokens of an attempt are read once more as a comparison, from the same place. -/
theorem simple_succ (hts : 4 * ts.length + 6 ≤ min (n + 1) (m + 1)) :
    Settles ts.length (simpleCondition watch (n + 1)) (simpleCondition watch (m + 1)) ts := by
  have hcomparison : Settles ts.length (comparison watch n) (comparison watch m) ts :=
    settles_comparison (by omega)
  rw [simpleCondition, simpleCondition]
  refine Settles.peek_bind fun kind =>
    Settles.ite ?negation (Settles.ite ?truth (Settles.ite ?_ hcomparison))
  case negation =>
    refine Settles.take.bind fun operator us hus => ?_
    exact (h.simple (by omega)).bind fun inner vs hvs => Settles.pure _ (by omega)
  case truth => exact Settles.take.bind fun word us hus => Settles.pure _ hus
  exact Settles.attempt_bind (h.grouped (by omega)) (fun t us hus => Settles.pure t hus) hcomparison

/-- Further conjuncts settle, also if there are none. -/
theorem conjuncts_succ (l : ParseTree) (hts : 4 * ts.length + 3 ≤ min (n + 1) (m + 1)) :
    Settles (ts.length + 1) (Parse.conjuncts watch (n + 1) l)
      (Parse.conjuncts watch (m + 1) l) ts := by
  rw [Parse.conjuncts, Parse.conjuncts]
  refine Settles.peek_bind fun kind => Settles.ite ?_ (Settles.pure _ (Nat.lt_succ_self _))
  refine Settles.take.bind fun operator us hus => (h.simple (by omega)).bind fun right vs hvs => ?_
  exact (h.conjuncts _ (by omega)).mono (by omega)

/-- Conjunctions settle: the conjuncts behind the first have fewer tokens. -/
theorem conjunction_succ (hts : 4 * ts.length + 7 ≤ min (n + 1) (m + 1)) :
    Settles ts.length (Parse.conjunction watch (n + 1)) (Parse.conjunction watch (m + 1)) ts := by
  rw [Parse.conjunction, Parse.conjunction]
  refine (h.simple (by omega)).bind fun left us hus => ?_
  exact (h.conjuncts left (by omega)).mono hus

/-- Further alternatives settle, also if there are none. -/
theorem disjuncts_succ (l : ParseTree) (hts : 4 * ts.length + 4 ≤ min (n + 1) (m + 1)) :
    Settles (ts.length + 1) (Parse.disjuncts watch (n + 1) l)
      (Parse.disjuncts watch (m + 1) l) ts := by
  rw [Parse.disjuncts, Parse.disjuncts]
  refine Settles.peek_bind fun kind => Settles.ite ?_ (Settles.pure _ (Nat.lt_succ_self _))
  refine Settles.take.bind fun operator us hus => (h.conjunction (by omega)).bind
    fun right vs hvs => ?_
  exact (h.disjuncts _ (by omega)).mono (by omega)

/-- Conditions settle: the alternatives behind the first have fewer tokens. -/
theorem condition_succ (hts : 4 * ts.length + 8 ≤ min (n + 1) (m + 1)) :
    Settles ts.length (Parse.condition watch (n + 1)) (Parse.condition watch (m + 1)) ts := by
  rw [Parse.condition, Parse.condition]
  refine (h.conjunction (by omega)).bind fun left us hus => ?_
  exact (h.disjuncts left (by omega)).mono hus

/-- A condition in parentheses settles, whether it is accepted or declined. -/
theorem grouped_succ (hts : 4 * ts.length + 5 ≤ min (n + 1) (m + 1)) :
    Settles ts.length (groupedCondition watch (n + 1)) (groupedCondition watch (m + 1)) ts := by
  rw [groupedCondition, groupedCondition]
  refine Settles.take.bind fun opening us hus => (h.condition (by omega)).bind
    fun inner vs hvs => ?_
  refine Settles.peek_bind fun kind => Settles.ite ?_ (Settles.pure _ (by omega))
  refine Settles.take.bind fun closing ws hws => Settles.peek_bind fun next => Settles.ite ?_ ?_
  · exact Settles.pure _ (by omega)
  · exact Settles.pure _ (by omega)

end SettlesConditions

/-- All parses for conditions settle, by induction on both amounts of fuel. -/
theorem settlesConditions (watch : Watch) (n m : Nat) : SettlesConditions watch n m := by
  induction n generalizing m with
  | zero =>
    constructor
    all_goals
      intros
      omega
  | succ n ih =>
    cases m with
    | zero =>
      constructor
      all_goals
        intros
        omega
    | succ m =>
      have h := ih m
      exact ⟨h.simple_succ, h.conjuncts_succ, h.conjunction_succ, h.disjuncts_succ,
        h.condition_succ, h.grouped_succ⟩

/-! ### Instructions and functions -/

/-- The parsers of blocks and instructions settle within the fuels `n` and `m`. -/
structure SettlesInstructions (watch : Watch) (n m : Nat) : Prop where
  block : ∀ {ts}, 4 * ts.length + 3 ≤ min n m → Settles ts.length (block watch n) (block watch m) ts
  instructions : ∀ {ts}, 4 * ts.length + 6 ≤ min n m →
    Settles (ts.length + 1) (instructions watch n) (instructions watch m) ts
  instruction : ∀ {ts}, 4 * ts.length + 5 ≤ min n m →
    Settles ts.length (instruction watch n) (instruction watch m) ts

namespace SettlesInstructions

variable (h : SettlesInstructions watch n m)

include h

/-- Blocks settle: the instructions between the braces have fewer tokens. -/
theorem block_succ (hts : 4 * ts.length + 3 ≤ min (n + 1) (m + 1)) :
    Settles ts.length (Parse.block watch (n + 1)) (Parse.block watch (m + 1)) ts := by
  rw [Parse.block, Parse.block]
  refine (Settles.eat watch _).bind fun opening us hus => (h.instructions (by omega)).bind
    fun inner vs hvs => ?_
  exact (Settles.eat watch _).bind fun closing ws hws => Settles.pure _ (by omega)

/-- At the end of the tokens an instruction is still wanted, and there the loop stops. -/
theorem instructions_succ (hts : 4 * ts.length + 6 ≤ min (n + 1) (m + 1)) :
    Settles (ts.length + 1) (Parse.instructions watch (n + 1))
      (Parse.instructions watch (m + 1)) ts := by
  rw [Parse.instructions, Parse.instructions]
  refine Settles.peek_bind fun kind => Settles.ite (Settles.pure _ (Nat.lt_succ_self _)) ?_
  refine (h.instruction (by omega)).bind fun first us hus => ?_
  exact (h.instructions (by omega)).bind fun rest vs hvs => Settles.pure _ (by omega)

/-- Instructions settle, by cases on the word that they begin with. -/
theorem instruction_succ (hts : 4 * ts.length + 5 ≤ min (n + 1) (m + 1)) :
    Settles ts.length (Parse.instruction watch (n + 1)) (Parse.instruction watch (m + 1)) ts := by
  have hexpression {us : List Token} (hus : us.length < ts.length) :
      Settles us.length (expression watch n) (expression watch m) us :=
    (settlesExpressions watch n m).expression (by omega)
  have hcondition {us : List Token} (hus : us.length < ts.length) :
      Settles us.length (condition watch n) (condition watch m) us :=
    (settlesConditions watch n m).condition (by omega)
  rw [Parse.instruction, Parse.instruction]
  refine Settles.peek_bind fun kind => ?_
  split
  case h_1 =>
    refine Settles.take.bind fun keyword us hus => (Settles.eat watch _).bind fun name vs hvs =>
      (Settles.eat watch _).bind fun inWord ws hws => (hexpression (by omega)).bind
        fun source xs hxs => ?_
    exact (h.block (by omega)).bind fun body ys hys => Settles.pure _ (by omega)
  case h_2 =>
    refine Settles.take.bind fun keyword us hus => (hcondition hus).bind fun test vs hvs =>
      (h.block (by omega)).bind fun body ws hws => Settles.peek_bind fun next => Settles.ite ?_ ?_
    · refine Settles.take.bind fun elseWord xs hxs => ?_
      exact (h.block (by omega)).bind fun other ys hys => Settles.pure _ (by omega)
    · exact Settles.pure _ (by omega)
  case h_3 =>
    refine Settles.take.bind fun keyword us hus => ?_
    exact (hexpression hus).bind fun value vs hvs => Settles.pure _ (by omega)
  case h_4 =>
    refine Settles.take.bind fun keyword us hus => (hcondition hus).bind fun test vs hvs => ?_
    exact (h.block (by omega)).bind fun body ws hws => Settles.pure _ (by omega)
  case h_5 =>
    refine Settles.take.bind fun keyword us hus => (hexpression hus).bind fun count vs hvs => ?_
    exact (h.block (by omega)).bind fun body ws hws => Settles.pure _ (by omega)
  case h_6 =>
    refine (Settles.eat watch _).bind fun name us hus => (Settles.eat watch _).bind
      fun sign vs hvs => ?_
    exact (hexpression (by omega)).bind fun value ws hws => Settles.pure _ (by omega)

end SettlesInstructions

/-- All parses for instructions settle, by induction on both amounts of fuel. -/
theorem settlesInstructions (watch : Watch) (n m : Nat) : SettlesInstructions watch n m := by
  induction n generalizing m with
  | zero =>
    constructor
    all_goals
      intros
      omega
  | succ n ih =>
    cases m with
    | zero =>
      constructor
      all_goals
        intros
        omega
    | succ m =>
      have h := ih m
      exact ⟨h.block_succ, h.instructions_succ, h.instruction_succ⟩

theorem settles_parameters (hts : 4 * ts.length + 1 ≤ min n m) :
    Settles (ts.length + 1) (parameters watch n) (parameters watch m) ts := by
  induction n generalizing m ts with
  | zero => omega
  | succ n ih =>
    obtain ⟨m, rfl⟩ : ∃ l, m = l + 1 := ⟨m - 1, by omega⟩
    rw [parameters, parameters]
    refine Settles.peek_bind fun kind => Settles.ite ?_ (Settles.pure _ (Nat.lt_succ_self _))
    refine (Settles.eat watch _).bind fun comma us hus => (Settles.eat watch _).bind
      fun name vs hvs => ?_
    exact (ih (by omega)).bind fun rest ws hws => Settles.pure _ (by omega)

theorem settles_signature (hts : 4 * ts.length ≤ min n m) :
    Settles ts.length (signature watch n) (signature watch m) ts := by
  refine (Settles.eat watch _).bind fun opening us hus => Settles.peek_bind fun kind =>
    Settles.ite ?_ ?_
  · refine (Settles.eat watch _).bind fun first vs hvs => (settles_parameters (by omega)).bind
      fun rest ws hws => ?_
    exact (Settles.eat watch _).bind fun closing xs hxs => Settles.pure _ (by omega)
  · exact (Settles.eat watch _).bind fun closing vs hvs => Settles.pure _ (by omega)

theorem settles_function (hts : 4 * ts.length ≤ min n m) :
    Settles ts.length (function watch n) (function watch m) ts := by
  refine (Settles.eat watch _).bind fun name us hus => (settles_signature (by omega)).bind
    fun inner vs hvs => ?_
  refine ((settlesInstructions watch n m).block (by omega)).bind fun body ws hws => ?_
  exact Settles.pure _ (by omega)

/-- Functions in a row settle: each takes a token at least. -/
theorem settles_functions (hts : 4 * ts.length + 1 ≤ min n m) :
    Settles (ts.length + 1) (functions watch n) (functions watch m) ts := by
  induction n generalizing m ts with
  | zero => omega
  | succ n ih =>
    obtain ⟨m, rfl⟩ : ∃ l, m = l + 1 := ⟨m - 1, by omega⟩
    rw [functions, functions]
    refine Settles.peek_bind fun kind => Settles.ite ?_ (Settles.pure _ (Nat.lt_succ_self _))
    refine (settles_function (by omega)).bind fun first us hus => ?_
    exact (ih (by omega)).bind fun rest vs hvs => Settles.pure _ (by omega)

/-- A program settles with fuel for four times its tokens. -/
theorem settles_program (hts : 4 * ts.length + 1 ≤ min n m) :
    Settles (ts.length + 1) (program watch n) (program watch m) ts := by
  refine (settles_functions hts).bind fun inner us hus => ?_
  exact (Settles.eat watch _).bind fun last vs hvs => Settles.pure _ (by omega)

end SymScript.Parse

namespace SymScript.ParseTree

/-- Parses a program with a bound on the depth of the calls. -/
def ofTextWithin (n : Nat) (text : String) (watched : Bool) : Parsed :=
  let watch := if watched then some (Text.lines text) else none
  let (result, reading) := ((Parse.program watch n).run).run { rest := Token.tokens text }
  { result, reports := reading.reports }

/-- The parser ends on every text, valid or not, whether wrong tokens are reported or taken: it
gives a tree, or it stops for one of the reasons that a source can give.  The depth of its calls is
at most four for each token and one more: no larger bound changes the outcome or the reports. -/
theorem ofText_ends (text : String) (watched : Bool) :
    ((∃ t, (ofText text watched).result = .ok t) ∨
      ∃ stop, stop ≠ .endless ∧ (ofText text watched).result = .error stop) ∧
    ∀ n, 4 * (Token.tokens text).length + 1 ≤ n →
      ofTextWithin n text watched = ofText text watched := by
  let watch : Watch := if watched then some (Text.lines text) else none
  let tokens := Token.tokens text
  have hfuel : 4 * tokens.length + 1 ≤ fuelFor tokens := by
    rw [fuelFor]
    omega
  have hsettles (n : Nat) (hn : 4 * tokens.length + 1 ≤ n) : Parse.Settles (tokens.length + 1)
      (Parse.program watch n) (Parse.program watch (fuelFor tokens)) tokens :=
    Parse.settles_program (Nat.le_min.2 ⟨hn, hfuel⟩)
  constructor
  · let outcome := (Parse.program watch (fuelFor tokens)).run.run { rest := tokens }
    have hended : Parse.Ended _ outcome := (hsettles _ hfuel []).2
    change (∃ t, outcome.1 = .ok t) ∨ ∃ stop, stop ≠ .endless ∧ outcome.1 = .error stop
    generalize outcome = o at hended
    obtain ⟨stop | t, r⟩ := o
    · exact .inr ⟨stop, hended, rfl⟩
    · exact .inl ⟨t, rfl⟩
  · intro n hn
    exact congrArg (fun o => Parsed.mk o.1 o.2.reports) (hsettles n hn []).1

/-- A block that is never closed, where every token is taken for what is wanted, and a parenthesis
that is given up as a condition after a report. -/
theorem ofText_ends_unclosed :
    let unclosed := "Main()\x7bif ((x"
    let declined := "Main()\x7bif ((x)==-y) \x7b\x7d\x7d"
    (∃ stop, stop ≠ .endless ∧ (ofText unclosed false).result = .error stop) ∧
      ofTextWithin 100 unclosed false = ofText unclosed false ∧
      (∃ stop, stop ≠ .endless ∧ (ofText declined true).result = .error stop) ∧
      ofTextWithin 100 declined true = ofText declined true := by
  intro unclosed declined
  have hstop {text : String} {watched : Bool} (h : (ofText text watched).result.isOk = false) :
      ∃ stop, stop ≠ .endless ∧ (ofText text watched).result = .error stop := by
    rcases (ofText_ends text watched).1 with ⟨t, ht⟩ | hstop
    · rw [ht] at h
      cases h
    · exact hstop
  exact ⟨hstop (by decide +kernel), (ofText_ends unclosed false).2 100 (by decide +kernel),
    hstop (by decide +kernel), (ofText_ends declined true).2 100 (by decide +kernel)⟩

end SymScript.ParseTree
