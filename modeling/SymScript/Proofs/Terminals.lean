import SymScript.Proofs.Grammar

/-!
# The tokens of a parse tree

A parse takes tokens from the front of what is left and puts each of them into what it gives, in
order. So the tokens of a tree are the beginning of the text's tokens, whether wrong tokens stop the
parse or not. With a watch the last token of a program is the end of the text, and nothing comes
after that.

Going back is the one step that could break the account: an attempt that declines or stops has taken
tokens, and they are only put back because it gives no tree.
-/

namespace SymScript

/-- The tokens of trees in a row. -/
theorem ParseTree.terminalsAll_append (ts us : List ParseTree) :
    terminalsAll (ts ++ us) = terminalsAll ts ++ terminalsAll us := by
  induction ts with
  | nil => rfl
  | cons t ts ih => rw [List.cons_append, terminalsAll, terminalsAll, ih, List.append_assoc]

namespace Parse

open ParseTree

variable {α β : Type}

/-- If the parse gives a result, what it has taken from the front satisfies `P` with that result. -/
def Takes (p : Parse α) (P : α → List Token → Prop) : Prop :=
  ∀ ⦃r r' : Reading⦄ ⦃a : α⦄, p.run.run r = (.ok a, r') →
    ∃ taken, r.rest = taken ++ r'.rest ∧ P a taken

/-- The leaves of what the parse gives are the tokens that it has taken. -/
abbrev Collects (leaves : α → List Token) (p : Parse α) : Prop :=
  Takes p fun a taken => leaves a = taken

namespace Takes

variable {P : α → List Token → Prop} {Q : β → List Token → Prop} {p : Parse α}

/-- A parse that gives a value takes no token. -/
protected theorem pure {a : α} (h : P a []) : Takes (pure a) P := by
  rintro r r' b ⟨⟩
  exact ⟨[], rfl, h⟩

theorem throw (stop : ParseStop) : Takes (throw stop) P := by
  rintro r r' a ⟨⟩

/-- Parses in a row take one part of the tokens after the other. -/
protected theorem bind {f : α → Parse β} (hp : Takes p P)
    (hf : ∀ a taken, P a taken → Takes (f a) fun b more => Q b (taken ++ more)) :
    Takes (p >>= f) Q := by
  intro r r' b h
  rw [ExceptT.run_bind, StateT.run_bind] at h
  cases hrun : p.run.run r with
  | mk result middle =>
    rw [hrun] at h
    cases result with
    | error stop => cases h
    | ok a =>
      obtain ⟨taken, hrest, ha⟩ := hp hrun
      obtain ⟨more, hmiddle, hb⟩ := hf a taken ha h
      refine ⟨taken ++ more, ?_, hb⟩
      rw [hrest, hmiddle, List.append_assoc]

/-- A first part that only looks ahead. -/
theorem ahead_bind (k : Nat) {f : TokenKind → Parse β} (h : ∀ kind, Takes (f kind) Q) :
    Takes (ahead k >>= f) Q := fun _ _ _ hrun => h _ hrun

/-- Looking ahead takes no token. -/
theorem peek_bind {f : TokenKind → Parse β} (h : ∀ kind, Takes (f kind) Q) : Takes (peek >>= f) Q :=
  ahead_bind 0 h

/-- A choice takes what the chosen parse takes. -/
protected theorem ite {c : Prop} [Decidable c] {q : Parse α} (hp : Takes p P) (hq : Takes q P) :
    Takes (if c then p else q) P := by
  split
  · exact hp
  · exact hq

theorem take : Collects terminals take := by
  rintro ⟨rest, reports⟩ r' a h
  cases rest with
  | nil => cases h
  | cons t ts =>
    cases h
    exact ⟨[t], rfl, terminals_leaf t⟩

/-- A token that is eaten under a watch is of the kind that was wanted. -/
theorem eat_kind (watch : Watch) (k : TokenKind) : Takes (eat watch k) fun a taken =>
    a.terminals = taken ∧ (watch.isSome → ∃ t, taken = [t] ∧ t.kind = k) := by
  rintro ⟨rest, reports⟩ r' a h
  cases rest with
  | nil => cases watch <;> cases h
  | cons t ts =>
    cases watch with
    | none =>
      cases h
      exact ⟨[t], rfl, terminals_leaf t, by rintro ⟨⟩⟩
    | some lines =>
      change (ite (t.kind = k) Parse.take _).run.run ⟨t :: ts, reports⟩ = _ at h
      split at h
      · rename_i hk
        cases h
        exact ⟨[t], rfl, terminals_leaf t, fun _ => ⟨t, rfl, hk⟩⟩
      · cases hline : lines[t.line - 1]? with
        | none =>
          rw [hline] at h
          cases h
        | some line =>
          rw [hline] at h
          cases h

/-- A token is collected, also one of the wrong kind that is taken without a watch. -/
theorem eat (watch : Watch) (k : TokenKind) : Collects terminals (eat watch k) := by
  intro r r' a h
  obtain ⟨taken, hrest, ha, -⟩ := eat_kind watch k h
  exact ⟨taken, hrest, ha⟩

end Takes

/-- A first part that collects what it takes. -/
theorem Collects.bind {leaves : α → List Token} {p : Parse α} {f : α → Parse β}
    {Q : β → List Token → Prop} (hp : Collects leaves p)
    (hf : ∀ a, Takes (f a) fun b more => Q b (leaves a ++ more)) : Takes (p >>= f) Q := by
  refine Takes.bind hp ?_
  rintro a _ rfl
  exact hf a

/-- The tokens of an attempt that declined are not taken. -/
theorem Takes.attempt {p : Parse (Option ParseTree)}
    (hp : Takes p fun o taken => ∀ t, o = some t → t.terminals = taken) :
    Collects (fun o => o.elim [] terminals) (Parse.attempt p) := by
  intro r r' o h
  have hp := @hp r
  -- the attempt runs `p` once, from here
  change (Parse.attempt (ExceptT.mk fun _ => p.run.run r)).run.run r = _ at h
  generalize p.run.run r = run at h hp
  obtain ⟨stop | _ | t, s⟩ := run
  · cases stop <;> cases h <;> exact ⟨[], rfl, rfl⟩
  · cases h
    exact ⟨[], rfl, rfl⟩
  · cases h
    obtain ⟨taken, hrest, ht⟩ := hp rfl
    exact ⟨taken, hrest, ht t rfl⟩

/-! ### Expressions -/

variable {watch : Watch} {n : Nat}

/-- The parsers of expressions with the fuel `n` collect what they take. -/
structure CollectsExpressions (watch : Watch) (n : Nat) : Prop where
  expression : Collects terminals (expression watch n)
  addends : ∀ l, Takes (addends watch n l) fun t taken => t.terminals = l.terminals ++ taken
  term : Collects terminals (term watch n)
  factors : ∀ l, Takes (factors watch n l) fun t taken => t.terminals = l.terminals ++ taken
  power : Collects terminals (power watch n)
  unary : Collects terminals (unary watch n)
  call : Collects terminals (call watch n)
  arguments : Collects terminalsAll (arguments watch n)

namespace CollectsExpressions

variable (h : CollectsExpressions watch n)

include h

/-- An expression has the tokens of its term and of the addends behind it. -/
theorem expression_succ : Collects terminals (Parse.expression watch (n + 1)) := by
  rw [Parse.expression]
  refine Collects.bind h.term fun l => ?_
  exact h.addends l

/-- What a loop has read becomes the left part of the next round. -/
theorem addends_succ (l : ParseTree) :
    Takes (Parse.addends watch (n + 1) l) fun t taken => t.terminals = l.terminals ++ taken := by
  rw [Parse.addends]
  refine Takes.peek_bind fun kind => Takes.ite ?_ (Takes.pure (List.append_nil _).symm)
  refine Collects.bind Takes.take fun op => Collects.bind h.term fun r => ?_
  have hgo := h.addends (.node .expression [l, op, r])
  simpa [terminals, terminalsAll] using hgo

theorem term_succ : Collects terminals (Parse.term watch (n + 1)) := by
  rw [Parse.term]
  refine Collects.bind h.power fun l => ?_
  exact h.factors l

/-- Factors behind a tree add their tokens behind its tokens. -/
theorem factors_succ (l : ParseTree) :
    Takes (Parse.factors watch (n + 1) l) fun t taken => t.terminals = l.terminals ++ taken := by
  rw [Parse.factors]
  refine Takes.peek_bind fun kind => Takes.ite ?_ (Takes.pure (List.append_nil _).symm)
  refine Collects.bind Takes.take fun op => Collects.bind h.power fun r => ?_
  have hgo := h.factors (.node .expression [l, op, r])
  simpa [terminals, terminalsAll] using hgo

theorem power_succ : Collects terminals (Parse.power watch (n + 1)) := by
  rw [Parse.power]
  refine Collects.bind h.unary fun b => Takes.peek_bind fun kind => Takes.ite ?_ ?_
  · refine Collects.bind Takes.take fun op => Collects.bind h.power fun x => Takes.pure ?_
    simp [terminals, terminalsAll]
  · exact Takes.pure (List.append_nil _).symm

/-- An operand has its tokens, signs, parentheses and calls included. -/
theorem unary_succ : Collects terminals (Parse.unary watch (n + 1)) := by
  rw [Parse.unary]
  refine Takes.peek_bind fun kind =>
    Takes.ite ?_ (Takes.ite ?_ (Takes.ahead_bind 1 fun next => Takes.ite ?_ ?_))
  · refine Collects.bind Takes.take fun sign => Collects.bind h.unary fun inner => Takes.pure ?_
    simp [terminals, terminalsAll]
  · refine Collects.bind Takes.take fun opening => Collects.bind h.expression fun inner =>
      Collects.bind (Takes.eat watch _) fun closing => Takes.pure ?_
    simp [terminals, terminalsAll]
  · refine Collects.bind h.call fun inner => Takes.pure ?_
    simp [terminals, terminalsAll]
  · refine Collects.bind Takes.take fun token => Takes.pure ?_
    simp [terminals, terminalsAll]

/-- A call has the tokens of its name, its parentheses and its arguments. -/
theorem call_succ : Collects terminals (Parse.call watch (n + 1)) := by
  rw [Parse.call]
  refine Collects.bind (Takes.eat watch _) fun name => Collects.bind (Takes.eat watch _)
    fun opening =>
    Takes.peek_bind fun kind => Takes.ite ?_ ?_
  · refine Collects.bind (Takes.eat watch _) fun closing => Takes.pure ?_
    simp [terminals, terminalsAll]
  · refine Collects.bind h.expression fun first => Collects.bind h.arguments fun rest =>
      Collects.bind (Takes.eat watch _) fun closing => Takes.pure ?_
    simp [terminals, terminalsAll]

theorem arguments_succ : Collects terminalsAll (Parse.arguments watch (n + 1)) := by
  rw [Parse.arguments]
  refine Takes.peek_bind fun kind => Takes.ite ?_ (Takes.pure rfl)
  refine Collects.bind (Takes.eat watch _) fun comma => Collects.bind h.expression fun next =>
    Collects.bind h.arguments fun rest => Takes.pure ?_
  simp [terminalsAll]

end CollectsExpressions

/-- All parses for expressions collect their tokens, by induction on the fuel. -/
theorem collectsExpressions (watch : Watch) (n : Nat) : CollectsExpressions watch n := by
  induction n with
  | zero => constructor <;> intros <;> exact Takes.throw .endless
  | succ n h =>
    exact ⟨h.expression_succ, h.addends_succ, h.term_succ, h.factors_succ, h.power_succ,
      h.unary_succ, h.call_succ, h.arguments_succ⟩

/-! ### Conditions -/

/-- A comparison has the tokens of its sides with the operator between them. -/
theorem collects_comparison (watch : Watch) (n : Nat) :
    Collects terminals (comparison watch n) := by
  have h := collectsExpressions watch n
  refine Collects.bind h.expression fun l => Collects.bind Takes.take fun op =>
    Collects.bind h.expression fun r => Takes.pure ?_
  simp [terminals, terminalsAll]

/-- The parsers of conditions with the fuel `n` collect what they take; the one of conditions in
parentheses does if it does not decline. -/
structure CollectsConditions (watch : Watch) (n : Nat) : Prop where
  condition : Collects terminals (condition watch n)
  disjuncts : ∀ l, Takes (disjuncts watch n l) fun t taken => t.terminals = l.terminals ++ taken
  conjunction : Collects terminals (conjunction watch n)
  conjuncts : ∀ l, Takes (conjuncts watch n l) fun t taken => t.terminals = l.terminals ++ taken
  simple : Collects terminals (simpleCondition watch n)
  grouped : Takes (groupedCondition watch n) fun o taken => ∀ t, o = some t → t.terminals = taken

namespace CollectsConditions

variable (h : CollectsConditions watch n)

include h

theorem condition_succ : Collects terminals (Parse.condition watch (n + 1)) := by
  rw [Parse.condition]
  refine Collects.bind h.conjunction fun l => ?_
  exact h.disjuncts l

/-- Alternatives behind a tree add their tokens behind its tokens. -/
theorem disjuncts_succ (l : ParseTree) :
    Takes (Parse.disjuncts watch (n + 1) l) fun t taken => t.terminals = l.terminals ++ taken := by
  rw [Parse.disjuncts]
  refine Takes.peek_bind fun kind => Takes.ite ?_ (Takes.pure (List.append_nil _).symm)
  refine Collects.bind Takes.take fun op => Collects.bind h.conjunction fun r => ?_
  have hgo := h.disjuncts (.node .condition [l, op, r])
  simpa [terminals, terminalsAll] using hgo

theorem conjunction_succ : Collects terminals (Parse.conjunction watch (n + 1)) := by
  rw [Parse.conjunction]
  refine Collects.bind h.simple fun l => ?_
  exact h.conjuncts l

/-- Conjuncts behind a tree add their tokens behind its tokens. -/
theorem conjuncts_succ (l : ParseTree) :
    Takes (Parse.conjuncts watch (n + 1) l) fun t taken => t.terminals = l.terminals ++ taken := by
  rw [Parse.conjuncts]
  refine Takes.peek_bind fun kind => Takes.ite ?_ (Takes.pure (List.append_nil _).symm)
  refine Collects.bind Takes.take fun op => Collects.bind h.simple fun r => ?_
  have hgo := h.conjuncts (.node .condition [l, op, r])
  simpa [terminals, terminalsAll] using hgo

/-- A simple condition has its tokens, whether its parenthesis is read as a condition or not. -/
theorem simple_succ : Collects terminals (simpleCondition watch (n + 1)) := by
  have hcomparison := collects_comparison watch n
  rw [simpleCondition]
  refine Takes.peek_bind fun kind => Takes.ite ?_ (Takes.ite ?_ (Takes.ite ?_ hcomparison))
  · refine Collects.bind Takes.take fun op => Collects.bind h.simple fun inner => Takes.pure ?_
    simp [terminals, terminalsAll]
  · refine Collects.bind Takes.take fun word => Takes.pure ?_
    simp [terminals, terminalsAll]
  · refine Collects.bind (Takes.attempt h.grouped) fun o => ?_
    cases o with
    | none => exact hcomparison
    | some t => exact Takes.pure (List.append_nil _).symm

/-- A condition in parentheses has its tokens, unless it declines. -/
theorem grouped_succ : Takes (groupedCondition watch (n + 1)) fun o taken =>
    ∀ t, o = some t → t.terminals = taken := by
  have hdeclined {read : List Token} : Takes (pure none) fun (o : Option ParseTree) taken =>
      ∀ t, o = some t → t.terminals = read ++ taken := Takes.pure (by rintro t ⟨⟩)
  rw [groupedCondition]
  refine Collects.bind Takes.take fun opening => Collects.bind h.condition fun inner => ?_
  simp only [← List.append_assoc]
  refine Takes.peek_bind fun kind => Takes.ite ?_ hdeclined
  refine Collects.bind Takes.take fun closing => ?_
  simp only [← List.append_assoc]
  refine Takes.peek_bind fun next => Takes.ite (Takes.pure ?_) hdeclined
  rintro t ⟨⟩
  simp [terminals, terminalsAll]

end CollectsConditions

/-- All parses for conditions collect their tokens, by induction on the fuel. -/
theorem collectsConditions (watch : Watch) (n : Nat) : CollectsConditions watch n := by
  induction n with
  | zero => constructor <;> intros <;> exact Takes.throw .endless
  | succ n h =>
    exact ⟨h.condition_succ, h.disjuncts_succ, h.conjunction_succ, h.conjuncts_succ, h.simple_succ,
      h.grouped_succ⟩

/-! ### Instructions and functions -/

/-- The parsers of blocks and instructions with the fuel `n` collect what they take. -/
structure CollectsInstructions (watch : Watch) (n : Nat) : Prop where
  block : Collects terminals (block watch n)
  instructions : Collects terminalsAll (instructions watch n)
  instruction : Collects terminals (instruction watch n)

namespace CollectsInstructions

variable (h : CollectsInstructions watch n)

include h

/-- A block has the tokens of its braces and of the instructions between them. -/
theorem block_succ : Collects terminals (Parse.block watch (n + 1)) := by
  rw [Parse.block]
  refine Collects.bind (Takes.eat watch _) fun opening => Collects.bind h.instructions fun inner =>
    Collects.bind (Takes.eat watch _) fun closing => Takes.pure ?_
  simp [terminals, terminalsAll, terminalsAll_append]

theorem instructions_succ : Collects terminalsAll (Parse.instructions watch (n + 1)) := by
  rw [Parse.instructions]
  refine Takes.peek_bind fun kind => Takes.ite (Takes.pure rfl) ?_
  refine Collects.bind h.instruction fun first => Collects.bind h.instructions fun rest =>
    Takes.pure ?_
  simp [terminalsAll]

/-- An instruction has its tokens, by cases on the word that it begins with. -/
theorem instruction_succ : Collects terminals (Parse.instruction watch (n + 1)) := by
  have hexpression := (collectsExpressions watch n).expression
  have hcondition := (collectsConditions watch n).condition
  rw [Parse.instruction]
  refine Takes.peek_bind fun kind => ?_
  split
  · refine Collects.bind Takes.take fun keyword => Collects.bind (Takes.eat watch _) fun name =>
      Collects.bind (Takes.eat watch _) fun inWord => Collects.bind hexpression fun source =>
      Collects.bind h.block fun body => Takes.pure ?_
    simp [terminals, terminalsAll]
  · refine Collects.bind Takes.take fun keyword => Collects.bind hcondition fun test =>
      Collects.bind h.block fun body => Takes.peek_bind fun next => Takes.ite ?_ (Takes.pure ?_)
    · refine Collects.bind Takes.take fun elseWord => Collects.bind h.block fun other =>
        Takes.pure ?_
      simp [terminals, terminalsAll]
    · simp [terminals, terminalsAll]
  · refine Collects.bind Takes.take fun keyword => Collects.bind hexpression fun value =>
      Takes.pure ?_
    simp [terminals, terminalsAll]
  · refine Collects.bind Takes.take fun keyword => Collects.bind hcondition fun test =>
      Collects.bind h.block fun body => Takes.pure ?_
    simp [terminals, terminalsAll]
  · refine Collects.bind Takes.take fun keyword => Collects.bind hexpression fun count =>
      Collects.bind h.block fun body => Takes.pure ?_
    simp [terminals, terminalsAll]
  · refine Collects.bind (Takes.eat watch _) fun name =>
      Collects.bind (Takes.eat watch _) fun sign =>
      Collects.bind hexpression fun value => Takes.pure ?_
    simp [terminals, terminalsAll]

end CollectsInstructions

/-- All parses for instructions collect their tokens, by induction on the fuel. -/
theorem collectsInstructions (watch : Watch) (n : Nat) : CollectsInstructions watch n := by
  induction n with
  | zero => constructor <;> exact Takes.throw .endless
  | succ n h => exact ⟨h.block_succ, h.instructions_succ, h.instruction_succ⟩

theorem collects_parameters (watch : Watch) (n : Nat) :
    Collects terminalsAll (parameters watch n) := by
  induction n with
  | zero => exact Takes.throw .endless
  | succ n ih =>
    rw [parameters]
    refine Takes.peek_bind fun kind => Takes.ite ?_ (Takes.pure rfl)
    refine Collects.bind (Takes.eat watch _) fun comma =>
      Collects.bind (Takes.eat watch _) fun name =>
      Collects.bind ih fun rest => Takes.pure ?_
    simp [terminalsAll]

/-- A signature has the tokens of its parentheses and parameters. -/
theorem collects_signature (watch : Watch) (n : Nat) :
    Collects terminalsAll (signature watch n) := by
  refine Collects.bind (Takes.eat watch _) fun opening => Takes.peek_bind fun kind =>
    Takes.ite ?_ ?_
  · refine Collects.bind (Takes.eat watch _) fun first =>
      Collects.bind (collects_parameters watch n)
      fun rest => Collects.bind (Takes.eat watch _) fun closing => Takes.pure ?_
    simp [terminals, terminalsAll]
  · refine Collects.bind (Takes.eat watch _) fun closing => Takes.pure ?_
    simp [terminalsAll]

/-- A function has the tokens of its name, its signature and its block. -/
theorem collects_function (watch : Watch) (n : Nat) : Collects terminals (function watch n) := by
  refine Collects.bind (Takes.eat watch _) fun name => Collects.bind (collects_signature watch n)
    fun inner => Collects.bind (collectsInstructions watch n).block fun body => Takes.pure ?_
  simp [terminals, terminalsAll, terminalsAll_append]

theorem collects_functions (watch : Watch) (n : Nat) :
    Collects terminalsAll (functions watch n) := by
  induction n with
  | zero => exact Takes.throw .endless
  | succ n ih =>
    rw [functions]
    refine Takes.peek_bind fun kind => Takes.ite ?_ (Takes.pure rfl)
    refine Collects.bind (collects_function watch n) fun first => Collects.bind ih fun rest =>
      Takes.pure ?_
    simp [terminalsAll]

/-- The last token of a program that is read under a watch is the end. -/
theorem takes_program (watch : Watch) (n : Nat) : Takes (program watch n) fun t taken =>
    t.terminals = taken ∧
      (watch.isSome → ∃ body last, taken = body ++ [last] ∧ last.kind = .eof) := by
  refine Collects.bind (collects_functions watch n) fun inner => ?_
  refine Takes.bind (Takes.eat_kind watch .eof) ?_
  rintro last _ ⟨rfl, hlast⟩
  refine Takes.pure ⟨by simp [terminals, terminalsAll, terminalsAll_append], fun hwatch => ?_⟩
  obtain ⟨token, htoken, hkind⟩ := hlast hwatch
  exact ⟨terminalsAll inner, token, by rw [htoken, List.append_nil], hkind⟩

end Parse

/-! ### The end of a text -/

namespace Token

/-- The end is the last token and no other one. -/
def EndsOnce (ts : List Token) : Prop :=
  ∃ body last, ts = body ++ [last] ∧ last.kind = .eof ∧ ∀ t ∈ body, t.kind ≠ .eof

/-- Another token in front does not change the end. -/
theorem EndsOnce.cons {t : Token} {ts : List Token} (ht : t.kind ≠ .eof) (h : EndsOnce ts) :
    EndsOnce (t :: ts) := by
  obtain ⟨body, last, rfl, hlast, hbody⟩ := h
  exact ⟨t :: body, last, rfl, hlast, List.forall_mem_cons.2 ⟨ht, hbody⟩⟩

theorem wordKind_ne_eof (word : String) : wordKind word ≠ .eof := by
  unfold wordKind
  split
  case h_12 => split <;> decide
  all_goals decide

theorem operatorKind_ne_eof (text : String) : operatorKind text ≠ .eof := by
  unfold operatorKind
  split <;> decide

/-- A match is not the end. -/
theorem kind_ofMatch_ne_eof (c : Char) (cs : List Char) (line column : Nat) :
    (ofMatch (c :: cs) line column).kind ≠ .eof := by
  have hword := wordKind_ne_eof (String.ofList (c :: cs))
  rw [ofMatch]
  split
  · split
    · exact fun h => by cases h
    · exact hword
  · split
    · exact fun h => by cases h
    · exact operatorKind_ne_eof _

/-- A scan ends with the token for the end, and has no other one. -/
theorem endsOnce_scan (line column : Nat) (cs : List Char) : EndsOnce (scan line column cs) := by
  fun_induction scan line column cs with
  | case1 line column => exact ⟨[], endOf line column, rfl, rfl, List.forall_mem_nil _⟩
  | case2 line column c cs hlen ih => exact ih
  | case3 line column c cs n hlen m rest hblank ih => exact ih
  | case4 line column c cs n hlen m rest hblank ih => exact ih.cons (kind_ofMatch_ne_eof _ _ _ _)

/-- A beginning that ends with the end is the whole. -/
theorem EndsOnce.eq_of_append {body rest : List Token} {last : Token} (hlast : last.kind = .eof)
    (h : EndsOnce (body ++ [last] ++ rest)) : rest = [] := by
  obtain ⟨body', last', heq, -, hbody'⟩ := h
  rcases List.eq_nil_or_concat rest with rfl | ⟨rest', t, rfl⟩
  · rfl
  · rw [List.concat_eq_append, ← List.append_assoc] at heq
    obtain ⟨rfl, -⟩ := List.append_inj' heq rfl
    exact absurd hlast (hbody' last (by simp))

end Token

namespace ParseTree

/-- What a parse has taken is a beginning of the text's tokens, and its tree has them in order. -/
theorem exists_of_ofText {text : String} {watched : Bool} {t : ParseTree}
    (h : (ofText text watched).result = .ok t) : ∃ rest, Token.tokens text = t.terminals ++ rest ∧
      (watched = true → ∃ body last, t.terminals = body ++ [last] ∧ last.kind = .eof) := by
  let watch : Watch := if watched then some (Text.lines text) else none
  let run :=
    (Parse.program watch (fuelFor (Token.tokens text))).run.run { rest := Token.tokens text }
  have hrun : run = (.ok t, run.2) := Prod.ext h rfl
  obtain ⟨taken, htaken, rfl, hlast⟩ := Parse.takes_program _ _ hrun
  refine ⟨run.2.rest, htaken, ?_⟩
  rintro rfl
  exact hlast rfl

/-- The parser neither loses nor repeats tokens and keeps their order.  With reports the tokens of
the tree are those of the text, and the end is the last of them and no other one; without reports
they are a beginning of the text's tokens. -/
theorem terminals_ofText (text : String) :
    (∀ t, (ofText text true).result = .ok t →
      t.terminals = Token.tokens text ∧ Token.EndsOnce t.terminals) ∧
    ∀ t, (ofText text false).result = .ok t → t.terminals <+: Token.tokens text := by
  have hends : Token.EndsOnce (Token.tokens text) := Token.endsOnce_scan _ _ _
  constructor
  · intro t h
    obtain ⟨rest, htokens, hlast⟩ := exists_of_ofText h
    obtain ⟨body, last, hterminals, hkind⟩ := hlast rfl
    obtain rfl : rest = [] := by
      rw [htokens, hterminals] at hends
      exact hends.eq_of_append hkind
    rw [List.append_nil] at htokens
    exact ⟨htokens.symm, htokens ▸ hends⟩
  · intro t h
    obtain ⟨rest, htokens, -⟩ := exists_of_ofText h
    exact ⟨rest, htokens.symm⟩

/-- A parenthesis that is read twice, first as a condition, and a source whose last token is taken
for the end, so that one more is left. -/
theorem terminals_ofText_twice :
    let twice := "Main(A)\x7bif (x)*1==-y and !(true) \x7breturn F(x,2)^3\x7d\x7d"
    let short := "Main()\x7b\x7d x"
    (∃ t, (ofText twice true).result = .ok t ∧
      t.terminals = Token.tokens twice ∧ Token.EndsOnce t.terminals) ∧
    ∃ t, (ofText short false).result = .ok t ∧ t.terminals <+: Token.tokens short ∧
      t.terminals.length + 1 = (Token.tokens short).length := by
  intro twice short
  have hread {x : Except ParseStop ParseTree} {n : Nat}
      (h : x.toOption.map (·.terminals.length) = some n) : ∃ t, x = .ok t ∧
      t.terminals.length = n := by
    cases x with
    | error stop => cases h
    | ok t => exact ⟨t, rfl, Option.some.inj h⟩
  obtain ⟨t, ht, -⟩ := hread (x := (ofText twice true).result) (n := 32) (by decide +kernel)
  obtain ⟨u, hu, hlength⟩ := hread (x := (ofText short false).result) (n := 6) (by decide +kernel)
  have hseven : (Token.tokens short).length = 7 := by decide +kernel
  exact ⟨⟨t, ht, (terminals_ofText twice).1 t ht⟩,
    u, hu, (terminals_ofText short).2 u hu, by rw [hlength, hseven]⟩

end ParseTree

end SymScript
