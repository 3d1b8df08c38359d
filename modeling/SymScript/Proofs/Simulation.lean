import Mathlib.Data.List.Nodup
import SymScript.Proofs.Execution

/-!
# The machine runs programs as they are meant

For every node there is one lemma: from a frame that is about to visit the node, the machine follows
the semantics of the node and then goes on with the work that is left.  The lemmas for the parts are
hypotheses of it, so that one induction on the bound of the semantics closes them all.
-/

namespace SymScript.Machine

open Semantics

/-! ### Variables -/

/-- The memory of a frame holds the variables of an activation. -/
def Agrees (m : Memory) (σ : Store) : Prop := ∀ x, m.find? x = (σ x).map .term

theorem find?_cons (z : String) (w : Value) (m : Memory) (y : String) :
    Memory.find? ((z, w) :: m) y = if y = z then some w else m.find? y := by
  rw [Memory.find?, List.lookup_cons]
  by_cases h : y = z
  · simp [h]
  · rw [show (y == z) = false by simpa using h, if_neg h]
    rfl

/-- Setting a variable changes that variable only. -/
theorem find?_set (m : Memory) (x y : String) (v : Value) :
    (m.set x v).find? y = if y = x then some v else m.find? y := by
  induction m with
  | nil => rw [Memory.set, find?_cons]
  | cons b m ih =>
    obtain ⟨z, w⟩ := b
    rw [Memory.set]
    split
    · rename_i hz
      obtain rfl : z = x := by simpa using hz
      rw [find?_cons, find?_cons]
      split <;> rfl
    · rename_i hz
      have hz : z ≠ x := by simpa using hz
      rw [find?_cons, find?_cons, ih]
      split
      · rename_i hy
        rw [if_neg (hy ▸ hz)]
      · rfl

/-- Removing a variable changes that variable only. -/
theorem find?_erase (m : Memory) (x y : String) :
    (m.erase x).find? y = if y = x then none else m.find? y := by
  induction m with
  | nil => exact (ite_self _).symm
  | cons b m ih =>
    obtain ⟨z, w⟩ := b
    by_cases hz : z = x
    · have herase : Memory.erase ((z, w) :: m) x = Memory.erase m x := by simp [Memory.erase, hz]
      rw [herase, ih, find?_cons, hz]
      split <;> rfl
    · have herase : Memory.erase ((z, w) :: m) x = (z, w) :: Memory.erase m x := by
        simp [Memory.erase, hz]
      rw [herase, find?_cons, find?_cons, ih]
      split
      · rename_i hy
        rw [if_neg (hy ▸ hz)]
      · rfl

/-- Setting a variable on both sides keeps the agreement. -/
theorem Agrees.set {m : Memory} {σ : Store} (h : Agrees m σ) (x : String) (t : Term) :
    Agrees (m.set x (.term t)) (σ.set x t) := by
  intro y
  rw [find?_set, Store.set]
  split
  · rfl
  · exact h y

/-- Removing a variable on both sides keeps the agreement. -/
theorem Agrees.erase {m : Memory} {σ : Store} (h : Agrees m σ) (x : String) :
    Agrees (m.erase x) (σ.erase x) := by
  intro y
  rw [find?_erase, Store.erase]
  split
  · rfl
  · exact h y

/-- A variable is bound on one side if it is on the other. -/
theorem Agrees.holds {m : Memory} {σ : Store} (h : Agrees m σ) (x : String) :
    m.holds x = (σ x).isSome := by
  rw [Memory.holds, h x, Option.isSome_map]

/-- The memory determines the variables. -/
theorem Agrees.eq {m : Memory} {σ τ : Store} (hσ : Agrees m σ) (hτ : Agrees m τ) : σ = τ := by
  funext x
  exact Option.map_injective (fun _ _ => Value.term.inj) ((hσ x).symm.trans (hτ x))

theorem agrees_empty : Agrees [] Store.empty := fun _ => rfl

/-! ### States -/

/-- A value was computed: the frame `f` has it on top and goes on with the work `ws`. -/
structure Pushed (f : Frame) (ws : List Work) (callers : List Frame) (v : Value) (s : State) :
    Prop where
  callers : s.2 = callers
  work : s.1.work = ws
  values : s.1.values = v :: f.values
  memory : s.1.memory = f.memory
  loop : s.1.loopName = f.loopName

/-- An instruction was done: the frame `f` holds the activation `a` and goes on with the work
`ws`. -/
structure Advanced (f : Frame) (ws : List Work) (callers : List Frame) (a : Activation)
    (s : State) :
    Prop where
  callers : s.2 = callers
  work : s.1.work = ws
  values : s.1.values = f.values
  memory : Agrees s.1.memory a.store
  loop : s.1.loopName = a.loop

variable (functions : List FunctionDef)

/-- How the machine ends an instruction; a result is handed to the frame below in the next step. -/
def Ended (f : Frame) (ws : List Work) (callers : List Frame) (flow : Flow) (s : State) : Prop :=
  match flow with
  | .next a => Advanced f ws callers a s
  | .returned e => step functions s = .ok (leave e callers)

/-- Within the bound, the machine does what the evaluators say. -/
structure Simulates (n : Nat) (E : Evaluator) : Prop where
  expression : ∀ {t : Ast} {σ : Store} {f : Frame} {ws : List Work} {callers : List Frame},
    IsExpression t → Agrees f.memory σ → f.work = .visit t :: ws →
      Follows functions n (f, callers) (E.expression σ t) fun v => Pushed f ws callers (.term v)
  condition : ∀ {t : Ast} {σ : Store} {f : Frame} {ws : List Work} {callers : List Frame},
    IsCondition t → Agrees f.memory σ → f.work = .visit t :: ws →
      Follows functions n (f, callers) (E.condition σ t) fun b => Pushed f ws callers (.truth b)
  instruction : ∀ {t : Ast} {a : Activation} {f : Frame} {ws : List Work} {callers : List Frame},
    IsInstruction t → Agrees f.memory a.store → f.loopName = a.loop → f.work = .visit t :: ws →
      Follows functions n (f, callers) (E.instruction a t) (Ended functions f ws callers)

variable {functions} {n : Nat} {f g : Frame} {ws : List Work} {callers : List Frame}

/-- Only the values below matter to what comes after an instruction. -/
theorem Advanced.of_values {a : Activation} {s : State} (h : Advanced g ws callers a s)
    (hv : g.values = f.values) : Advanced f ws callers a s :=
  ⟨h.callers, h.work, h.values.trans hv, h.memory, h.loop⟩

theorem Ended.of_values {flow : Flow} {s : State} (h : Ended functions g ws callers flow s)
    (hv : g.values = f.values) : Ended functions f ws callers flow s := by
  cases flow with
  | next a => exact Advanced.of_values h hv
  | returned e => exact h

/-! ### Single steps -/

/-- A node that is visited is taken off the work, and its parts are put there. -/
theorem step_visit {t : Ast} (hw : f.work = .visit t :: ws) : step functions (f, callers) =
    visit { f with work := ws } t >>= fun g => .ok (.next (g, callers)) := by
  simp only [step, hw]
  rfl

/-- A binding sets its variable. -/
theorem step_bind {x : String} {t : Term} (hw : f.work = .bind x t :: ws) :
    step functions (f, callers) =
      .ok (.next ({ f with work := ws, memory := f.memory.set x (.term t) }, callers)) := by
  simp only [step, hw]

/-- Visiting a node that puts work before the work that is left. -/
theorem Follows.of_todo {α : Type} {t : Ast} {x : Outcome α} {P : α → State → Prop} {g : Frame}
    (hw : f.work = .visit t :: ws) (hv : visit { f with work := ws } t = .ok g)
    (h : Follows functions n (g, callers) x P) : Follows functions (n + 1) (f, callers) x P := by
  refine Follows.counted ?_ h
  rw [step_visit hw, hv]
  rfl

/-- Visiting a node whose value is known at once. -/
theorem Follows.of_visit {α : Type} {t : Ast} {x : Outcome α} {P : α → State → Prop}
    (hw : f.work = .visit t :: ws)
    (h : Mirrors x (visit { f with work := ws } t) fun a g => P a (g, callers)) :
    Follows functions n (f, callers) x P := by
  refine Follows.of_mirrors ?_
  rw [step_visit hw, ← bind_pure x]
  exact h.bind fun a g hg => ⟨_, rfl, hg⟩

/-- A node that is resumed finds its operands on the values. Returns and calls are apart, since they
leave the frame. -/
theorem step_resume {t : Ast} (hw : f.work = .resume t :: ws) (hr : ∀ e, t ≠ .giveBack e)
    (hc : ∀ name as, t ≠ .call name as) : step functions (f, callers) =
      resume { f with work := ws } t >>= fun g => .ok (.next (g, callers)) := by
  simp only [step, hw]
  rfl

/-- A return simplifies the value once more and leaves the frame with it. -/
theorem step_giveBack {e : Ast} {t : Term} {vs : List Value}
    (hw : f.work = .resume (.giveBack e) :: ws)
    (hvalues : f.values = .term t :: vs) : step functions (f, callers) =
      ofAlgebra t.simplify >>= fun r => .ok (leave r callers) := by
  simp only [step, hw, Frame.pop, hvalues]
  rfl

/-- An operator takes two values and puts its result in their place. -/
theorem resume_binary {negated : Bool} {op : Operator} {a b : Ast} {left right : Value}
    {vs : List Value} (hvalues : f.values = left :: right :: vs) :
    resume f (.binary negated op a b) = arithmetic negated op left right >>= fun o =>
      match o with
      | some e => .ok (Frame.pushTerm { f with values := vs } e)
      | none => .ok { f with values := vs } := by
  simp only [resume, Frame.pop, hvalues]
  rfl

/-- Going on with a node ends a piece of work. -/
theorem Follows.of_resume {α : Type} {t : Ast} {x : Outcome α} {P : α → State → Prop}
    (hw : f.work = .resume t :: ws) (hr : ∀ e, t ≠ .giveBack e) (hc : ∀ name as, t ≠ .call name as)
    (h : Mirrors x (resume { f with work := ws } t) fun a g => P a (g, callers)) :
    Follows functions n (f, callers) x P := by
  refine Follows.of_mirrors ?_
  rw [step_resume hw hr hc, ← bind_pure x]
  exact h.bind fun a g hg => ⟨_, rfl, hg⟩

/-! ### Operators -/

/-- The operators of the machine are those of the semantics. -/
theorem mirrors_arithmetic {op : Operator} (hop : isArithmetic op = true) (s : Bool) (l r : Term) :
    Mirrors (operate s op l r) (arithmetic s op (.term l) (.term r))
      fun t o => ∃ e, t = .tree e ∧ o = some e := by
  have hrun (make : Expr → Expr → Expr) (hmake : ∀ a b, combine? s op a b = some (make a b)) :
      Mirrors (operate s op l r) (do
        let a ← termOf (.term l)
        let b ← termOf (.term r)
        some <$> Machine.ofAlgebra (make a b).simplify) fun t o => ∃ e, t = .tree e ∧
            o = some e := by
    refine (Mirrors.ofAlgebra l.expr).bind ?_
    rintro a _ rfl
    refine (Mirrors.ofAlgebra r.expr).bind ?_
    rintro b _ rfl
    rw [hmake a b]
    refine (Mirrors.ofAlgebra (make a b).simplify).map ?_
    rintro e _ rfl
    exact ⟨e, rfl, rfl⟩
  cases op with
  | sum | sub | mul | div | pow => exact hrun _ fun _ _ => rfl
  | _ => cases hop

/-- A comparison of two terms gives the truth value that it should. -/
theorem test_comparison {op : Operator} (hop : isComparison op = true) (last : Option Value)
    (l r : Term) : test last op (.term l) (.term r) = .ok (.truth (compareTerms op l r)) := by
  cases op with
  | leq | less | eq | greater | geq => rfl
  | _ => cases hop

/-- A connective of two truth values gives the truth value that it should. -/
theorem test_connective {op : Operator} (hop : isConnective op = true) (last : Option Value)
    (p q : Bool) : test last op (.truth p) (.truth q) = .ok (.truth (connect op p q)) := by
  cases op with
  | and | or => cases p <;> rfl
  | _ => cases hop

/-! ### Expressions -/

/-- A numeral is put on the values as a number. -/
theorem follows_nat {E : Evaluator} {σ : Store} {negated : Bool} {digits : String}
    (hw : f.work = .visit (.nat negated digits) :: ws) :
    Follows functions n (f, callers) (expression functions E σ (.nat negated digits))
      fun v => Pushed f ws callers (.term v) := by
  refine Follows.of_visit hw ?_
  simp only [expression, visit]
  cases Text.natural? digits with
  | none => exact ⟨rfl, by rintro ⟨⟩⟩
  | some m => exact ⟨rfl, rfl, rfl, rfl, rfl⟩

/-- A symbol is put on the values as a letter, if it is one. -/
theorem follows_sym {E : Evaluator} {σ : Store} {negated : Bool} {letter : String}
    (hw : f.work = .visit (.sym negated letter) :: ws) :
    Follows functions n (f, callers) (expression functions E σ (.sym negated letter))
      fun v => Pushed f ws callers (.term v) := by
  refine Follows.of_visit hw ?_
  simp only [expression, visit]
  rcases letter.toList with _ | ⟨c, _ | ⟨d, cs⟩⟩
  · exact ⟨rfl, by rintro ⟨⟩⟩
  · simp only
    -- the table of letters must not be evaluated
    generalize Text.isLetter c = letter
    cases letter with
    | true => exact ⟨rfl, rfl, rfl, rfl, rfl⟩
    | false => exact ⟨rfl, by rintro ⟨⟩⟩
  · exact ⟨rfl, by rintro ⟨⟩⟩

section Expression

variable {E : Evaluator} {σ : Store} (hσ : Agrees f.memory σ)

include hσ

/-- A variable is put on the values with what it is bound to, if it is. -/
theorem follows_id {negated : Bool} {x : String} (hw : f.work = .visit (.id negated x) :: ws) :
    Follows functions n (f, callers) (expression functions E σ (.id negated x))
      fun v => Pushed f ws callers (.term v) := by
  refine Follows.of_visit hw ?_
  simp only [expression, visit, hσ x]
  cases σ x with
  | none => exact ⟨rfl, nofun⟩
  | some t =>
    refine (Mirrors.ofAlgebra t.fresh).map ?_
    rintro e _ rfl
    exact ⟨rfl, rfl, rfl, rfl, rfl⟩

/-- An operator works out its right side, its left side and then itself. -/
theorem follows_binary (ih : Simulates functions n E) {negated : Bool} {op : Operator} {a b : Ast}
    (hop : isArithmetic op = true) (ha : IsExpression a) (hb : IsExpression b)
    (hw : f.work = .visit (.binary negated op a b) :: ws) :
    Follows functions (n + 1) (f, callers) (expression functions E σ (.binary negated op a b))
      fun v => Pushed f ws callers (.term v) := by
  refine Follows.of_todo hw
    (g := { f with work := .visit b :: .visit a :: .resume (.binary negated op a b) :: ws }) rfl ?_
  refine Follows.bind (ih.expression hb (by exact hσ) rfl) ?_
  rintro r ⟨g, _⟩ ⟨rfl, hwork, hvalues, hmemory, hloop⟩
  refine (ih.expression ha (by rwa [hmemory]) hwork).bind ?_
  rintro l ⟨k, _⟩ ⟨rfl, hwork', hvalues', hmemory', hloop'⟩
  refine Follows.of_resume hwork' nofun nofun ?_
  have hpair : k.values = .term l :: .term r :: f.values := hvalues'.trans (congrArg _ hvalues)
  rw [resume_binary (f := { k with work := ws }) hpair, ← bind_pure (operate negated op l r)]
  refine (mirrors_arithmetic hop negated l r).bind ?_
  rintro _ _ ⟨e, rfl, rfl⟩
  exact ⟨rfl, rfl, rfl, hmemory'.trans hmemory, hloop'.trans hloop⟩

/-- Nodes that are visited one after the other leave their values in reverse. -/
theorem follows_all (ih : Simulates functions n E) {as : List Ast} (has : ∀ a ∈ as, IsExpression a)
    (hw : f.work = as.map .visit ++ ws) :
    Follows functions n (f, callers) (as.mapM (E.expression σ)) fun ts s => ts.length = as.length ∧
      s.2 = callers ∧ s.1.work = ws ∧ s.1.values = ts.reverse.map .term ++ f.values ∧
      s.1.memory = f.memory ∧ s.1.loopName = f.loopName := by
  induction as generalizing f with
  | nil => exact .ok ⟨rfl, rfl, hw, rfl, rfl, rfl⟩
  | cons a as ihas =>
    obtain ⟨ha, has⟩ := List.forall_mem_cons.1 has
    rw [List.mapM_cons]
    refine (ih.expression ha hσ hw).bind ?_
    rintro t ⟨g, _⟩ ⟨rfl, hwork, hvalues, hmemory, hloop⟩
    refine (ihas (by rwa [hmemory]) has hwork).bind ?_
    rintro ts ⟨k, _⟩ ⟨hlength, rfl, hwork', hvalues', hmemory', hloop'⟩
    refine .ok ⟨by simp [hlength], rfl, hwork', ?_, hmemory'.trans hmemory, hloop'.trans hloop⟩
    rw [hvalues', hvalues]
    simp

end Expression

/-! ### Calls -/

/-- The test for repeated names finds all of them. -/
theorem hasRepeats_iff {xs : List String} : hasRepeats xs = true ↔ ¬ xs.Nodup := by
  induction xs with
  | nil => simp [hasRepeats]
  | cons x xs ih =>
    rw [hasRepeats, Bool.or_eq_true, ih, List.nodup_cons, List.contains_iff_mem]
    tauto

/-- A call activates a function of the program, or ends at once. -/
theorem enter_cases (hlibrary : ∀ g ∈ functions, LibraryFunction.ofName? g.name = none)
    (E : Evaluator) (name : String) (arguments : List Argument) :
    (∃ g ∈ functions, arguments.all Argument.isExpression = true ∧
        enter functions name arguments = .ok (.frame (activation g arguments)) ∧
        apply functions E name arguments = Term.tree <$> activate E g arguments) ∨
      Mirrors (apply functions E name arguments) (enter functions name arguments)
        fun t r => r = .value t := by
  have hfind : (functions.find? fun g => g.name == name && g.parameters.length ==
      arguments.length) =
      (functions.filter (·.name == name)).find? (·.parameters.length == arguments.length) := by
    simp only [List.find?_filter, Bool.decide_and, Bool.decide_eq_true]
  rw [apply, enter, hfind]
  cases hfilter : functions.filter (·.name == name) with
  | nil =>
    simp only [List.find?_nil]
    cases LibraryFunction.ofName? name with
    | none => exact .inr ⟨rfl, by rintro ⟨⟩⟩
    | some l =>
      refine .inr ?_
      simp only
      rw [← bind_pure (Semantics.ofAlgebra _), map_eq_pure_bind]
      refine (Mirrors.ofAlgebra _).bind ?_
      rintro t _ rfl
      exact rfl
  | cons g gs =>
    have hname : LibraryFunction.ofName? name = none := by
      have hg : g ∈ functions.filter (·.name == name) := hfilter ▸ List.mem_cons_self
      obtain ⟨hmem, hname⟩ := List.mem_filter.1 hg
      rw [← hlibrary g hmem]
      congr 1
      exact (by simpa using hname : g.name = name).symm
    simp only
    cases hfound : (g :: gs).find? (·.parameters.length == arguments.length) with
    | none =>
      rw [hname]
      exact .inr ⟨rfl, by rintro ⟨⟩⟩
    | some k =>
      have hk : k ∈ functions :=
        (List.mem_filter.1 (hfilter ▸ List.mem_of_find?_eq_some hfound)).1
      simp only [hasRepeats_iff]
      by_cases hnodup : k.parameters.Nodup
      · rw [if_neg (not_not.2 hnodup), if_neg (not_not.2 hnodup)]
        by_cases hall : arguments.all Argument.isExpression = true
        · rw [if_neg (not_not.2 hall), if_pos hall]
          exact .inl ⟨k, hk, hall, rfl, rfl⟩
        · rw [if_pos hall, if_neg hall]
          exact .inr ⟨rfl, by rintro ⟨⟩⟩
      · rw [if_pos hnodup, if_pos hnodup]
        exact .inr ⟨rfl, by rintro ⟨⟩⟩

/-- The arguments of a call are on top of the values. -/
theorem popMany_append {vs rest : List Value} (h : f.values = vs ++ rest) :
    f.popMany vs.length = .ok (vs, { f with values := rest }) := by
  induction vs generalizing f with
  | nil =>
    subst h
    rfl
  | cons v vs ih =>
    have hpop : f.pop = .ok (v, { f with values := vs ++ rest }) := by rw [Frame.pop, h]; rfl
    rw [List.length_cons, Frame.popMany, hpop]
    simp only [bind, Except.bind]
    rw [ih rfl]
    rfl

/-- A call takes its arguments off and enters a frame, or puts what the library gives. -/
theorem step_call {name : String} {as : List Ast} {vs rest : List Value}
    (hw : f.work = .resume (.call name as) :: ws) (hvalues : f.values = vs ++ rest)
    (hlength : vs.length = as.length) : step functions (f, callers) =
      enter functions name (vs.map .value) >>= fun entry =>
        match entry with
        | .frame g =>
          .ok (.next (g, { f with work := ws, values := rest, function := name } :: callers))
        | .value t => .ok (.next
            ({ f with work := ws, values := .term t :: rest, function := name }, callers)) := by
  have hpop := popMany_append (f := { f with work := ws }) hvalues
  simp only [step, hw, ← hlength, hpop]
  rfl

section Activation

variable {E : Evaluator} (ih : Simulates functions n E)

include ih

/-- An assignment sets its variable to the value of the expression. -/
theorem follows_assign {x : String} {e : Ast} {a : Activation} (he : IsExpression e)
    (hm : Agrees f.memory a.store) (hl : f.loopName = a.loop)
    (hw : f.work = .visit (.assign x e) :: ws) :
    Follows functions (n + 1) (f, callers) (do return a.set x (← E.expression a.store e))
      (Advanced f ws callers) := by
  have hvisit : visit { f with work := ws } (.assign x e) =
      .ok { f with work := .visit e :: .resume (.assign x e) :: ws } := by
    cases e <;> first | rfl | cases he
  refine Follows.of_todo hw hvisit ?_
  refine Follows.bind (ih.expression he (by exact hm) rfl) ?_
  rintro t ⟨g, _⟩ ⟨rfl, hwork, hvalues, hmemory, hloop⟩
  refine Follows.of_resume hwork nofun nofun ?_
  have hresume : resume { g with work := ws } (.assign x e) =
      .ok { g with work := ws, values := f.values, memory := g.memory.set x (.term t) } := by
    have hv : g.values = .term t :: f.values := hvalues
    simp only [resume, Frame.pop, hv]
    rfl
  rw [hresume]
  refine ⟨rfl, rfl, rfl, ?_, hloop.trans hl⟩
  rw [show g.memory = f.memory from hmemory]
  exact hm.set x t

/-- A parameter is set to its argument before the body runs. -/
theorem follows_assignArgument {p : String × Argument} {a : Activation}
    (hexp : p.2.isExpression = true) (harg : IsArgument p.2) (hm : Agrees f.memory a.store)
    (hl : f.loopName = a.loop) (hw : f.work = p.2.assignTo p.1 :: ws) :
    Follows functions n (f, callers) (assignArgument E a p) (Advanced f ws callers) := by
  obtain ⟨x, argument⟩ := p
  have hbind (t : Term) (hw : f.work = .bind x t :: ws) :
      Follows functions n (f, callers) (.ok (a.set x t)) (Advanced f ws callers) :=
    .before (.single (step_bind hw)) (.ok ⟨rfl, rfl, rfl, hm.set x t, hl⟩)
  cases argument with
  | value v =>
    cases v with
    | term t => exact hbind t hw
    | truth => cases hexp
  | plain => cases hexp
  | node e =>
    cases e with
    | term t => exact hbind t hw
    | nat | sym | id | binary | call =>
      exact (follows_assign ih harg hm hl hw).mono (Nat.le_succ n)
    | _ => cases harg

/-- Parameters get their values before the body runs. -/
theorem follows_assignments {ps : List (String × Argument)} {a : Activation}
    (hps : ∀ p ∈ ps, p.2.isExpression = true ∧ IsArgument p.2) (hm : Agrees f.memory a.store)
    (hl : f.loopName = a.loop) (hw : f.work = ps.map (fun p => p.2.assignTo p.1) ++ ws) :
    Follows functions n (f, callers) (ps.foldlM (assignArgument E) a) (Advanced f ws callers) := by
  induction ps generalizing f a with
  | nil => exact .ok ⟨rfl, hw, rfl, hm, hl⟩
  | cons p ps ihps =>
    obtain ⟨⟨hexp, harg⟩, hps⟩ := List.forall_mem_cons.1 hps
    rw [List.foldlM_cons]
    refine (follows_assignArgument ih hexp harg hm hl hw).bind ?_
    rintro b ⟨g, _⟩ ⟨rfl, hwork, hvalues, hmemory, hloop⟩
    exact (ihps hps hmemory hloop hwork).imp fun _ _ h => h.of_values hvalues

/-- An activation ends with the result of the function, or fails. -/
theorem follows_activation {g : FunctionDef} (hbody : IsInstruction g.body)
    {arguments : List Argument} (hall : arguments.all Argument.isExpression = true)
    (hargs : ∀ x ∈ arguments, IsArgument x) :
    Follows functions n (activation g arguments, callers) (activate E g arguments)
      fun e s => step functions s = .ok (leave e callers) := by
  have hwork : (activation g arguments).work =
      (g.parameters.zip arguments).reverse.map (fun p => p.2.assignTo p.1) ++ [.visit g.body] := by
    rw [activation, List.map_reverse, List.map_zip_eq_zipWith]
    rfl
  refine Follows.bind (follows_assignments ih ?_ agrees_empty rfl hwork) ?_
  · intro p hp
    have hmem := (List.of_mem_zip (List.mem_reverse.1 hp)).2
    exact ⟨List.all_eq_true.1 hall p.2 hmem, hargs p.2 hmem⟩
  · rintro a ⟨k, _⟩ ⟨rfl, hwork, hvalues, hmemory, hloop⟩
    refine Follows.bind (ih.instruction hbody hmemory hloop hwork) ?_
    rintro flow ⟨k', cs⟩ hflow
    cases flow with
    | returned e => exact .ok hflow
    | next a' =>
      obtain ⟨rfl, hwork', -⟩ := hflow
      have hw : k'.work = [] := hwork'
      refine Follows.error (e := .reported (.noReturn k'.function) k'.memory k'.values) ?_ rfl nofun
      simp only [step, hw]
      rfl

/-- A call works out its arguments and then runs the function, in a frame of its own. -/
theorem follows_call (hlibrary : ∀ g ∈ functions, LibraryFunction.ofName? g.name = none)
    (hbodies : ∀ g ∈ functions, IsInstruction g.body) {σ : Store} (hσ : Agrees f.memory σ)
    {name : String} {as : List Ast} (has : ∀ a ∈ as, IsExpression a)
    (hw : f.work = .visit (.call name as) :: ws) :
    Follows functions (n + 1) (f, callers) (expression functions E σ (.call name as))
      fun v => Pushed f ws callers (.term v) := by
  have hvisit : visit { f with work := ws } (.call name as) =
      .ok { f with work := as.reverse.map .visit ++ .resume (.call name as) :: ws } := by
    simp [visit, Frame.todo]
  refine Follows.of_todo hw hvisit ?_
  refine Follows.bind (follows_all (by exact hσ) ih (fun a ha => has a (List.mem_reverse.1 ha)) rfl)
    ?_
  rintro ts ⟨g, cs⟩ ⟨hlength, rfl, hwork, hvalues, hmemory, hloop⟩
  have hstep : step functions (g, cs) = _ := step_call hwork hvalues (by simpa using hlength)
  rw [List.map_map, Function.comp_def] at hstep
  rcases enter_cases hlibrary E name (ts.reverse.map fun t => .value (.term t)) with
    ⟨k, hk, hall, henter, happly⟩ | hmirrors
  · rw [happly, map_eq_pure_bind]
    refine Follows.before (.single (hstep.trans (by rw [henter]; rfl))) ?_
    refine (follows_activation ih (hbodies k hk) hall (by simp [IsArgument])).bind ?_
    rintro e s hs
    exact .before (.single hs) (.ok ⟨rfl, rfl, rfl, hmemory, hloop⟩)
  · refine Follows.of_mirrors ?_
    rw [hstep, ← bind_pure (apply ..)]
    refine hmirrors.bind ?_
    rintro t _ rfl
    exact ⟨_, rfl, rfl, rfl, rfl, hmemory, hloop⟩

end Activation

/-! ### Conditions -/

/-- Going on with a test whose sides have been evaluated. -/
theorem follows_compared {k : Frame} {left right : Value} {negated : Bool}
    {op : Operator} {a b : Ast} {p : Bool} (hw : k.work = .resume (.compare negated op a b) :: ws)
    (hpair : k.values = left :: right :: f.values)
    (htest : test k.verdict op left right = .ok (.truth p)) (hmemory : k.memory = f.memory)
    (hloop : k.loopName = f.loopName) :
    Follows functions n (k, callers) (.ok (p != negated))
      fun b => Pushed f ws callers (.truth b) := by
  refine Follows.of_resume hw nofun nofun ?_
  have hresume : resume { k with work := ws } (.compare negated op a b) = .ok { k with
      work := ws, values := .truth (p != negated) :: f.values, verdict := some (.truth p) } := by
    simp only [resume, Frame.pop, hpair, bind, Except.bind, htest]
    rfl
  rw [hresume]
  exact ⟨rfl, rfl, rfl, hmemory, hloop⟩

/-- A condition puts its truth value on the values, by cases on its form. -/
theorem follows_condition {E : Evaluator} (ih : Simulates functions n E) {t : Ast} {σ : Store}
    (ht : IsCondition t) (hσ : Agrees f.memory σ) (hw : f.work = .visit t :: ws) :
    Follows functions (n + 1) (f, callers) (condition E σ t)
      fun b => Pushed f ws callers (.truth b) := by
  cases t with
  | truth negated value => exact Follows.of_visit hw ⟨rfl, rfl, rfl, rfl, rfl⟩
  | compare negated op a b =>
    rw [condition]
    refine Follows.of_todo hw
      (g := { f with work := .visit b :: .visit a :: .resume (.compare negated op a b) :: ws }) rfl
      ?_
    rcases ht with ⟨hop, ha, hb⟩ | ⟨hop, ha, hb⟩
    · have hnot : ¬ isConnective op = true := by
        cases op with
        | leq | less | eq | greater | geq => exact Bool.false_ne_true
        | _ => cases hop
      rw [if_neg hnot]
      refine Follows.bind (ih.expression hb (by exact hσ) rfl) ?_
      rintro r ⟨g, _⟩ ⟨rfl, hwork, hvalues, hmemory, hloop⟩
      refine (ih.expression ha (by rwa [hmemory]) hwork).bind ?_
      rintro l ⟨k, _⟩ ⟨rfl, hwork', hvalues', hmemory', hloop'⟩
      exact follows_compared hwork' (hvalues'.trans (congrArg _ hvalues))
        (test_comparison hop _ l r) (hmemory'.trans hmemory) (hloop'.trans hloop)
    · rw [if_pos hop]
      refine Follows.bind (ih.condition hb (by exact hσ) rfl) ?_
      rintro q ⟨g, _⟩ ⟨rfl, hwork, hvalues, hmemory, hloop⟩
      refine (ih.condition ha (by rwa [hmemory]) hwork).bind ?_
      rintro p ⟨k, _⟩ ⟨rfl, hwork', hvalues', hmemory', hloop'⟩
      exact follows_compared hwork' (hvalues'.trans (congrArg _ hvalues))
        (test_connective hop _ p q) (hmemory'.trans hmemory) (hloop'.trans hloop)
  | _ => cases ht

/-! ### Instructions -/

section Instruction

variable {exit : Exit} {E : Evaluator} {a : Activation}

theorem repetitions?_term (t : Term) : repetitions? (.term t) = count? t := by
  rw [repetitions?, count?]
  rcases t.expr with _ | e
  · rfl
  · cases e with
    | rational q => simp
    | _ => rfl

theorem iterate_singleton {α : Type} (run : Activation → α → Outcome Flow)
    (a : Activation) (x : α) : iterate run a [x] = run a x := by
  rw [iterate]
  cases run a x with
  | error e => rfl
  | ok flow => cases flow <;> rfl

/-- Elements whose work is done one after the other. -/
theorem follows_iterate {α : Type} {run : Activation → α → Outcome Flow} (todo : α → List Work)
    {xs : List α}
    (hrun : ∀ x ∈ xs, ∀ {a : Activation} {f : Frame} {ws : List Work}, Agrees f.memory a.store →
      f.loopName = a.loop → f.work = todo x ++ ws →
        Follows functions n (f, callers) (run a x) (Ended functions f ws callers))
    (hm : Agrees f.memory a.store) (hl : f.loopName = a.loop)
    (hw : f.work = xs.flatMap todo ++ ws) :
    Follows functions n (f, callers) (iterate run a xs) (Ended functions f ws callers) := by
  induction xs generalizing f a with
  | nil => exact .ok ⟨rfl, hw, rfl, hm, hl⟩
  | cons x xs ih =>
    rw [List.flatMap_cons, List.append_assoc] at hw
    refine (hrun x List.mem_cons_self hm hl hw).bind ?_
    rintro flow ⟨g, cs⟩ hflow
    cases flow with
    | returned e => exact .ok hflow
    | next b =>
      obtain ⟨rfl, hwork, hvalues, hmemory, hloop⟩ := hflow
      exact (ih (fun y hy => hrun y (List.mem_cons_of_mem x hy)) hmemory hloop hwork).imp
        fun _ _ h => h.of_values hvalues

variable (ih : Simulates functions n E) (hm : Agrees f.memory a.store) (hl : f.loopName = a.loop)

include ih hm hl

/-- Instructions in a row: each starts where the one before it ended, unless that one returned. -/
theorem follows_instructions {is : List Ast} (his : ∀ i ∈ is, IsInstruction i)
    (hw : f.work = is.map .visit ++ ws) :
    Follows functions n (f, callers) (iterate E.instruction a is)
      (Ended functions f ws callers) := by
  rw [List.map_eq_flatMap] at hw
  exact follows_iterate _ (fun i hi => ih.instruction (his i hi)) hm hl hw

/-- A test chooses the instructions that are run next. -/
theorem follows_test {t c : Ast} (branch : Bool → List Ast) (hc : IsCondition c)
    (hbranch : ∀ b, ∀ i ∈ branch b, IsInstruction i) (hw : f.work = .visit t :: ws)
    (hvisit : visit { f with work := ws } t = .ok { f with work := .visit c :: .resume t :: ws })
    (hresume : ∀ (k : Frame) b vs, k.values = .truth b :: vs →
      resume k t = .ok { k with values := vs, work := (branch b).map .visit ++ k.work })
    (hgive : ∀ e, t ≠ .giveBack e) (hcall : ∀ name as, t ≠ .call name as) :
    Follows functions (n + 1) (f, callers)
      (do iterate E.instruction a (branch (← E.condition a.store c)))
      (Ended functions f ws callers) := by
  refine Follows.of_todo hw hvisit ?_
  refine Follows.bind (ih.condition hc (by exact hm) rfl) ?_
  rintro b ⟨k, cs⟩ ⟨rfl, hwork, hvalues, hmemory, hloop⟩
  have hstep : step functions (k, cs) = _ := step_resume hwork hgive hcall
  rw [hresume { k with work := ws } b f.values hvalues] at hstep
  refine Follows.before (.single hstep) ?_
  refine (follows_instructions ih ?_ ?_ (hbranch b) rfl).imp fun _ _ h => h.of_values rfl
  · exact hmemory ▸ hm
  · exact hloop.trans hl

/-- A counted loop runs its instruction as often as the number says. -/
theorem follows_repeat {e i : Ast} (he : IsExpression e) (hi : IsInstruction i)
    (hw : f.work = .visit (.repeatLoop e i) :: ws) :
    Follows functions (n + 1) (f, callers) (instruction exit E a (.repeatLoop e i))
      (Ended functions f ws callers) := by
  refine Follows.of_todo hw
    (g := { f with work := .visit e :: .resume (.repeatLoop e i) :: ws }) rfl ?_
  refine Follows.bind (ih.expression he (by exact hm) rfl) ?_
  rintro t ⟨k, cs⟩ ⟨rfl, hwork, hvalues, hmemory, hloop⟩
  have hstep : step functions (k, cs) = _ := step_resume hwork nofun nofun
  have hvalues : k.values = .term t :: f.values := hvalues
  simp only [resume, Frame.pop, hvalues, bind, Except.bind, repetitions?_term] at hstep
  cases hcount : count? t with
  | none =>
    rw [hcount] at hstep
    exact .error hstep rfl nofun
  | some m =>
    rw [hcount] at hstep
    refine Follows.before (.single hstep) ?_
    refine (follows_instructions ih ?_ ?_ ?_ ?_).imp fun _ _ h => h.of_values rfl
    · exact hmemory ▸ hm
    · exact hloop.trans hl
    · exact fun j hj => List.eq_of_mem_replicate hj ▸ hi
    · rw [List.map_replicate]
      rfl

/-- The runs of a loop over the members of a term. -/
theorem follows_members {x : String} {e i : Ast} (he : IsExpression e) (hi : IsInstruction i)
    (hw : f.work = .visit e :: .resume (.foreachLoop x e i) :: ws) :
    Follows functions n (f, callers)
      (do
        let t ← E.expression a.store e
        iterate (fun a t => E.instruction (a.set x t) i) a (t.members.getD [t]).reverse)
      (Ended functions f ws callers) := by
  refine Follows.bind (ih.expression he hm hw) ?_
  rintro t ⟨k, cs⟩ ⟨rfl, hwork, hvalues, hmemory, hloop⟩
  have hstep : step functions (k, cs) = _ := step_resume hwork nofun nofun
  have hvalues : k.values = .term t :: f.values := hvalues
  simp only [resume, Frame.pop, hvalues, bind, Except.bind, range] at hstep
  refine Follows.before (.single hstep) ?_
  refine (follows_iterate (fun t => [.bind x t, .visit i]) ?_ ?_ ?_ rfl).imp
    fun _ _ h => h.of_values rfl
  · intro t _ a f ws hm hl hw
    refine Follows.before (.single (step_bind hw)) ?_
    refine (ih.instruction hi ?_ ?_ rfl).imp fun _ _ h => h.of_values rfl
    · exact hm.set x t
    · exact hl
  · exact hmemory ▸ hm
  · exact hloop.trans hl

omit ih in
/-- The end of a loop gives its variable the old value back, or removes the variable that was
entered last. -/
theorem follows_leaveLoop {x : String} {old : Option Term}
    (hw : f.work = (old.elim .forget (.bind x)) :: ws) :
    Follows functions n (f, callers) (leaveLoop lastEntered x old a) (Advanced f ws callers) := by
  cases old with
  | some t => exact .before (.single (step_bind hw)) (.ok ⟨rfl, rfl, rfl, hm.set x t, hl⟩)
  | none =>
    have hw : f.work = .forget :: ws := hw
    simp only [leaveLoop, lastEntered]
    cases hloop : a.loop with
    | none =>
      refine Follows.error (e := .noBinding "") ?_ rfl nofun
      simp only [step, hw, hl, hloop]
    | some y =>
      have hstep : step functions (f, callers) = if (a.store y).isSome
          then .ok (.next ({ f with work := ws, memory := f.memory.erase y }, callers))
          else .error (.noBinding y) := by
        simp only [step, hw, hl, hloop, hm.holds]
      simp only [bind, Except.bind]
      split at hstep
      · rename_i hy
        rw [if_pos hy]
        exact .before (.single hstep) (.ok ⟨rfl, rfl, rfl, hm.erase y, hl⟩)
      · rename_i hy
        rw [if_neg hy]
        exact .error hstep rfl nofun

/-- A loop over members binds its variable to each of them in turn. -/
theorem follows_foreach {x : String} {e i : Ast} (he : IsExpression e) (hi : IsInstruction i)
    (hw : f.work = .visit (.foreachLoop x e i) :: ws) :
    Follows functions (n + 1) (f, callers) (instruction lastEntered E a (.foreachLoop x e i))
      (Ended functions f ws callers) := by
  -- the activation and the frame that the loop is entered with
  let b : Activation := if (a.store x).isSome then a else { a with loop := some x }
  have hstore : b.store = a.store := by
    simp only [b]
    split <;> rfl
  have hvisit : visit { f with work := ws } (.foreachLoop x e i) = .ok { f with
      work := .visit e :: .resume (.foreachLoop x e i) :: (a.store x).elim .forget (.bind x) :: ws
      loopName := b.loop } := by
    simp only [visit, hm x, b]
    cases a.store x with
    | none => rfl
    | some t => simp [Frame.todo, hl]
  have hrule : instruction lastEntered E a (.foreachLoop x e i) = (do
      let flow ← (do
        let t ← E.expression b.store e
        iterate (fun a t => E.instruction (a.set x t) i) b (t.members.getD [t]).reverse)
      match flow with
      | .next c => Flow.next <$> leaveLoop lastEntered x (a.store x) c
      | .returned r => .ok (.returned r)) := by
    rewrite [instruction, bind_assoc, hstore]
    rfl
  rw [hrule]
  refine Follows.of_todo hw hvisit ?_
  refine Follows.bind (follows_members ih (by rw [hstore]; exact hm) rfl he hi rfl) ?_
  rintro flow ⟨k, cs⟩ hflow
  cases flow with
  | returned r => exact .ok hflow
  | next c =>
    obtain ⟨rfl, hwork, hvalues, hmemory, hloop⟩ := hflow
    simp only [map_eq_pure_bind]
    refine (follows_leaveLoop hmemory hloop hwork).bind ?_
    intro d s hd
    exact .ok (Advanced.of_values hd hvalues)

omit hl in
/-- A return ends the activation with the simplified value. -/
theorem follows_giveBack {e : Ast} (he : IsExpression e)
    (hw : f.work = .visit (.giveBack e) :: ws) :
    Follows functions (n + 1) (f, callers) (instruction exit E a (.giveBack e))
      (Ended functions f ws callers) := by
  refine Follows.of_todo hw (g := { f with work := .visit e :: .resume (.giveBack e) :: ws }) rfl ?_
  refine Follows.bind (ih.expression he (by exact hm) rfl) ?_
  rintro t ⟨k, cs⟩ ⟨rfl, hwork, hvalues, hmemory, hloop⟩
  have hwork : k.work = .resume (.giveBack e) :: ws := hwork
  have hvalues : k.values = .term t :: f.values := hvalues
  have hstep : step functions (k, cs) = _ := step_giveBack hwork hvalues
  cases hsimplify : t.simplify with
  | error c =>
    rw [hsimplify] at hstep
    exact .error hstep rfl nofun
  | ok r =>
    rw [hsimplify] at hstep
    exact .ok hstep

/-- An instruction does what the semantics says, by cases on its form. -/
theorem follows_instruction {t : Ast} (ht : IsInstruction t) (hw : f.work = .visit t :: ws) :
    Follows functions (n + 1) (f, callers) (instruction lastEntered E a t)
      (Ended functions f ws callers) := by
  cases t with
  | block is =>
    refine Follows.of_todo hw (g := { f with work := is.map .visit ++ ws }) rfl ?_
    exact (follows_instructions ih (by exact hm) (by exact hl) (areInstructions_iff.1 ht) rfl).imp
      fun _ _ h => h.of_values rfl
  | assign x e =>
    have hrule : instruction lastEntered E a (.assign x e) =
        (do return a.set x (← E.expression a.store e)) >>= fun b => .ok (.next b) := by
      rw [instruction, bind_assoc]
      rfl
    rw [hrule]
    exact (follows_assign ih ht hm hl hw).bind fun _ _ h => .ok h
  | foreachLoop x e i => exact follows_foreach ih hm hl ht.1 ht.2 hw
  | repeatLoop e i => exact follows_repeat ih hm hl ht.1 ht.2 hw
  | giveBack e => exact follows_giveBack ih hm ht hw
  | ifThen c i =>
    have hrule : instruction lastEntered E a (.ifThen c i) =
        (do iterate E.instruction a (bif ← E.condition a.store c then [i] else [])) := by
      rw [instruction]
      congr 1
      funext b
      cases b with
      | false => rfl
      | true => exact (iterate_singleton ..).symm
    rw [hrule]
    refine follows_test ih hm hl _ ht.1 ?_ hw rfl ?_ nofun nofun
    · rintro (_ | _)
      · exact nofun
      · simpa using ht.2
    · rintro k (_ | _) vs hk <;>
      · simp only [resume, Frame.pop, hk]
        rfl
  | ifElse c i j =>
    have hrule : instruction lastEntered E a (.ifElse c i j) =
        (do iterate E.instruction a [bif ← E.condition a.store c then i else j]) := by
      rw [instruction]
      congr 1
      funext b
      cases b <;> exact (iterate_singleton ..).symm
    rw [hrule]
    refine follows_test ih hm hl (fun b => [bif b then i else j]) ht.1 ?_ hw rfl ?_ nofun nofun
    · rintro (_ | _)
      · simpa using ht.2.2
      · simpa using ht.2.1
    · rintro k (_ | _) vs hk <;>
      · simp only [resume, Frame.pop, hk]
        rfl
  | whileLoop c i =>
    have hrule : instruction lastEntered E a (.whileLoop c i) =
        (do
          let holds ← E.condition a.store c
          iterate E.instruction a (bif holds then [i, .whileLoop c i] else [])) := by
      rw [instruction]
      congr 1
      funext b
      cases b <;> rfl
    rw [hrule]
    refine follows_test ih hm hl _ ht.1 ?_ hw rfl ?_ nofun nofun
    · rintro (_ | _)
      · exact nofun
      · simpa using ⟨ht.2, ht⟩
    · rintro k (_ | _) vs hk <;>
      · simp only [resume, Frame.pop, hk]
        rfl
  | _ => cases ht

end Instruction

/-! ### Programs -/

/-- An expression does what the semantics says, by cases on its form. -/
theorem follows_expression (hlibrary : ∀ g ∈ functions, LibraryFunction.ofName? g.name = none)
    (hbodies : ∀ g ∈ functions, IsInstruction g.body) {E : Evaluator} (ih : Simulates functions n E)
    {t : Ast} {σ : Store} (ht : IsExpression t) (hσ : Agrees f.memory σ)
    (hw : f.work = .visit t :: ws) :
    Follows functions (n + 1) (f, callers) (expression functions E σ t)
      fun v => Pushed f ws callers (.term v) := by
  cases t with
  | nat negated digits => exact follows_nat hw
  | sym negated letter => exact follows_sym hw
  | id negated x => exact follows_id hσ hw
  | binary negated op a b => exact follows_binary hσ ih ht.1 ht.2.1 ht.2.2 hw
  | call name as => exact follows_call ih hlibrary hbodies hσ (areExpressions_iff.1 ht) hw
  | _ => cases ht

/-- The machine does what the semantics says, whatever the bound. -/
theorem simulates (hlibrary : ∀ g ∈ functions, LibraryFunction.ofName? g.name = none)
    (hbodies : ∀ g ∈ functions, IsInstruction g.body) (n : Nat) :
    Simulates functions n (evaluator functions lastEntered n) := by
  induction n with
  | zero =>
    exact ⟨fun _ _ _ => .unbounded, fun _ _ _ => .unbounded, fun _ _ _ _ => .unbounded⟩
  | succ n ih =>
    exact ⟨follows_expression hlibrary hbodies ih, follows_condition ih,
      fun ht hm hl hw => follows_instruction ih hm hl ht hw⟩

end SymScript.Machine
