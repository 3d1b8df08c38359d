import SymScript.Proofs.Simulation

/-!
# Calls of a program

The machine and the semantics give the same results.  The machine removes the variable of the loop
that was entered last, and so it agrees with the semantics in which every loop removes its own
variable as long as no loop ends after another one was entered in it; a program with two nested
loops shows that the condition is needed.
-/

namespace SymScript

namespace Semantics

/-! ### Outcomes that were cut short -/

/-- The outcome `x` is `y`, or was cut short with the failure `c`. -/
def Cut {α : Type} (c : Failure) (x y : Outcome α) : Prop := x = .error c ∨ x = y

namespace Cut

variable {α β : Type} {c : Failure} {x y : Outcome α}

theorem refl : Cut c x x := .inr rfl

/-- Computations in a row are cut short only if one of them is. -/
theorem bind {f g : α → Outcome β} (h : Cut c x y) (hfg : ∀ a, Cut c (f a) (g a)) :
    Cut c (x >>= f) (y >>= g) := by
  rcases h with rfl | rfl
  · exact .inl rfl
  · cases x with
    | error d => exact .refl
    | ok a => exact hfg a

theorem map {f : α → β} (h : Cut c x y) : Cut c (f <$> x) (f <$> y) := by
  rcases h with rfl | rfl
  · exact .inl rfl
  · exact .refl

/-- A list of computations is cut short only if one of them is. -/
theorem mapM {f g : α → Outcome β} (hfg : ∀ a, Cut c (f a) (g a)) (as : List α) :
    Cut c (as.mapM f) (as.mapM g) := by
  induction as with
  | nil => exact .refl
  | cons a as ih =>
    rw [List.mapM_cons, List.mapM_cons]
    exact (hfg a).bind fun _ => ih.bind fun _ => .refl

/-- A fold is cut short only if one of its steps is. -/
theorem foldlM {f g : β → α → Outcome β} (hfg : ∀ b a, Cut c (f b a) (g b a))
    (as : List α) (b : β) : Cut c (as.foldlM f b) (as.foldlM g b) := by
  induction as generalizing b with
  | nil => exact .refl
  | cons a as ih =>
    rw [List.foldlM_cons, List.foldlM_cons]
    exact (hfg b a).bind ih

/-- A loop is cut short only if one of its rounds is. -/
theorem iterate {f g : Activation → α → Outcome Flow} (hfg : ∀ a x, Cut c (f a x) (g a x))
    (a : Activation) (xs : List α) : Cut c (iterate f a xs) (iterate g a xs) := by
  induction xs generalizing a with
  | nil => exact .refl
  | cons x xs ih =>
    refine (hfg a x).bind fun flow => ?_
    cases flow with
    | next b => exact ih b
    | returned e => exact .refl

end Cut

/-- The evaluators `E` are those of `E'`, but may be cut short. -/
structure Evaluator.Cut (c : Failure) (E E' : Evaluator) : Prop where
  expression : ∀ σ t, Semantics.Cut c (E.expression σ t) (E'.expression σ t)
  condition : ∀ σ t, Semantics.Cut c (E.condition σ t) (E'.condition σ t)
  instruction : ∀ a t, Semantics.Cut c (E.instruction a t) (E'.instruction a t)

section Rules

variable {functions : List FunctionDef} {c : Failure} {E E' : Evaluator} (h : E.Cut c E')

include h

/-- Binding a parameter is cut short only if its expression is. -/
theorem cut_assignArgument (a : Activation) (p : String × Argument) :
    Cut c (assignArgument E a p) (assignArgument E' a p) := by
  obtain ⟨x, argument⟩ := p
  cases argument with
  | value v => cases v <;> exact .refl
  | plain => exact .refl
  | node e =>
    cases e with
    | term t => exact .refl
    | _ => exact (h.expression _ _).bind fun _ => .refl

/-- Running a function is cut short only if its body is. -/
theorem cut_activate (f : FunctionDef) (arguments : List Argument) :
    Cut c (activate E f arguments) (activate E' f arguments) :=
  (Cut.foldlM (cut_assignArgument h) _ _).bind fun a => (h.instruction a f.body).bind fun _ => .refl

/-- A call is cut short only if the function is. -/
theorem cut_apply (name : String) (arguments : List Argument) :
    Cut c (apply functions E name arguments) (apply functions E' name arguments) := by
  simp only [apply]
  split
  · split
    · exact .refl
    · split
      · exact .refl
      · exact (cut_activate h _ _).map
  · exact .refl

/-- An expression is cut short only if one of its parts is. -/
theorem cut_expression (σ : Store) (t : Ast) :
    Cut c (expression functions E σ t) (expression functions E' σ t) := by
  cases t with
  | binary negated op a b =>
    exact (h.expression σ b).bind fun _ => (h.expression σ a).bind fun _ => .refl
  | call name as => exact (Cut.mapM (h.expression σ) _).bind fun _ => cut_apply h _ _
  | _ => exact .refl

/-- A condition is cut short only if one of its parts is. -/
theorem cut_condition (σ : Store) (t : Ast) : Cut c (condition E σ t) (condition E' σ t) := by
  cases t with
  | compare negated op a b =>
    rw [condition, condition]
    split
    · exact (h.condition σ b).bind fun _ => (h.condition σ a).bind fun _ => .refl
    · exact (h.expression σ b).bind fun _ => (h.expression σ a).bind fun _ => .refl
  | _ => exact .refl

/-- An instruction is cut short only if one of its parts is, or the end of a loop. -/
theorem cut_instruction {exit exit' : Exit} (hexit : ∀ x last, Cut c (exit x last) (exit' x last))
    (a : Activation) (t : Ast) : Cut c (instruction exit E a t) (instruction exit' E' a t) := by
  have hleave (x : String) (old : Option Term) (a : Activation) :
      Cut c (leaveLoop exit x old a) (leaveLoop exit' x old a) := by
    cases old with
    | some t => exact .refl
    | none => exact (hexit x a.loop).bind fun _ => .refl
  cases t with
  | block is => exact Cut.iterate h.instruction a is
  | assign x e => exact (h.expression _ e).bind fun _ => .refl
  | ifThen b i =>
    refine (h.condition _ b).bind fun b => ?_
    cases b
    · exact .refl
    · exact h.instruction a i
  | ifElse b i j =>
    refine (h.condition _ b).bind fun b => ?_
    cases b
    · exact h.instruction a j
    · exact h.instruction a i
  | repeatLoop e i =>
    refine (h.expression _ e).bind fun t => ?_
    cases count? t
    · exact .refl
    · exact Cut.iterate h.instruction a _
  | whileLoop b i =>
    refine (h.condition _ b).bind fun b => ?_
    cases b
    · exact .refl
    · exact Cut.iterate h.instruction a _
  | foreachLoop x e i =>
    refine (h.expression _ e).bind fun t => ?_
    refine (Cut.iterate (fun a t => h.instruction (a.set x t) i) _ _).bind fun flow => ?_
    cases flow with
    | next b => exact (hleave x _ b).map
    | returned r => exact .refl
  | giveBack e => exact (h.expression _ e).bind fun _ => .refl
  | _ => exact .refl

end Rules

variable {functions : List FunctionDef}

/-- Changing how loops end changes a program only where it is cut short. -/
theorem cut_exit {c : Failure} {exit exit' : Exit}
    (hexit : ∀ x last, Cut c (exit x last) (exit' x last)) (n : Nat) :
    (evaluator functions exit n).Cut c (evaluator functions exit' n) := by
  induction n with
  | zero => exact ⟨fun _ _ => .refl, fun _ _ => .refl, fun _ _ => .refl⟩
  | succ n ih => exact ⟨cut_expression ih, cut_condition ih, cut_instruction ih hexit⟩

/-- A program that does not run out of depth does not need more. -/
theorem cut_succ {exit : Exit} (n : Nat) :
    (evaluator functions exit n).Cut .endless (evaluator functions exit (n + 1)) := by
  induction n with
  | zero => exact ⟨fun _ _ => .inl rfl, fun _ _ => .inl rfl, fun _ _ => .inl rfl⟩
  | succ n ih => exact ⟨cut_expression ih, cut_condition ih, cut_instruction ih fun _ _ => .refl⟩

/-- A call that ends keeps its outcome with more depth. -/
theorem call_mono {exit : Exit} {m n : Nat} (hmn : m ≤ n) {name : String}
    {arguments : List Argument} (h : call functions exit m name arguments ≠ .error .endless) :
    call functions exit n name arguments = call functions exit m name arguments := by
  induction hmn with
  | refl => rfl
  | @step n _ ih =>
    have hcut : Cut .endless (call functions exit n name arguments)
        (call functions exit (n + 1) name arguments) := cut_apply (cut_succ n) name arguments
    rw [← ih] at h
    exact (hcut.resolve_left h).symm.trans ih

/-- Where both ways to end a loop agree, the variable of the loop is removed. -/
theorem agreeing_cut_ownVariable (x : String) (last : Option String) :
    Cut .tangled (agreeing x last) (ownVariable x last) := by
  rw [agreeing]
  split
  · exact .refl
  · exact .inl rfl

/-- Where both ways to end a loop agree, the last variable is removed. -/
theorem agreeing_cut_lastEntered (x : String) (last : Option String) :
    Cut .tangled (agreeing x last) (lastEntered x last) := by
  rw [agreeing]
  split
  · rename_i h
    subst h
    exact .refl
  · exact .inl rfl

/-- Where no loop is tangled, it does not matter which variable a loop removes. -/
theorem call_lastEntered {n : Nat} {name : String} {arguments : List Argument}
    (h : call functions agreeing n name arguments ≠ .error .tangled) :
    call functions lastEntered n name arguments = call functions ownVariable n name arguments := by
  have hown : Cut .tangled (call functions agreeing n name arguments)
      (call functions ownVariable n name arguments) :=
    cut_apply (cut_exit agreeing_cut_ownVariable n) name arguments
  have hlast : Cut .tangled (call functions agreeing n name arguments)
      (call functions lastEntered n name arguments) :=
    cut_apply (cut_exit agreeing_cut_lastEntered n) name arguments
  exact (hlast.resolve_left h).symm.trans (hown.resolve_left h)

/-- A program that ends without a tangled loop has none, whatever the bound. -/
theorem not_tangled {m : Nat} {name : String} {arguments : List Argument} {t : Term}
    (h : call functions agreeing m name arguments = .ok t) (n : Nat) :
    call functions agreeing n name arguments ≠ .error .tangled := by
  intro hn
  have hm : call functions agreeing (max m n) name arguments = .ok t :=
    (call_mono (Nat.le_max_left m n) (by rw [h]; nofun)).trans h
  rw [call_mono (Nat.le_max_right m n) (by rw [hn]; nofun), hn] at hm
  cases hm

/-- A function of a program. -/
def IsFunction : Ast → Prop
  | .function _ _ body => IsInstruction body
  | _ => False

end Semantics

namespace FunctionDef

/-- In a program that is accepted no function has the name of one of the library. -/
theorem check_ok {all ts : List Ast} (h : check all ts = .ok ()) :
    ∀ t ∈ ts, ∀ f, ofAst? t = some f → LibraryFunction.ofName? f.name = none := by
  induction ts with
  | nil => exact nofun
  | cons t ts ih =>
    rw [check] at h
    split at h
    · cases h
    · rename_i f hf
      split at h
      · cases h
      · rename_i hname
        split at h
        · cases h
        · split at h
          · cases h
          · refine List.forall_mem_cons.2 ⟨?_, ih h⟩
            intro g hg
            cases hf.symm.trans hg
            simpa using hname

/-- A program is loaded if it is accepted, and gives its functions. -/
theorem load_ok {nodes : List Ast} {functions : List FunctionDef} (h : load nodes = .ok functions) :
    check nodes nodes = .ok () ∧ functions = nodes.filterMap ofAst? := by
  rw [load] at h
  cases hcheck : check nodes nodes with
  | error e =>
    rw [hcheck] at h
    cases h
  | ok u =>
    rw [hcheck] at h
    cases h
    exact ⟨rfl, rfl⟩

/-- No function of a program hides a library function. -/
theorem ofName?_of_load {nodes : List Ast} {functions : List FunctionDef}
    (h : load nodes = .ok functions) : ∀ f ∈ functions, LibraryFunction.ofName? f.name = none := by
  obtain ⟨hcheck, rfl⟩ := load_ok h
  intro f hf
  obtain ⟨t, ht, hft⟩ := List.mem_filterMap.1 hf
  exact check_ok hcheck t ht f hft

/-- The bodies of the functions that are loaded are instructions. -/
theorem isInstruction_of_load {nodes : List Ast} {functions : List FunctionDef}
    (h : load nodes = .ok functions) (hnodes : ∀ t ∈ nodes, Semantics.IsFunction t) :
    ∀ f ∈ functions, Semantics.IsInstruction f.body := by
  obtain ⟨-, rfl⟩ := load_ok h
  intro f hf
  obtain ⟨t, ht, hft⟩ := List.mem_filterMap.1 hf
  have := hnodes t ht
  cases t with
  | function name ps body =>
    cases hft
    exact this
  | _ => cases hft

end FunctionDef

namespace Machine

open Semantics

variable {functions : List FunctionDef}

/-- What a call comes to within a number of steps, with the reason for a failure. -/
def outcome (steps : Nat) (functions : List FunctionDef) (name : String)
    (arguments : List Argument) : Outcome Term :=
  (call steps functions name arguments).mapError RunError.cause

/-- An execution that follows an outcome ends with it. -/
theorem mapError_cause_run {s : State} {x : Outcome Expr} {n : Nat}
    (h : Follows functions n s x fun e t => step functions t = .ok (.returned e))
    (hx : x ≠ .error .endless) : ∃ m, (run functions m s).mapError RunError.cause = x := by
  cases x with
  | ok e =>
    obtain ⟨t, hst, ht⟩ := h.value e rfl
    obtain ⟨m, hm⟩ := run_of_steps hst 1
    exact ⟨m, by rw [hm, run, ht]; rfl⟩
  | error c =>
    obtain ⟨t, e, hst, ht, rfl⟩ := h.failure c rfl fun hc => hx (by rw [hc])
    obtain ⟨m, hm⟩ := run_of_steps hst 1
    exact ⟨m, by rw [hm, run, ht]; rfl⟩

theorem mapError_map {ε ε' α β : Type} (g : α → β) (f : ε → ε') (x : Except ε α) :
    (g <$> x).mapError f = g <$> x.mapError f := by
  cases x <;> rfl

/-- A call that enters no function of the program. -/
theorem outcome_of_mirrors {name : String} {arguments : List Argument} {x : Outcome Term}
    (h : Mirrors x (enter functions name arguments) fun t r => r = .value t) (k : Nat) :
    outcome k functions name arguments = x ∧ x ≠ .error .endless := by
  rw [outcome, call]
  cases x with
  | ok t =>
    cases henter : enter functions name arguments with
    | error e => exact (henter ▸ h).elim
    | ok r =>
      obtain rfl : r = .value t := by rwa [henter] at h
      exact ⟨rfl, nofun⟩
  | error c =>
    cases henter : enter functions name arguments with
    | ok r => exact (henter ▸ h).elim
    | error e =>
      obtain ⟨rfl, hne⟩ : e.cause = c ∧ c ≠ .endless := by rwa [henter] at h
      exact ⟨rfl, fun hc => hne (Except.error.inj hc)⟩

/-- A call comes to what the semantics says, and goes on where the semantics ran out of its
bound. -/
theorem outcome_of_call (hlibrary : ∀ g ∈ functions, LibraryFunction.ofName? g.name = none)
    (hbodies : ∀ g ∈ functions, IsInstruction g.body) (name : String) {arguments : List Argument}
    (hargs : ∀ x ∈ arguments, IsArgument x) (n : Nat) :
    (Semantics.call functions lastEntered n name arguments = .error .endless →
        outcome n functions name arguments = .error .endless) ∧
      (Semantics.call functions lastEntered n name arguments ≠ .error .endless →
        ∃ k, outcome k functions name arguments =
          Semantics.call functions lastEntered n name arguments) := by
  rcases enter_cases hlibrary (evaluator functions lastEntered n) name arguments with
    ⟨g, hg, hall, henter, happly⟩ | hmirrors
  · have hfollows : Follows functions n (activation g arguments, []) _ _ :=
      follows_activation (simulates hlibrary hbodies n) (hbodies g hg) hall hargs
    have houtcome (k : Nat) : outcome k functions name arguments = Term.tree <$>
        (run functions k (activation g arguments, [])).mapError RunError.cause := by
      rw [outcome, call, henter, ← mapError_map]
      rfl
    rw [Semantics.call, happly]
    constructor
    · intro h
      have hendless : activate (evaluator functions lastEntered n) g arguments =
          .error .endless := by
        cases hr : activate (evaluator functions lastEntered n) g arguments with
        | ok e =>
          rw [hr] at h
          cases h
        | error c =>
          rw [hr] at h
          cases h
          rfl
      rw [houtcome, run_of_lives (hfollows.endless hendless)]
      rfl
    · intro h
      obtain ⟨k, hk⟩ := mapError_cause_run hfollows fun hx => h (by rw [hx]; rfl)
      exact ⟨k, by rw [houtcome, hk]⟩
  · have houtcome := outcome_of_mirrors hmirrors
    exact ⟨fun h => absurd h (houtcome 0).2, fun _ => ⟨0, (houtcome 0).1⟩⟩

/-- Bounds that suffice give the same outcome. -/
theorem outcome_eq_of_ne {j k : Nat} {name : String} {arguments : List Argument}
    (hj : outcome j functions name arguments ≠ .error .endless)
    (hk : outcome k functions name arguments ≠ .error .endless) :
    outcome j functions name arguments = outcome k functions name arguments := by
  have hrun (s : State) (k : Nat)
      (h : (Term.tree <$> run functions k s).mapError RunError.cause ≠ .error .endless) :
      run functions k s ≠ .error .endless := fun hr => h (by rw [hr]; rfl)
  simp only [outcome, call] at hj hk ⊢
  cases henter : enter functions name arguments with
  | error e => rfl
  | ok r =>
    rw [henter] at hj hk
    cases r with
    | value t => rfl
    | frame g =>
      exact congrArg (fun x => (Term.tree <$> x).mapError RunError.cause)
        (run_eq_of_ne (hrun (g, []) j hj) (hrun (g, []) k hk))

/-- The machine and the semantics come to the same. -/
theorem outcome_iff (hlibrary : ∀ g ∈ functions, LibraryFunction.ofName? g.name = none)
    (hbodies : ∀ g ∈ functions, IsInstruction g.body) (name : String) {arguments : List Argument}
    (hargs : ∀ x ∈ arguments, IsArgument x) {o : Outcome Term} (ho : o ≠ .error .endless) :
    (∃ k, outcome k functions name arguments = o) ↔
      ∃ n, Semantics.call functions lastEntered n name arguments = o := by
  have hcall := outcome_of_call hlibrary hbodies name hargs
  constructor
  · rintro ⟨k, rfl⟩
    have hne : Semantics.call functions lastEntered k name arguments ≠ .error .endless :=
      fun h => ho ((hcall k).1 h)
    obtain ⟨j, hj⟩ := (hcall k).2 hne
    exact ⟨k, hj.symm.trans (outcome_eq_of_ne (hj ▸ hne) ho)⟩
  · rintro ⟨n, rfl⟩
    exact (hcall n).2 ho

/-- A program runs as it is meant: a call gives a value, or fails for a reason, exactly where its
recursive reading does.  Loops that found their variables unbound remove the variable of the loop
that was entered last; where no such loop ends after another one was entered in it, every loop
removes its own variable. -/
theorem outcome_iff_meaning {nodes : List Ast} {functions : List FunctionDef}
    (hload : FunctionDef.load nodes = .ok functions) (hnodes : ∀ t ∈ nodes, IsFunction t)
    (name : String) {arguments : List Argument} (hargs : ∀ x ∈ arguments, IsArgument x)
    {o : Outcome Term} (ho : o ≠ .error .endless) :
    ((∃ k, outcome k functions name arguments = o) ↔
        ∃ n, Semantics.call functions lastEntered n name arguments = o) ∧
      ((∀ n, Semantics.call functions agreeing n name arguments ≠ .error .tangled) →
        ((∃ k, outcome k functions name arguments = o) ↔
          ∃ n, Semantics.call functions ownVariable n name arguments = o)) := by
  have hiff := outcome_iff (FunctionDef.ofName?_of_load hload)
    (FunctionDef.isInstruction_of_load hload hnodes) name hargs ho
  refine ⟨hiff, fun hagree => hiff.trans ?_⟩
  simp only [fun n => call_lastEntered (hagree n)]

/-- A call, and two loops one after the other. -/
def loopsInTurn : List Ast :=
  [.function "Main" [] (.giveBack
      (.call "Last" [.binary false .sum (.sym false "x") (.sym false "y")])),
    .function "Last" ["A"] (.block
      [.foreachLoop "V" (.id false "A") (.assign "B" (.id false "V")),
        .foreachLoop "W" (.id false "B")
          (.assign "A" (.binary true .mul (.nat false "2") (.id false "W"))),
        .giveBack (.id false "A")])]

theorem outcome_iff_meaning_loopsInTurn : (∀ t ∈ loopsInTurn, IsFunction t) ∧
    ∃ functions, FunctionDef.load loopsInTurn = .ok functions ∧
      (∀ n, Semantics.call functions agreeing n "Main" [] ≠ .error .tangled) ∧
      ∃ k, outcome k functions "Main" [] =
        .ok (.tree (.product true [.rational (.ofNat 2), .symbol false 'x'])) := by
  have hnodes : ∀ t ∈ loopsInTurn, IsFunction t := by
    simp [loopsInTurn, IsFunction, IsInstruction, AreInstructions, IsExpression, AreExpressions,
      isArithmetic]
  have hagree : Semantics.call (loopsInTurn.filterMap FunctionDef.ofAst?) agreeing 20 "Main" [] =
      .ok (.tree (.product true [.rational (.ofNat 2), .symbol false 'x'])) := by
    decide +kernel
  refine ⟨hnodes, _, rfl, not_tangled hagree, ?_⟩
  refine ((outcome_iff_meaning rfl hnodes "Main" (List.forall_mem_nil _) ?_).2
    (not_tangled hagree)).2 ⟨20, ?_⟩
  · exact nofun
  · decide +kernel

/-- A loop in a loop, both with variables that are new. -/
def loopInLoop : List Ast :=
  [.function "Main" [] (.block
    [.foreachLoop "V" (.sym false "x") (.block
        [.foreachLoop "W" (.sym false "y") (.block [.assign "A" (.id false "W")])]),
      .giveBack (.sym false "z")])]

/-- The outer loop finds nothing to remove. -/
theorem loopInLoop_tangles : (∀ t ∈ loopInLoop, IsFunction t) ∧
    ∃ functions, FunctionDef.load loopInLoop = .ok functions ∧
      Semantics.call functions ownVariable 10 "Main" [] = .ok (.tree (.symbol false 'z')) ∧
      outcome 20 functions "Main" [] = .error (.nothingToRemove "W") := by
  refine ⟨?_, _, rfl, ?_, ?_⟩
  · simp [loopInLoop, IsFunction, IsInstruction, AreInstructions, IsExpression]
  · decide +kernel
  · decide +kernel

end Machine

end SymScript
