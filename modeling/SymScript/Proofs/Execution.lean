import Mathlib.Logic.Relation
import SymScript.Proofs.Depth
import SymScript.Proofs.Semantics

/-!
# Runs of the machine

A run goes on from state to state, fails at a state, or leaves the last frame.  `Follows` relates
what the machine does from a state to an outcome of the semantics: where the outcome is a value the
machine reaches a state that fits it, where it is a failure the machine fails for the same reason,
and where the bound on the depth ran out the machine is still running after as many steps.
-/

namespace SymScript

open Semantics (Failure Outcome)

/-- The reason for an error, without the memory that is reported with it. -/
def RunError.cause : RunError → Failure
  | .reported (.notFound f) _ _ | .reported (.noOverload f _ _) _ _ => .notFound f
  | .reported (.sameParameters f) _ _ => .sameParameters f
  | .reported (.notExpressions f) _ _ => .notExpressions f
  | .reported .badRepeat _ _ => .badRepeat
  | .reported (.unbound x) _ _ => .unbound x
  | .reported (.noReturn _) _ _ => .noReturn
  | .algebra e => .algebra e
  | .badDigits => .badDigits
  | .noBinding x => .nothingToRemove x
  | .endless => .endless
  | _ => .ungrammatical

namespace Machine

variable {functions : List FunctionDef}

/-! ### Runs -/

variable (functions) in
def Steps : State → State → Prop :=
  Relation.ReflTransGen fun s t => step functions s = .ok (.next t)

variable (functions) in
/-- The machine can take this many steps. -/
def Lives : Nat → State → Prop
  | 0, _ => True
  | n + 1, s => ∃ t, step functions s = .ok (.next t) ∧ Lives n t

variable (functions) in
/-- The machine comes to a state where it fails for this reason. -/
def Fails (s : State) (c : Failure) : Prop :=
  ∃ t e, Steps functions s t ∧ step functions t = .error e ∧ e.cause = c

/-- What lives for longer lives. -/
theorem Lives.of_succ {n : Nat} {s : State} (h : Lives functions (n + 1) s) :
    Lives functions n s := by
  induction n generalizing s with
  | zero => trivial
  | succ n ih =>
    obtain ⟨t, hs, ht⟩ := h
    exact ⟨t, hs, ih ht⟩

theorem Lives.mono {m n : Nat} {s : State} (h : Lives functions n s) (hmn : m ≤ n) :
    Lives functions m s := by
  induction hmn with
  | refl => exact h
  | step _ ih => exact ih h.of_succ

/-- What reaches a state that lives does so too. -/
theorem Lives.before {n : Nat} {s t : State} (hst : Steps functions s t) (h : Lives functions n t) :
    Lives functions n s := by
  induction hst using Relation.ReflTransGen.head_induction_on with
  | refl => exact h
  | head hs _ ih => exact Lives.of_succ ⟨_, hs, ih⟩

/-- What reaches a state that fails does so too. -/
theorem Fails.before {s t : State} {c : Failure} (hst : Steps functions s t)
    (h : Fails functions t c) : Fails functions s c := by
  obtain ⟨u, e, htu, hu, hc⟩ := h
  exact ⟨u, e, hst.trans htu, hu, hc⟩

/-! ### Outcomes -/

variable (functions) in
/-- What the machine does from a state, told by an outcome. -/
structure Follows {α : Type} (n : Nat) (s : State) (x : Outcome α) (P : α → State → Prop) :
    Prop where
  value : ∀ a, x = .ok a → ∃ t, Steps functions s t ∧ P a t
  failure : ∀ c, x = .error c → c ≠ .endless → Fails functions s c
  endless : x = .error .endless → Lives functions n s

namespace Follows

variable {α β : Type} {n : Nat} {s t : State} {x : Outcome α} {P : α → State → Prop}

theorem ok {a : α} (h : P a s) : Follows functions n s (.ok a) P where
  value b hb := by
    cases hb
    exact ⟨s, .refl, h⟩
  failure := nofun
  endless := nofun

/-- A step that fails follows the failure. -/
theorem error {e : RunError} {c : Failure} (hs : step functions s = .error e) (hc : e.cause = c)
    (hne : c ≠ .endless) : Follows functions n s (.error c) P where
  value := nofun
  failure d hd _ := by
    cases hd
    exact ⟨s, e, .refl, hs, hc⟩
  endless hd := by
    cases hd
    exact absurd rfl hne

/-- With no bound left nothing is said. -/
theorem unbounded : Follows functions 0 s (.error .endless : Outcome α) P where
  value := nofun
  failure c hc hne := by
    cases hc
    exact absurd rfl hne
  endless _ := trivial

theorem mono {m : Nat} (h : Follows functions n s x P) (hmn : m ≤ n) :
    Follows functions m s x P where
  value := h.value
  failure := h.failure
  endless hx := (h.endless hx).mono hmn

/-- What is known at the end may be weakened. -/
theorem imp {Q : α → State → Prop} (h : Follows functions n s x P) (hPQ : ∀ a t, P a t → Q a t) :
    Follows functions n s x Q where
  value a ha := by
    obtain ⟨t, hst, ht⟩ := h.value a ha
    exact ⟨t, hst, hPQ a t ht⟩
  failure := h.failure
  endless := h.endless

/-- Steps that lead to a state may be taken first. -/
theorem before (hst : Steps functions s t) (h : Follows functions n t x P) :
    Follows functions n s x P where
  value a ha := by
    obtain ⟨u, htu, hu⟩ := h.value a ha
    exact ⟨u, hst.trans htu, hu⟩
  failure c hc hne := (h.failure c hc hne).before hst
  endless hx := (h.endless hx).before hst

/-- One step, which counts for the bound. -/
theorem counted (hs : step functions s = .ok (.next t)) (h : Follows functions n t x P) :
    Follows functions (n + 1) s x P where
  value := (h.before (.single hs)).value
  failure := (h.before (.single hs)).failure
  endless hx := ⟨t, hs, h.endless hx⟩

/-- An outcome after another is followed by the executions in a row. -/
theorem bind {f : α → Outcome β} {Q : β → State → Prop} (h : Follows functions n s x P)
    (hf : ∀ a t, P a t → Follows functions n t (f a) Q) : Follows functions n s (x >>= f) Q := by
  cases x with
  | error c => exact ⟨nofun, fun d hd hne => h.failure d (by cases hd; rfl) hne,
      fun hd => h.endless (by cases hd; rfl)⟩
  | ok a =>
    obtain ⟨t, hst, ht⟩ := h.value a rfl
    exact (hf a t ht).before hst

end Follows

/-! ### Runs with a bound -/

/-- A run with too little fuel says that it does not end. -/
theorem run_of_lives {n : Nat} {s : State} (h : Lives functions n s) :
    run functions n s = .error .endless := by
  induction n generalizing s with
  | zero => rfl
  | succ n ih =>
    obtain ⟨t, hs, ht⟩ := h
    rw [run, hs]
    exact ih ht

/-- A run goes through the states that are reached. -/
theorem run_of_steps {s t : State} (hst : Steps functions s t) (n : Nat) :
    ∃ m, run functions m s = run functions n t := by
  induction hst using Relation.ReflTransGen.head_induction_on with
  | refl => exact ⟨n, rfl⟩
  | head hs _ ih =>
    obtain ⟨m, hm⟩ := ih
    exact ⟨m + 1, by rw [run, hs, ← hm]⟩

/-- A run that ends keeps its result with one more step. -/
theorem run_succ {n : Nat} {s : State} (h : run functions n s ≠ .error .endless) :
    run functions (n + 1) s = run functions n s := by
  induction n generalizing s with
  | zero => exact absurd rfl h
  | succ n ih =>
    cases hs : step functions s with
    | error e => simp only [run, hs]
    | ok r =>
      cases r with
      | returned e => simp only [run, hs]
      | next t =>
        rw [run, hs] at h
        rw [run, hs, run, hs]
        exact ih h

/-- A run that ends keeps its result with more steps. -/
theorem run_mono {m n : Nat} {s : State} (hmn : m ≤ n) (h : run functions m s ≠ .error .endless) :
    run functions n s = run functions m s := by
  induction hmn with
  | refl => rfl
  | step _ ih => rw [run_succ (by rwa [ih]), ih]

/-- Two bounds that suffice give the same result. -/
theorem run_eq_of_ne {m n : Nat} {s : State} (hm : run functions m s ≠ .error .endless)
    (hn : run functions n s ≠ .error .endless) : run functions m s = run functions n s := by
  rcases Nat.le_total m n with h | h
  · exact (run_mono h hm).symm
  · exact run_mono h hn

/-! ### Results side by side -/

/-- A result of the machine and an outcome of the semantics are of one kind. -/
def Mirrors {α β : Type} (x : Outcome α) (y : Except RunError β) (R : α → β → Prop) : Prop :=
  match x, y with
  | .ok a, .ok b => R a b
  | .error c, .error e => e.cause = c ∧ c ≠ .endless
  | _, _ => False

/-- Where one side succeeds the other does. -/
theorem Mirrors.of_ok {α β : Type} {x : Outcome α} {y : Except RunError β} {R : α → β → Prop}
    (h : Mirrors x y R) {b : β} (hy : y = .ok b) : ∃ a, x = .ok a ∧ R a b := by
  subst hy
  cases x with
  | ok a => exact ⟨a, rfl, h⟩
  | error c => exact h.elim

/-- Computations in a row mirror each other. -/
theorem Mirrors.bind {α β γ δ : Type} {x : Outcome α} {y : Except RunError β} {R : α → β → Prop}
    {f : α → Outcome γ} {g : β → Except RunError δ} {S : γ → δ → Prop} (h : Mirrors x y R)
    (hfg : ∀ a b, R a b → Mirrors (f a) (g b) S) : Mirrors (x >>= f) (y >>= g) S := by
  cases x with
  | ok a =>
    cases y with
    | ok b => exact hfg a b h
    | error e => exact h.elim
  | error c =>
    cases y with
    | ok b => exact h.elim
    | error e => exact h

/-- What is made of mirrored results mirrors. -/
theorem Mirrors.map {α β γ δ : Type} {x : Outcome α} {y : Except RunError β} {R : α → β → Prop}
    {f : α → γ} {g : β → δ} {S : γ → δ → Prop} (h : Mirrors x y R)
    (hfg : ∀ a b, R a b → S (f a) (g b)) : Mirrors (f <$> x) (g <$> y) S := by
  rw [map_eq_pure_bind, map_eq_pure_bind]
  exact h.bind hfg

theorem Mirrors.ofAlgebra {α : Type} (x : Except AlgebraError α) :
    Mirrors (Semantics.ofAlgebra x) (Machine.ofAlgebra x) Eq := by
  cases x with
  | ok a => exact rfl
  | error e => exact ⟨rfl, nofun⟩

/-- A step that ends a piece of work. -/
theorem Follows.of_mirrors {α : Type} {n : Nat} {s : State} {x : Outcome α} {P : α → State → Prop}
    (h : Mirrors x (step functions s) fun a r => ∃ t, r = .next t ∧ P a t) :
    Follows functions n s x P := by
  cases x with
  | ok a =>
    cases hs : step functions s with
    | ok r =>
      rw [hs] at h
      obtain ⟨t, rfl, ht⟩ := h
      exact (Follows.ok ht).before (.single hs)
    | error e =>
      rw [hs] at h
      exact h.elim
  | error c =>
    cases hs : step functions s with
    | ok r =>
      rw [hs] at h
      exact h.elim
    | error e =>
      rw [hs] at h
      exact .error hs h.1 h.2

end Machine

end SymScript
