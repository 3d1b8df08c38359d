import SymScript.Proofs.Reachable

/-!
# The variables of loops

What a loop over the members of a term does to the variables.  A variable that was bound gets its
value back.  A variable that was not bound should be removed, but the machine keeps one name for the
loops of an activation, that of the loop that was entered last with a variable that was not bound:
this is the variable that every loop removes.  A loop without such a loop in it removes its own.
-/

namespace SymScript

namespace Semantics

mutual

/-- The variables of the loops in an instruction. -/
def loopVariables : Ast → List String
  | .block is => loopVariablesAll is
  | .foreachLoop x _ i => x :: loopVariables i
  | .ifThen _ i | .repeatLoop _ i | .whileLoop _ i => loopVariables i
  | .ifElse _ i j => loopVariables i ++ loopVariables j
  | _ => []

def loopVariablesAll : List Ast → List String
  | [] => []
  | i :: is => loopVariables i ++ loopVariablesAll is

end

/-- The loops of an instruction are among those of its list. -/
theorem loopVariables_subset {i : Ast} {is : List Ast} (h : i ∈ is) :
    loopVariables i ⊆ loopVariablesAll is := by
  induction is with
  | nil => cases h
  | cons j is ih =>
    rw [loopVariablesAll]
    rcases List.mem_cons.1 h with rfl | h
    · exact List.subset_append_left _ _
    · exact List.subset_append_of_subset_right _ (ih h)

/-! ### What instructions keep -/

/-- From `a` to `b`, only loops with variables among `xs` were entered, no variable was lost, and no
loop with a variable that is bound in `a` was entered as one with a new variable. -/
structure Scoped (xs : List String) (a b : Activation) : Prop where
  loop : b.loop = a.loop ∨ ∃ y ∈ xs, b.loop = some y
  bound : ∀ x, (a.store x).isSome → (b.store x).isSome
  apart : ∀ x, (a.store x).isSome → b.loop = a.loop ∨ b.loop ≠ some x

namespace Scoped

variable {xs ys : List String} {a b c : Activation}

theorem refl : Scoped xs a a := ⟨.inl rfl, fun _ => id, fun _ _ => .inl rfl⟩

/-- Instructions in a row. -/
theorem trans (hab : Scoped xs a b) (hbc : Scoped xs b c) : Scoped xs a c where
  loop := by
    rcases hbc.loop with h | h
    · rw [h]
      exact hab.loop
    · exact .inr h
  bound x hx := hbc.bound x (hab.bound x hx)
  apart x hx := by
    rcases hbc.apart x (hab.bound x hx) with h | h
    · rw [h]
      exact hab.apart x hx
    · exact .inr h

/-- More loops may be allowed for. -/
theorem mono (h : Scoped xs a b) (hxs : xs ⊆ ys) : Scoped ys a b where
  loop := h.loop.imp_right fun ⟨y, hy, hb⟩ => ⟨y, hxs hy, hb⟩
  bound := h.bound
  apart := h.apart

/-- An assignment keeps all variables bound. -/
theorem set (x : String) (t : Term) : Scoped xs a (a.set x t) where
  loop := .inl rfl
  bound y hy := by
    change (if y = x then some t else a.store y).isSome
    split
    · rfl
    · exact hy
  apart _ _ := .inl rfl

end Scoped

/-- A loop that goes on has run its first round and then the others. -/
theorem iterate_cons {α : Type} {run : Activation → α → Outcome Flow} {y : α} {ys : List α}
    {a b : Activation} (h : iterate run a (y :: ys) = .ok (.next b)) :
    ∃ c, run a y = .ok (.next c) ∧ iterate run c ys = .ok (.next b) := by
  obtain ⟨flow, hflow, h⟩ := bind_eq_ok h
  cases flow with
  | next c => exact ⟨c, hflow, h⟩
  | returned e => cases h

/-- A loop keeps what its rounds keep, by induction on the rounds. -/
theorem scoped_iterate {α : Type} {xs : List String} {run : Activation → α → Outcome Flow}
    {ys : List α} (hrun : ∀ y ∈ ys, ∀ {a b : Activation}, run a y = .ok (.next b) → Scoped xs a b)
    {a b : Activation} (h : iterate run a ys = .ok (.next b)) : Scoped xs a b := by
  induction ys generalizing a with
  | nil =>
    cases h
    exact .refl
  | cons y ys ih =>
    obtain ⟨hy, hys⟩ := List.forall_mem_cons.1 hrun
    obtain ⟨c, hc, h⟩ := iterate_cons h
    exact (hy hc).trans (ih hys h)

/-- What holds after every run holds after the last one. -/
theorem iterate_last {α : Type} {P : Activation → Prop} {run : Activation → α → Outcome Flow}
    (hrun : ∀ a y b, run a y = .ok (.next b) → P b) {ys : List α} (hys : ys ≠ []) {a c : Activation}
    (h : iterate run a ys = .ok (.next c)) : P c := by
  induction ys generalizing a with
  | nil => exact absurd rfl hys
  | cons y ys ih =>
    obtain ⟨b, hb, h⟩ := iterate_cons h
    cases ys with
    | nil =>
      cases h
      exact hrun a y _ hb
    | cons z zs => exact ih (List.cons_ne_nil z zs) h

/-- The activation that a loop is entered with. -/
def enterLoop (x : String) (a : Activation) : Activation :=
  if (a.store x).isSome then a else { a with loop := some x }

theorem enterLoop_loop {x : String} {a : Activation} (h : a.store x = none) :
    (enterLoop x a).loop = some x := by
  rw [enterLoop, h]
  rfl

/-- The runs of a block over the members of a term, the last one first. -/
def runMembers (E : Evaluator) (x : String) (i : Ast) (a : Activation) (t : Term) : Outcome Flow :=
  iterate (fun a t => E.instruction (a.set x t) i) a (t.members.getD [t]).reverse

/-- A loop over members keeps what its instruction keeps. -/
theorem scoped_runMembers {xs : List String} {E : Evaluator} {x : String} {i : Ast} {t : Term}
    (hi : ∀ {a b : Activation}, E.instruction a i = .ok (.next b) → Scoped xs a b)
    {a b : Activation} (h : runMembers E x i a t = .ok (.next b)) : Scoped xs a b :=
  scoped_iterate (fun _ _ _ _ hab => Scoped.trans (.set x _) (hi hab)) h

/-- A loop enters its variable, runs its members and leaves. -/
theorem instruction_foreachLoop (exit : Exit) (E : Evaluator) (a : Activation) (x : String)
    (e i : Ast) :
    instruction exit E a (.foreachLoop x e i) = (do
      match ← runMembers E x i (enterLoop x a) (← E.expression a.store e) with
      | .next c => .next <$> leaveLoop exit x (a.store x) c
      | .returned r => .ok (.returned r)) := rfl

/-- Leaving a loop touches its own variable only. -/
theorem scoped_leaveLoop {xs : List String} {x : String} {a c d : Activation}
    (hc : Scoped xs (enterLoop x a) c) (h : leaveLoop lastEntered x (a.store x) c = .ok d) :
    Scoped (x :: xs) a d := by
  rw [enterLoop] at hc
  cases hx : a.store x with
  | some t =>
    rw [hx] at hc h
    cases h
    exact (hc.mono (List.subset_cons_self x xs)).trans (.set x t)
  | none =>
    rw [hx] at hc h
    -- the loop entered last is this one, or one in it whose variable is not bound in `a`
    have hother : ∀ z, (a.store z).isSome → c.loop ≠ some z := by
      intro z hz hloop
      rcases hc.apart z hz with h | h
      · cases (h.symm.trans hloop : some x = some z)
        rw [hx] at hz
        cases hz
      · exact h hloop
    obtain ⟨y, hy, h⟩ := bind_eq_ok h
    split at h
    · cases h
      refine ⟨.inr ?_, ?_, fun z hz => .inr (hother z hz)⟩
      · rcases hc.loop with h | ⟨z, hz, h⟩
        · exact ⟨x, List.mem_cons_self, h⟩
        · exact ⟨z, List.mem_cons_of_mem x hz, h⟩
      · intro z hz
        change (if z = y then none else c.store z).isSome
        rw [if_neg]
        · exact hc.bound z hz
        · rintro rfl
          cases hloop : c.loop with
          | none =>
            rw [hloop] at hy
            cases hy
          | some w =>
            rw [hloop] at hy
            cases hy
            exact hother _ hz hloop
    · cases h

variable {functions : List FunctionDef}

/-- An instruction loses no variable. -/
theorem scoped_instruction {n : Nat} {t : Ast} {a b : Activation}
    (h : (evaluator functions lastEntered n).instruction a t = .ok (.next b)) :
    Scoped (loopVariables t) a b := by
  induction n generalizing t a b with
  | zero => cases h
  | succ n ih =>
    change instruction lastEntered (evaluator functions lastEntered n) a t = .ok (.next b) at h
    cases t with
    | block is =>
      rw [loopVariables]
      exact scoped_iterate (fun i hi _ _ hab => (ih hab).mono (loopVariables_subset hi)) h
    | assign x e =>
      obtain ⟨u, -, h⟩ := bind_eq_ok h
      cases h
      exact .set x u
    | ifThen c i =>
      obtain ⟨p, -, h⟩ := bind_eq_ok h
      rw [loopVariables]
      cases p with
      | true => exact ih h
      | false =>
        cases h
        exact .refl
    | ifElse c i j =>
      obtain ⟨p, -, h⟩ := bind_eq_ok h
      rw [loopVariables]
      cases p with
      | true => exact (ih h).mono (List.subset_append_left _ _)
      | false => exact (ih h).mono (List.subset_append_right _ _)
    | repeatLoop e i =>
      obtain ⟨u, -, h⟩ := bind_eq_ok h
      rw [loopVariables]
      split at h
      · refine scoped_iterate (fun j hj _ _ hab => ?_) h
        exact List.eq_of_mem_replicate hj ▸ ih hab
      · cases h
    | whileLoop c i =>
      obtain ⟨p, -, h⟩ := bind_eq_ok h
      cases p with
      | true =>
        refine scoped_iterate (fun j hj _ _ hab => ?_) h
        rcases List.mem_cons.1 hj with rfl | hj
        · rw [loopVariables]
          exact ih hab
        · exact List.mem_singleton.1 hj ▸ ih hab
      | false =>
        cases h
        exact .refl
    | foreachLoop x e i =>
      rw [instruction_foreachLoop] at h
      obtain ⟨u, -, h⟩ := bind_eq_ok h
      obtain ⟨flow, hflow, h⟩ := bind_eq_ok h
      cases flow with
      | returned r => cases h
      | next c =>
        rw [loopVariables]
        simp only [map_eq_pure_bind] at h
        obtain ⟨d, hleave, h⟩ := bind_eq_ok h
        cases h
        exact scoped_leaveLoop (scoped_runMembers ih hflow) hleave
    | giveBack e =>
      obtain ⟨u, -, h⟩ := bind_eq_ok h
      obtain ⟨r, -, h⟩ := bind_eq_ok h
      cases h
    | _ => cases h

/-- A loop that ran over at least one member has its variable afterwards. -/
theorem isSome_of_runMembers {n : Nat} {x : String} {i : Ast} {t : Term} {a c : Activation}
    (h : runMembers (evaluator functions lastEntered n) x i a t = .ok (.next c))
    (ht : t.members ≠ some []) : (c.store x).isSome := by
  refine iterate_last (fun _ _ _ hrun => (scoped_instruction hrun).bound x ?_) ?_ h
  · change (if x = x then some _ else _).isSome
    rw [if_pos rfl]
    rfl
  · rw [ne_eq, List.reverse_eq_nil_iff]
    cases hmembers : t.members with
    | none => exact List.cons_ne_nil _ _
    | some us =>
      rintro rfl
      exact ht hmembers

end Semantics

namespace Machine

open Semantics

variable {functions : List FunctionDef} {f : Frame} {ws : List Work} {callers : List Frame}

variable (functions f ws callers) in
/-- The machine does a piece of work of the frame `f` and goes on with the variables of `a`. -/
def Completes (a : Activation) : Prop :=
  ∃ s, Steps functions (f, callers) s ∧ Advanced f ws callers a s

/-- After the runs of the block the machine leaves the loop. -/
theorem follows_runMembers (hlibrary : ∀ g ∈ functions, LibraryFunction.ofName? g.name = none)
    (hbodies : ∀ g ∈ functions, IsInstruction g.body) {x : String} {e i : Ast}
    (hloop : IsInstruction (.foreachLoop x e i)) (hw : f.work = .visit (.foreachLoop x e i) :: ws)
    {a c : Activation} (hm : Agrees f.memory a.store) (hl : f.loopName = a.loop)
    {n : Nat} {t : Term} (ht : (evaluator functions lastEntered n).expression a.store e = .ok t)
    (hc : runMembers (evaluator functions lastEntered n) x i (enterLoop x a) t = .ok (.next c)) :
    Follows functions (n + 1) (f, callers) (leaveLoop lastEntered x (a.store x) c)
      (Advanced f ws callers) := by
  have hrule : instruction lastEntered (evaluator functions lastEntered n) a (.foreachLoop x e i) =
      Flow.next <$> leaveLoop lastEntered x (a.store x) c := by
    rw [instruction_foreachLoop, ht]
    change (runMembers (evaluator functions lastEntered n) x i _ t >>= _) = _
    rw [hc]
    rfl
  have hfollows : Follows functions (n + 1) (f, callers) _ _ :=
    follows_foreach (simulates hlibrary hbodies n) hm hl hloop.1 hloop.2 hw
  rw [hrule] at hfollows
  cases hleave : leaveLoop lastEntered x (a.store x) c with
  | ok d =>
    rw [hleave] at hfollows
    exact ⟨fun b hb => hfollows.value (.next b) (by cases hb; rfl), nofun, nofun⟩
  | error d =>
    rw [hleave] at hfollows
    exact ⟨nofun, fun _ hd => hfollows.failure _ (by cases hd; rfl),
      fun hd => hfollows.endless (by cases hd; rfl)⟩

/-- What a loop does to the variables, in every state that a call comes to.  Let `c` hold the
variables after the runs of the block.  If the variable of the loop was bound, it has its old value
afterwards.  If it was not, the loop removes the variable of the loop that was entered last with a
variable that was not bound, which is this loop or one in its block; the removal fails if there is
no such variable. -/
theorem foreach_scope {nodes : List Ast} (hload : FunctionDef.load nodes = .ok functions)
    (hnodes : ∀ t ∈ nodes, IsFunction t) {name : String} {arguments : List Argument}
    (hargs : ∀ x ∈ arguments, IsArgument x) (hs : Reachable functions name arguments (f, callers))
    {x : String} {e i : Ast} (hw : f.work = .visit (.foreachLoop x e i) :: ws) :
    ∃ a : Activation, Agrees f.memory a.store ∧ f.loopName = a.loop ∧ ∀ (n : Nat) (t : Term)
      (c : Activation), (evaluator functions lastEntered n).expression a.store e = .ok t →
      runMembers (evaluator functions lastEntered n) x i (enterLoop x a) t = .ok (.next c) →
      (∀ old, a.store x = some old → Completes functions f ws callers (c.set x old)) ∧
      (a.store x = none → ∃ y, c.loop = some y ∧ (y = x ∨ y ∈ loopVariables i) ∧
        (y = x → t.members ≠ some [] → (c.store x).isSome) ∧
        ((c.store y).isSome → Completes functions f ws callers (c.erase y)) ∧
        (c.store y = none → Fails functions (f, callers) (.nothingToRemove y))) := by
  obtain ⟨⟨⟨σ, hσ⟩, hfits⟩, -⟩ := hs.sound hload hnodes hargs
  obtain ⟨a, hm, hl⟩ : ∃ a : Activation, Agrees f.memory a.store ∧ f.loopName = a.loop :=
    ⟨⟨σ, f.loopName⟩, hσ, rfl⟩
  have hloop : IsInstruction (.foreachLoop x e i) := by
    rw [show (f, callers).1.work = f.work from rfl, hw] at hfits
    cases hfits with
    | expression ht => cases ht
    | condition ht => cases ht
    | instruction ht => exact ht
  refine ⟨a, hm, hl, fun n t c ht hc => ?_⟩
  have hfollows : Follows functions (n + 1) (f, callers) _ _ :=
    follows_runMembers (FunctionDef.ofName?_of_load hload)
      (FunctionDef.isInstruction_of_load hload hnodes) hloop hw hm hl ht hc
  constructor
  · intro old hold
    rw [hold] at hfollows
    exact hfollows.value _ rfl
  · intro hnone
    obtain ⟨y, hy, hmem⟩ : ∃ y, c.loop = some y ∧ (y = x ∨ y ∈ loopVariables i) := by
      rcases (scoped_runMembers scoped_instruction hc).loop with h | ⟨y, hy, h⟩
      · exact ⟨x, h.trans (enterLoop_loop hnone), .inl rfl⟩
      · exact ⟨y, h, .inr hy⟩
    have hleave : leaveLoop lastEntered x (a.store x) c =
        if (c.store y).isSome then .ok (c.erase y) else .error (.nothingToRemove y) := by
      rw [hnone, leaveLoop, hy]
      rfl
    rw [hleave] at hfollows
    refine ⟨y, hy, hmem, fun _ => isSome_of_runMembers hc, fun hbound => ?_, fun hgone => ?_⟩
    · rw [if_pos hbound] at hfollows
      exact hfollows.value _ rfl
    · rw [hgone] at hfollows
      exact hfollows.failure _ rfl (by rintro ⟨⟩)

/-- A loop over a sum, and in it a loop over the member that its variable is bound to. -/
def nestedLoop : Ast :=
  .foreachLoop "V" (.binary false .sum (.sym false "x") (.sym false "y"))
    (.foreachLoop "W" (.id false "V") (.assign "A" (.id false "W")))

/-- The nested loops after some instructions. -/
def nestedLoops (before : List Ast) : List Ast :=
  [.function "Main" [] (.block (before ++ [nestedLoop, .giveBack (.id false "A")]))]

/-- With `V` bound to 3 before, the outer loop gives it this value back, and the inner loop removes
`W`. With both variables new, the outer loop fails: the variable that it removes is `W`, which is
gone. -/
theorem foreach_scope_nestedLoops :
    (∃ functions f c, FunctionDef.load (nestedLoops [.assign "V" (.nat false "3")]) =
      .ok functions ∧ Reachable functions "Main" [] (f, []) ∧
      f.work = [.visit nestedLoop, .visit (.giveBack (.id false "A"))] ∧
      c.store "V" = some (.tree (.rational (.ofNat 3))) ∧ c.store "W" = none ∧
      c.store "A" = some (.tree (.symbol false 'x')) ∧
      Completes functions f [.visit (.giveBack (.id false "A"))] [] c) ∧
    ∃ functions f, FunctionDef.load (nestedLoops []) = .ok functions ∧
      Reachable functions "Main" [] (f, []) ∧
      f.work = [.visit nestedLoop, .visit (.giveBack (.id false "A"))] ∧
      Fails functions (f, []) (.nothingToRemove "W") := by
  let work : List Work := [.visit nestedLoop, .visit (.giveBack (.id false "A"))]
  let sum : Term := .tree (.sum false [.symbol false 'x', .symbol false 'y'])
  constructor
  · let three : Term := .tree (.rational (.ofNat 3))
    let before : List Ast := [.assign "V" (.nat false "3")]
    have hnodes : ∀ t ∈ nestedLoops before, IsFunction t := by
      simp [before, nestedLoops, nestedLoop, IsFunction, IsInstruction, AreInstructions,
        IsExpression]
      rfl
    let functions := (nestedLoops before).filterMap FunctionDef.ofAst?
    let f : Frame := { function := "Main", memory := [("V", .term three)], work }
    have hs : Reachable functions "Main" [] (f, []) :=
      ⟨_, rfl, .head rfl (.head rfl (.head rfl (.single rfl)))⟩
    obtain ⟨⟨σ, loop⟩, hm, hl, h⟩ :=
      foreach_scope rfl hnodes (List.forall_mem_nil _) hs rfl
    obtain rfl := hm.eq (agrees_empty.set "V" three)
    obtain rfl : none = loop := hl
    have ht : (evaluator functions lastEntered 5).expression (Store.empty.set "V" three)
        (.binary false .sum (.sym false "x") (.sym false "y")) = .ok sum := by
      decide +kernel
    have hcompletes := (h 5 _ _ ht rfl).1 three rfl
    exact ⟨functions, f, _, rfl, hs, rfl, rfl, rfl, rfl, hcompletes⟩
  · have hnodes : ∀ t ∈ nestedLoops [], IsFunction t := by
      simp [nestedLoops, nestedLoop, IsFunction, IsInstruction, AreInstructions, IsExpression]
      rfl
    let functions := (nestedLoops []).filterMap FunctionDef.ofAst?
    let f : Frame := { function := "Main", work }
    have hs : Reachable functions "Main" [] (f, []) := ⟨_, rfl, .single rfl⟩
    obtain ⟨⟨σ, loop⟩, hm, hl, h⟩ :=
      foreach_scope rfl hnodes (List.forall_mem_nil _) hs rfl
    obtain rfl := hm.eq agrees_empty
    obtain rfl : none = loop := hl
    have ht : (evaluator functions lastEntered 5).expression .empty
        (.binary false .sum (.sym false "x") (.sym false "y")) = .ok sum := by
      decide +kernel
    obtain ⟨y, hy, -, -, -, hfails⟩ := (h 5 _ _ ht rfl).2 rfl
    cases hy
    exact ⟨functions, f, rfl, hs, rfl, hfails rfl⟩

/-- A loop in a loop, both with variables that are new, and an assignment to the variable of the
inner loop between their ends. -/
def loopAndVariable : List Ast :=
  [.function "Main" [] (.block
    [.foreachLoop "V" (.sym false "x") (.block
        [.foreachLoop "W" (.sym false "y") (.block [.assign "A" (.id false "W")]),
          .assign "W" (.sym false "z")]),
      .giveBack (.id false "W")])]

/-- The outer loop removes the variable of the inner one, which has been given a value since. -/
theorem loopAndVariable_loses : (∀ t ∈ loopAndVariable, IsFunction t) ∧
    ∃ functions, FunctionDef.load loopAndVariable = .ok functions ∧
      Semantics.call functions ownVariable 10 "Main" [] = .ok (.tree (.symbol false 'z')) ∧
      outcome 30 functions "Main" [] = .error (.unbound "W") := by
  refine ⟨?_, _, rfl, ?_, ?_⟩
  · simp [loopAndVariable, IsFunction, IsInstruction, AreInstructions, IsExpression]
  · decide +kernel
  · decide +kernel

end Machine

end SymScript
