import SymScript.Proofs.Refinement

/-!
# The states that a call can reach

A frame computes values for work that is still to be done.  `Fits` says that the work of a frame
finds the values that it takes, of the kinds that it takes, and every step of the machine keeps it:
of every frame that a call can reach, the work is grammatical and the memory holds the variables of
an activation.
-/

namespace SymScript.Machine

open Semantics

/-! ### The discipline of the values -/

inductive Kind where
  | term
  | truth

def kind : Value → Kind
  | .term _ => .term
  | .truth _ => .truth

/-- The work finds values of these kinds, the one that was computed last coming first. -/
inductive Fits : List Work → List Kind → Prop
  | done {ks : List Kind} : Fits [] ks
  | expression {t : Ast} {ws : List Work} {ks : List Kind} (ht : IsExpression t)
    (h : Fits ws (.term :: ks)) : Fits (.visit t :: ws) ks
  | condition {t : Ast} {ws : List Work} {ks : List Kind} (ht : IsCondition t)
    (h : Fits ws (.truth :: ks)) : Fits (.visit t :: ws) ks
  | instruction {t : Ast} {ws : List Work} {ks : List Kind} (ht : IsInstruction t)
    (h : Fits ws ks) : Fits (.visit t :: ws) ks
  | bind {x : String} {t : Term} {ws : List Work} {ks : List Kind} (h : Fits ws ks) :
    Fits (.bind x t :: ws) ks
  | forget {ws : List Work} {ks : List Kind} (h : Fits ws ks) : Fits (.forget :: ws) ks
  | assign {x : String} {e : Ast} {ws : List Work} {ks : List Kind} (h : Fits ws ks) :
    Fits (.resume (.assign x e) :: ws) (.term :: ks)
  | foreachLoop {x : String} {e i : Ast} {ws : List Work} {ks : List Kind} (hi : IsInstruction i)
    (h : Fits ws ks) : Fits (.resume (.foreachLoop x e i) :: ws) (.term :: ks)
  | ifThen {c i : Ast} {ws : List Work} {ks : List Kind} (hi : IsInstruction i) (h : Fits ws ks) :
    Fits (.resume (.ifThen c i) :: ws) (.truth :: ks)
  | ifElse {c i j : Ast} {ws : List Work} {ks : List Kind} (hi : IsInstruction i)
    (hj : IsInstruction j) (h : Fits ws ks) : Fits (.resume (.ifElse c i j) :: ws) (.truth :: ks)
  | repeatLoop {e i : Ast} {ws : List Work} {ks : List Kind} (hi : IsInstruction i)
    (h : Fits ws ks) : Fits (.resume (.repeatLoop e i) :: ws) (.term :: ks)
  | whileLoop {c i : Ast} {ws : List Work} {ks : List Kind} (hc : IsCondition c)
    (hi : IsInstruction i) (h : Fits ws ks) : Fits (.resume (.whileLoop c i) :: ws) (.truth :: ks)
  | giveBack {e : Ast} {ws : List Work} {ks : List Kind} :
    Fits (.resume (.giveBack e) :: ws) (.term :: ks)
  | binary {s : Bool} {op : Operator} {a b : Ast} {ws : List Work} {ks : List Kind}
    (hop : isArithmetic op = true) (h : Fits ws (.term :: ks)) :
    Fits (.resume (.binary s op a b) :: ws) (.term :: .term :: ks)
  | comparison {s : Bool} {op : Operator} {a b : Ast} {ws : List Work} {ks : List Kind}
    (hop : isComparison op = true) (h : Fits ws (.truth :: ks)) :
    Fits (.resume (.compare s op a b) :: ws) (.term :: .term :: ks)
  | connective {s : Bool} {op : Operator} {a b : Ast} {ws : List Work} {ks : List Kind}
    (hop : isConnective op = true) (h : Fits ws (.truth :: ks)) :
    Fits (.resume (.compare s op a b) :: ws) (.truth :: .truth :: ks)
  | call {name : String} {as : List Ast} {ws : List Work} {ks : List Kind}
    (h : Fits ws (.term :: ks)) :
    Fits (.resume (.call name as) :: ws) (List.replicate as.length .term ++ ks)

/-- Work that leaves the values as they are. -/
def Neutral (w : Work) : Prop := ∀ (ws : List Work) (ks : List Kind), Fits ws ks → Fits (w :: ws) ks

/-- Work that leaves the values as they are may be put in front. -/
theorem Fits.append {us ws : List Work} {ks : List Kind} (hus : ∀ w ∈ us, Neutral w)
    (h : Fits ws ks) : Fits (us ++ ws) ks := by
  induction us with
  | nil => exact h
  | cons w us ih =>
    obtain ⟨hw, hus⟩ := List.forall_mem_cons.1 hus
    exact hw _ _ (ih hus)

/-- Expressions that are evaluated one after the other. -/
theorem Fits.expressions {as : List Ast} {ws : List Work} {ks : List Kind}
    (has : ∀ a ∈ as, IsExpression a) (h : Fits ws (List.replicate as.length .term ++ ks)) :
    Fits (as.map .visit ++ ws) ks := by
  induction as generalizing ks with
  | nil => exact h
  | cons a as ih =>
    obtain ⟨ha, has⟩ := List.forall_mem_cons.1 has
    refine .expression ha (ih has ?_)
    rwa [List.length_cons, List.replicate_succ', List.append_assoc] at h

/-- An instruction leaves the values as they are. -/
theorem neutral_visit {i : Ast} (h : IsInstruction i) : Neutral (.visit i) :=
  fun _ _ => .instruction h

theorem neutral_bind (x : String) (t : Term) : Neutral (.bind x t) := fun _ _ => .bind

/-- Binding a parameter leaves the values as they are. -/
theorem neutral_assignTo {x : String} {argument : Argument} (hexp : argument.isExpression = true)
    (harg : IsArgument argument) : Neutral (argument.assignTo x) := by
  cases argument with
  | value v =>
    cases v with
    | term t => exact neutral_bind x t
    | truth => cases hexp
  | plain => cases hexp
  | node e =>
    cases e with
    | term t => exact neutral_bind x t
    | nat | sym | id | binary | call => exact neutral_visit harg
    | _ => cases harg

/-! ### Frames and states -/

/-- A frame that goes on once values of the kinds `ks` have been put on top. -/
structure Sound (ks : List Kind) (f : Frame) : Prop where
  memory : ∃ σ, Agrees f.memory σ
  work : Fits f.work (ks ++ f.values.map kind)

/-- The topmost frame goes on at once, the others after a call has given them a term. -/
structure SoundState (s : State) : Prop where
  top : Sound [] s.1
  callers : ∀ f ∈ s.2, Sound [.term] f

/-- A frame that is entered is sound. -/
theorem sound_activation {g : FunctionDef} (hbody : IsInstruction g.body)
    {arguments : List Argument}
    (hall : arguments.all Argument.isExpression = true) (hargs : ∀ x ∈ arguments, IsArgument x) :
    Sound [] (activation g arguments) := by
  refine ⟨⟨_, agrees_empty⟩, Fits.append ?_ (.instruction hbody .done)⟩
  intro w hw
  rw [List.mem_reverse, ← List.map_uncurry_zip_eq_zipWith] at hw
  obtain ⟨p, hp, rfl⟩ := List.mem_map.1 hw
  have hmem := (List.of_mem_zip hp).2
  exact neutral_assignTo (List.all_eq_true.1 hall _ hmem) (hargs _ hmem)

variable {functions : List FunctionDef} {f g : Frame} {ks : List Kind}

/-- A sound frame with more work that is neutral is sound. -/
theorem Sound.todo {us : List Work} (hus : ∀ w ∈ us, Neutral w) (h : Sound ks f) :
    Sound ks (f.todo us) :=
  ⟨h.memory, h.work.append hus⟩

/-- A frame that waits for a term is sound once it has it. -/
theorem Sound.pushTerm (h : Sound [.term] f) (e : Expr) : Sound [] (f.pushTerm e) :=
  ⟨h.memory, h.work⟩

/-- Visiting an expression computes its value, or makes work of its parts. -/
theorem sound_visit_expression {t : Ast} (ht : IsExpression t) (hf : Sound [.term] f)
    (h : visit f t = .ok g) : Sound [] g := by
  cases t with
  | nat negated digits =>
    simp only [visit] at h
    split at h
    · cases h
      exact hf.pushTerm _
    · cases h
  | sym negated letter =>
    simp only [visit] at h
    split at h
    · split at h
      · cases h
        exact hf.pushTerm _
      · cases h
    · cases h
  | id negated x =>
    simp only [visit] at h
    split at h
    · rename_i t _
      cases hfresh : t.fresh with
      | error e =>
        rw [hfresh] at h
        cases h
      | ok e =>
        rw [hfresh] at h
        cases h
        exact hf.pushTerm e
    · cases h
    · cases h
  | binary negated op a b =>
    cases h
    exact ⟨hf.memory, .expression ht.2.2 (.expression ht.2.1 (.binary ht.1 hf.work))⟩
  | call name as =>
    cases h
    have has := areExpressions_iff.1 ht
    refine ⟨hf.memory, ?_⟩
    change Fits ((as.map Work.visit).reverse ++ [.resume (.call name as)] ++ f.work) _
    rw [← List.map_reverse, List.append_assoc]
    refine Fits.expressions (fun a ha => has a (List.mem_reverse.1 ha)) ?_
    rw [List.length_reverse]
    exact .call hf.work
  | _ => cases ht

/-- Visiting a condition keeps a frame sound. -/
theorem sound_visit_condition {t : Ast} (ht : IsCondition t) (hf : Sound [.truth] f)
    (h : visit f t = .ok g) : Sound [] g := by
  cases t with
  | truth negated value =>
    cases h
    exact ⟨hf.memory, hf.work⟩
  | compare negated op a b =>
    cases h
    refine ⟨hf.memory, ?_⟩
    rcases ht with ⟨hop, ha, hb⟩ | ⟨hop, ha, hb⟩
    · exact .expression hb (.expression ha (.comparison hop hf.work))
    · exact .condition hb (.condition ha (.connective hop hf.work))
  | _ => cases ht

/-- Visiting an instruction keeps a frame sound. -/
theorem sound_visit_instruction {t : Ast} (ht : IsInstruction t) (hf : Sound [] f)
    (h : visit f t = .ok g) : Sound [] g := by
  cases t with
  | block is =>
    cases h
    refine hf.todo fun w hw => ?_
    obtain ⟨i, hi, rfl⟩ := List.mem_map.1 hw
    exact neutral_visit (areInstructions_iff.1 ht i hi)
  | assign x e =>
    have hvisit : visit f (.assign x e) = .ok (f.todo [.visit e, .resume (.assign x e)]) := by
      cases e <;> first | rfl | cases ht
    cases hvisit.symm.trans h
    exact ⟨hf.memory, .expression ht (.assign hf.work)⟩
  | foreachLoop x e i =>
    simp only [visit] at h
    split at h
    · cases h
      exact ⟨hf.memory, .expression ht.1 (.foreachLoop ht.2 (.bind hf.work))⟩
    · cases h
    · cases h
      exact ⟨hf.memory, .expression ht.1 (.foreachLoop ht.2 (.forget hf.work))⟩
  | ifThen c i =>
    cases h
    exact ⟨hf.memory, .condition ht.1 (.ifThen ht.2 hf.work)⟩
  | ifElse c i j =>
    cases h
    exact ⟨hf.memory, .condition ht.1 (.ifElse ht.2.1 ht.2.2 hf.work)⟩
  | repeatLoop e i =>
    cases h
    exact ⟨hf.memory, .expression ht.1 (.repeatLoop ht.2 hf.work)⟩
  | giveBack e =>
    cases h
    exact ⟨hf.memory, .expression ht .giveBack⟩
  | whileLoop c i =>
    cases h
    exact ⟨hf.memory, .condition ht.1 (.whileLoop ht.1 ht.2 hf.work)⟩
  | _ => cases ht

/-- The values that stand for a term and for a truth value. -/
theorem map_kind_eq_term {vs : List Value} (h : vs.map kind = .term :: ks) :
    ∃ t us, vs = .term t :: us ∧ us.map kind = ks := by
  obtain ⟨v, us, rfl, hv, hus⟩ := List.map_eq_cons_iff.1 h
  cases v with
  | term t => exact ⟨t, us, rfl, hus⟩
  | truth => cases hv

theorem map_kind_eq_truth {vs : List Value} (h : vs.map kind = .truth :: ks) :
    ∃ b us, vs = .truth b :: us ∧ us.map kind = ks := by
  obtain ⟨v, us, rfl, hv, hus⟩ := List.map_eq_cons_iff.1 h
  cases v with
  | truth b => exact ⟨b, us, rfl, hus⟩
  | term => cases hv

/-- Going on with a node takes the values of its parts. -/
theorem sound_resume {t : Ast} {ws : List Work} (hf : Sound [] f) (hw : f.work = .resume t :: ws)
    (h : resume { f with work := ws } t = .ok g) : Sound [] g := by
  obtain ⟨hmemory, hfits⟩ := hf
  obtain ⟨σ, hσ⟩ := hmemory
  rw [hw, List.nil_append] at hfits
  generalize hks : f.values.map kind = ks at hfits
  cases hfits with
  | assign hws =>
    obtain ⟨t, vs, hvs, rfl⟩ := map_kind_eq_term hks
    simp only [resume, Frame.pop, hvs] at h
    cases h
    exact ⟨⟨_, hσ.set _ t⟩, hws⟩
  | @foreachLoop x e i _ _ hi hws =>
    obtain ⟨t, vs, hvs, rfl⟩ := map_kind_eq_term hks
    simp only [resume, Frame.pop, hvs] at h
    cases h
    refine Sound.todo (f := { f with work := ws, values := vs }) ?_ ⟨⟨σ, hσ⟩, hws⟩
    intro w hw
    obtain ⟨u, -, hu⟩ := List.mem_flatMap.1 hw
    rcases List.mem_cons.1 hu with rfl | hu
    · exact neutral_bind x u
    · exact List.mem_singleton.1 hu ▸ neutral_visit hi
  | ifThen hi hws =>
    obtain ⟨b, vs, hvs, rfl⟩ := map_kind_eq_truth hks
    simp only [resume, Frame.pop, hvs] at h
    cases b <;> cases h
    · exact ⟨⟨σ, hσ⟩, hws⟩
    · exact ⟨⟨σ, hσ⟩, .instruction hi hws⟩
  | ifElse hi hj hws =>
    obtain ⟨b, vs, hvs, rfl⟩ := map_kind_eq_truth hks
    simp only [resume, Frame.pop, hvs] at h
    cases b <;> cases h
    · exact ⟨⟨σ, hσ⟩, .instruction hj hws⟩
    · exact ⟨⟨σ, hσ⟩, .instruction hi hws⟩
  | repeatLoop hi hws =>
    obtain ⟨t, vs, hvs, rfl⟩ := map_kind_eq_term hks
    simp only [resume, Frame.pop, hvs, bind, Except.bind] at h
    split at h
    · cases h
      refine Sound.todo (f := { f with work := ws, values := vs }) ?_ ⟨⟨σ, hσ⟩, hws⟩
      intro w hw
      exact List.eq_of_mem_replicate hw ▸ neutral_visit hi
    · cases h
  | whileLoop hc hi hws =>
    obtain ⟨b, vs, hvs, rfl⟩ := map_kind_eq_truth hks
    simp only [resume, Frame.pop, hvs] at h
    cases b <;> cases h
    · exact ⟨⟨σ, hσ⟩, hws⟩
    · exact ⟨⟨σ, hσ⟩, .instruction hi (.instruction ⟨hc, hi⟩ hws)⟩
  | giveBack => cases h
  | binary hop hws =>
    obtain ⟨l, us, hvs, hus⟩ := map_kind_eq_term hks
    obtain ⟨r, vs, rfl, rfl⟩ := map_kind_eq_term hus
    rw [resume_binary (f := { f with work := ws }) hvs] at h
    obtain ⟨o, ho, h⟩ := bind_eq_ok h
    obtain ⟨_, -, e, -, rfl⟩ := (mirrors_arithmetic hop _ l r).of_ok ho
    cases h
    exact ⟨⟨σ, hσ⟩, hws⟩
  | comparison hop hws =>
    obtain ⟨l, us, hvs, hus⟩ := map_kind_eq_term hks
    obtain ⟨r, vs, rfl, rfl⟩ := map_kind_eq_term hus
    simp only [resume, Frame.pop, hvs, bind, Except.bind, test_comparison hop] at h
    cases h
    exact ⟨⟨σ, hσ⟩, hws⟩
  | connective hop hws =>
    obtain ⟨p, us, hvs, hus⟩ := map_kind_eq_truth hks
    obtain ⟨q, vs, rfl, rfl⟩ := map_kind_eq_truth hus
    simp only [resume, Frame.pop, hvs, bind, Except.bind, test_connective hop] at h
    cases h
    exact ⟨⟨σ, hσ⟩, hws⟩
  | call => cases h

/-! ### Steps -/

/-- A visit keeps a state sound. -/
theorem sound_step_visit {callers : List Frame} (hf : Sound [] f) {u : Ast} {ws : List Work}
    (hwork : f.work = .visit u :: ws) (hcallers : ∀ g ∈ callers, Sound [.term] g) {t : State}
    (h : step functions (f, callers) = .ok (.next t)) : SoundState t := by
  have hfits := hf.work
  rw [hwork, List.nil_append] at hfits
  rw [step_visit hwork] at h
  obtain ⟨g, hg, h⟩ := bind_eq_ok h
  cases h
  refine ⟨?_, hcallers⟩
  have rest {ks : List Kind} (hws : Fits ws (ks ++ f.values.map kind)) :
      Sound ks { f with work := ws } := ⟨hf.memory, hws⟩
  cases hfits with
  | expression hu hws => exact sound_visit_expression hu (rest hws) hg
  | condition hu hws => exact sound_visit_condition hu (rest hws) hg
  | instruction hu hws => exact sound_visit_instruction hu (rest hws) hg

/-- The caller gets the term that it waits for. -/
theorem sound_step_giveBack {callers : List Frame} (hf : Sound [] f) {e : Ast} {ws : List Work}
    (hwork : f.work = .resume (.giveBack e) :: ws) (hcallers : ∀ g ∈ callers, Sound [.term] g)
    {t : State} (h : step functions (f, callers) = .ok (.next t)) : SoundState t := by
  have hfits := hf.work
  rw [hwork, List.nil_append] at hfits
  generalize hks : f.values.map kind = ks at hfits
  cases hfits with
  | giveBack =>
    obtain ⟨u, vs, hvs, -⟩ := map_kind_eq_term hks
    rw [step_giveBack hwork hvs] at h
    obtain ⟨r, -, h⟩ := bind_eq_ok h
    cases callers with
    | nil => cases h
    | cons g gs =>
      cases h
      obtain ⟨hg, hgs⟩ := List.forall_mem_cons.1 hcallers
      exact ⟨hg.pushTerm r, hgs⟩

section Programs

variable (hlibrary : ∀ g ∈ functions, LibraryFunction.ofName? g.name = none)
  (hbodies : ∀ g ∈ functions, IsInstruction g.body)

include hlibrary hbodies

/-- A call enters only functions of the program. -/
theorem sound_enter {name : String} {arguments : List Argument}
    (hargs : ∀ x ∈ arguments, IsArgument x) (h : enter functions name arguments = .ok (.frame g)) :
    Sound [] g := by
  rcases enter_cases hlibrary (evaluator functions lastEntered 0) name arguments with
    ⟨k, hk, hall, henter, -⟩ | hmirrors
  · cases henter.symm.trans h
    exact sound_activation (hbodies k hk) hall hargs
  · obtain ⟨t, -, ht⟩ := hmirrors.of_ok h
    cases ht

/-- The frame that calls is left waiting for a term. -/
theorem sound_step_call {callers : List Frame} (hf : Sound [] f) {name : String} {as : List Ast}
    {ws : List Work} (hwork : f.work = .resume (.call name as) :: ws)
    (hcallers : ∀ g ∈ callers, Sound [.term] g) {t : State}
    (h : step functions (f, callers) = .ok (.next t)) : SoundState t := by
  have hfits := hf.work
  rw [hwork, List.nil_append] at hfits
  generalize hks : f.values.map kind = ks at hfits
  cases hfits with
  | call hws =>
    obtain ⟨us, vs, hvs, hus, rfl⟩ := List.map_eq_append_iff.1 hks
    have hlength : us.length = as.length := by simpa using congrArg List.length hus
    rw [step_call hwork hvs hlength] at h
    obtain ⟨entry, hentry, h⟩ := bind_eq_ok h
    cases entry with
    | value u =>
      cases h
      exact ⟨⟨hf.memory, hws⟩, hcallers⟩
    | frame g =>
      cases h
      refine ⟨sound_enter hlibrary hbodies ?_ hentry, ?_⟩
      · intro x hx
        obtain ⟨v, hv, rfl⟩ := List.mem_map.1 hx
        exact trivial
      · exact List.forall_mem_cons.2 ⟨⟨hf.memory, hws⟩, hcallers⟩

/-- Every step keeps the discipline of the values. -/
theorem sound_step {s t : State} (hs : SoundState s) (h : step functions s = .ok (.next t)) :
    SoundState t := by
  obtain ⟨f, callers⟩ := s
  obtain ⟨hf, hcallers⟩ := hs
  have hf : Sound [] f := hf
  have hfits := hf.work
  obtain ⟨σ, hσ⟩ := hf.memory
  cases hwork : f.work with
  | nil =>
    simp only [step, hwork] at h
    cases h
  | cons w ws =>
    rw [hwork, List.nil_append] at hfits
    cases w with
    | visit u => exact sound_step_visit hf hwork hcallers h
    | bind x u =>
      cases (step_bind hwork).symm.trans h
      cases hfits with
      | bind hws => exact ⟨⟨⟨_, hσ.set x u⟩, hws⟩, hcallers⟩
    | forget =>
      simp only [step, hwork] at h
      split at h
      · split at h
        · cases h
          cases hfits with
          | forget hws => exact ⟨⟨⟨_, hσ.erase _⟩, hws⟩, hcallers⟩
        · cases h
      · cases h
    | resume u =>
      by_cases hgive : ∃ e, u = .giveBack e
      · obtain ⟨e, rfl⟩ := hgive
        exact sound_step_giveBack hf hwork hcallers h
      by_cases hcall : ∃ name as, u = .call name as
      · obtain ⟨name, as, rfl⟩ := hcall
        exact sound_step_call hlibrary hbodies hf hwork hcallers h
      · rw [step_resume hwork (fun e he => hgive ⟨e, he⟩) fun n as hu => hcall ⟨n, as, hu⟩] at h
        obtain ⟨g, hg, h⟩ := bind_eq_ok h
        cases h
        exact ⟨sound_resume hf hwork hg, hcallers⟩

/-- Every execution keeps a state sound. -/
theorem sound_of_steps {s t : State} (hs : SoundState s) (h : Steps functions s t) :
    SoundState t := by
  induction h with
  | refl => exact hs
  | tail _ hstep ih => exact sound_step hlibrary hbodies ih hstep

end Programs

variable (functions) in
/-- The states that a call comes to. -/
def Reachable (name : String) (arguments : List Argument) (s : State) : Prop :=
  ∃ g, enter functions name arguments = .ok (.frame g) ∧ Steps functions (g, []) s

/-- All states that a loaded program reaches are sound. -/
theorem Reachable.sound {nodes : List Ast} (hload : FunctionDef.load nodes = .ok functions)
    (hnodes : ∀ t ∈ nodes, IsFunction t) {name : String} {arguments : List Argument}
    (hargs : ∀ x ∈ arguments, IsArgument x) {s : State}
    (hs : Reachable functions name arguments s) : SoundState s := by
  obtain ⟨g, henter, hsteps⟩ := hs
  have hlibrary := FunctionDef.ofName?_of_load hload
  have hbodies := FunctionDef.isInstruction_of_load hload hnodes
  exact sound_of_steps hlibrary hbodies ⟨sound_enter hlibrary hbodies hargs henter,
    List.forall_mem_nil _⟩ hsteps

end SymScript.Machine
