import SymScript.Proofs.Reachable
import SymScript.Proofs.SimplifyInPlace

/-!
# The values that a frame computes

Every value that the machine computes itself has just been simplified, and so has every derivative
of the library; what it expands, substitutes or evaluates is left as it came out.  A step of the
machine keeps this for all frames, hence it holds of every state that a call can reach: any other
term on the values of a frame is simplified, unless it holds a number that is not in lowest terms,
and a variable that is bound to it puts the same term on the values again.
-/

namespace SymScript

namespace Expr

/-! ### Tidy expressions in lowest terms -/

/-- All numbers of an expression are in lowest terms. -/
def InLowestTerms (e : Expr) : Prop := ∀ q, rational q ∈ e.nodes → q.reduce = q

mutual

/-- Tidy expressions with numbers in lowest terms are stable. -/
theorem Tidy.stable : ∀ {e : Expr}, Tidy e → InLowestTerms e → Stable e
  | rational q, _, hq => hq q (by simp [nodes])
  | symbol .., _, _ => trivial
  | sum s es, h, hq => by
    rw [Tidy, Shaped] at h
    rw [Stable, Shaped]
    exact ⟨stableAll_of_tidyAll h.1 fun q hm => hq q (by simp [nodes, hm]), h.2⟩
  | product s es, h, hq => by
    rw [Tidy, Shaped] at h
    rw [Stable, Shaped]
    exact ⟨stableAll_of_tidyAll h.1 fun q hm => hq q (by simp [nodes, hm]), h.2⟩
  | power s b x, h, hq => by
    rw [Tidy, Shaped] at h
    rw [Stable, Shaped]
    exact ⟨Tidy.stable h.1 fun q hm => hq q (by simp [nodes, hm]),
      Tidy.stable h.2.1 fun q hm => hq q (by simp [nodes, hm]), h.2.2⟩

theorem stableAll_of_tidyAll : ∀ {es : List Expr}, ShapedAll (fun _ => True) PowerShape es →
    (∀ q, rational q ∈ nodesAll es → q.reduce = q) → ShapedAll (fun q => q.reduce = q) PowerShape es
  | [], _, _ => trivial
  | e :: es, h, hq => by
    rw [ShapedAll] at h ⊢
    exact ⟨Tidy.stable h.1 fun q hm => hq q (by simp [nodesAll, hm]),
      stableAll_of_tidyAll h.2 fun q hm => hq q (by simp [nodesAll, hm])⟩

end

mutual

/-- Stable expressions have their numbers in lowest terms. -/
theorem Stable.inLowestTerms : ∀ {e : Expr}, Stable e → InLowestTerms e
  | rational q, h, r, hr => by
    obtain rfl : r = q := by simpa [nodes] using hr
    exact h
  | symbol .., _, r, hr => by simp [nodes] at hr
  | sum s es, h, r, hr => by
    rw [Stable, Shaped] at h
    exact inLowestTerms_of_stableAll h.1 r (by simpa [nodes] using hr)
  | product s es, h, r, hr => by
    rw [Stable, Shaped] at h
    exact inLowestTerms_of_stableAll h.1 r (by simpa [nodes] using hr)
  | power s b x, h, r, hr => by
    rw [Stable, Shaped] at h
    simp only [nodes, List.mem_cons, reduceCtorEq, List.mem_append, false_or] at hr
    rcases hr with hr | hr
    · exact Stable.inLowestTerms h.1 r hr
    · exact Stable.inLowestTerms h.2.1 r hr

theorem inLowestTerms_of_stableAll :
    ∀ {es : List Expr}, ShapedAll (fun q => q.reduce = q) PowerShape es →
    ∀ q, rational q ∈ nodesAll es → q.reduce = q
  | [], _, _, hr => by simp [nodesAll] at hr
  | e :: es, h, r, hr => by
    rw [ShapedAll] at h
    rw [nodesAll, List.mem_append] at hr
    rcases hr with hr | hr
    · exact Stable.inLowestTerms h.1 r hr
    · exact inLowestTerms_of_stableAll h.2 r hr

end

/-- Simplification leaves an expression as it is if it has come to the end of its rules before. -/
theorem simplify_eq_self_iff {e : Expr} : simplify e = .ok e ↔ Stable e := by
  constructor
  · intro h
    exact (((simplify_lightens e).result e h).kept rfl).stable
  · intro h
    have := mass_lt_simplifyBound e
    exact h.simplifyWithin_eq (by omega)

/-- A tidy expression simplifies to itself just if its numbers are in lowest terms. -/
theorem Tidy.simplify_eq_self_iff {e : Expr} (h : Tidy e) : simplify e = .ok e ↔ InLowestTerms e :=
  Expr.simplify_eq_self_iff.trans ⟨Stable.inLowestTerms, h.stable⟩

end Expr

namespace Machine

/-! ### What is put on the values -/

/-- A truth value, or an expression that has been simplified. -/
def Settled (v : Value) : Prop := (∃ b, v = .truth b) ∨ ∃ e, v = .term (.tree e) ∧ e.Tidy

/-- The second frame has settled values on top of what it keeps of the values of the first. -/
def Settles (f g : Frame) : Prop :=
  ∃ new kept, g.values = new ++ kept ∧ kept <:+ f.values ∧ ∀ v ∈ new, Settled v

variable {functions : List FunctionDef} {f g : Frame}

/-- What does not touch the values settles. -/
theorem settles_of_values_eq (h : g.values = f.values) : Settles f g :=
  ⟨[], f.values, h, List.suffix_rfl, List.forall_mem_nil _⟩

/-- Putting a settled value on top settles. -/
theorem settles_push {v : Value} (hv : Settled v) : Settles f (f.push v) :=
  ⟨[v], f.values, rfl, List.suffix_rfl, List.forall_mem_singleton.2 hv⟩

/-- Putting a tidy expression on top settles. -/
theorem settles_pushTerm {e : Expr} (he : e.Tidy) : Settles f (f.pushTerm e) :=
  settles_push (.inr ⟨e, rfl, he⟩)

/-- Steps that settle do so in a row. -/
theorem Settles.trans {h : Frame} (hfg : Settles f g) (hgh : Settles g h) : Settles f h := by
  obtain ⟨new, kept, hg, hkept, hnew⟩ := hfg
  obtain ⟨new', kept', hh, hkept', hnew'⟩ := hgh
  rw [hg] at hkept'
  rcases List.suffix_or_suffix_of_suffix hkept' (List.suffix_append new kept) with hle | ⟨us, rfl⟩
  · exact ⟨new', kept', hh, hle.trans hkept, hnew'⟩
  · -- some of the new values are kept, with all that was kept before
    obtain ⟨vs, hvs⟩ := hkept'
    rw [← List.append_assoc] at hvs
    rw [← List.append_assoc] at hh
    rw [← List.append_cancel_right hvs, List.forall_mem_append] at hnew
    exact ⟨new' ++ us, kept, hh, hkept, List.forall_mem_append.2 ⟨hnew', hnew.2⟩⟩

theorem ofAlgebra_eq_ok {α : Type} {x : Except AlgebraError α} {a : α} (h : ofAlgebra x = .ok a) :
    x = .ok a := by
  cases x with
  | ok b =>
    cases h
    rfl
  | error e => cases h

/-- A fresh term is simplified. -/
theorem tidy_of_fresh {t : Term} {e : Expr} (h : t.fresh = .ok e) : e.Tidy := by
  obtain ⟨a, -, h⟩ := bind_eq_ok h
  exact Expr.tidy_of_simplifyWithin h

/-- A visit puts settled values on top. -/
theorem settles_visit {t : Ast} (h : visit f t = .ok g) : Settles f g := by
  cases t with
  | assign x e =>
    refine settles_of_values_eq ?_
    cases e <;> cases h <;> rfl
  | foreachLoop x source body =>
    refine settles_of_values_eq ?_
    simp only [visit] at h
    split at h <;> cases h <;> rfl
  | nat negated digits =>
    simp only [visit] at h
    split at h <;> cases h
    exact settles_pushTerm trivial
  | sym negated letter =>
    simp only [visit] at h
    split at h
    · split at h <;> cases h
      exact settles_pushTerm trivial
    · cases h
  | id negated x =>
    simp only [visit] at h
    split at h
    · obtain ⟨e, he, h⟩ := bind_eq_ok h
      cases h
      exact settles_pushTerm (tidy_of_fresh (ofAlgebra_eq_ok he))
    · cases h
    · cases h
  | truth negated value =>
    cases h
    exact (settles_of_values_eq rfl).trans (settles_push (.inl ⟨_, rfl⟩))
  | block | ifThen | ifElse | repeatLoop | giveBack | whileLoop | binary | compare | call =>
    cases h
    exact settles_of_values_eq rfl
  | _ => cases h

/-- The result of an operator is simplified. -/
theorem tidy_of_arithmetic {negated : Bool} {op : Operator} {left right : Value} {e : Expr}
    (h : arithmetic negated op left right = .ok (some e)) : e.Tidy := by
  have run {make : Expr → Expr → Expr} (h : (do
      let a ← termOf left
      let b ← termOf right
      some <$> ofAlgebra (make a b).simplify) = .ok (some e)) : e.Tidy := by
    obtain ⟨a, -, h⟩ := bind_eq_ok h
    obtain ⟨b, -, h⟩ := bind_eq_ok h
    cases hr : (make a b).simplify with
    | error x =>
      rw [hr] at h
      cases h
    | ok r =>
      rw [hr] at h
      cases h
      exact Expr.tidy_of_simplifyWithin hr
  cases op <;> first | exact run h | cases h

theorem pop_eq_ok {v : Value} (h : f.pop = .ok (v, g)) :
    f.values = v :: g.values ∧ g = { f with values := g.values } := by
  unfold Frame.pop at h
  split at h
  · cases h
  · rename_i hvalues
    cases h
    exact ⟨hvalues, rfl⟩

/-- Taking a value off settles. -/
theorem settles_pop {v : Value} (h : f.pop = .ok (v, g)) : Settles f g := by
  refine ⟨[], g.values, rfl, ?_, List.forall_mem_nil _⟩
  rw [(pop_eq_ok h).1]
  exact List.suffix_cons v g.values

/-- Going on with a node takes values, and may put a settled one in their place. -/
theorem settles_resume {t : Ast} (h : resume f t = .ok g) : Settles f g := by
  cases t with
  | assign x e =>
    obtain ⟨⟨v, k⟩, hpop, h⟩ := bind_eq_ok h
    cases h
    exact (settles_pop hpop).trans (settles_of_values_eq rfl)
  | foreachLoop x source body =>
    obtain ⟨⟨v, k⟩, hpop, h⟩ := bind_eq_ok h
    obtain ⟨ts, -, h⟩ := bind_eq_ok h
    cases h
    exact (settles_pop hpop).trans (settles_of_values_eq rfl)
  | ifThen test body =>
    obtain ⟨⟨v, k⟩, hpop, h⟩ := bind_eq_ok h
    cases h
    refine (settles_pop hpop).trans (settles_of_values_eq ?_)
    split <;> rfl
  | ifElse test body other =>
    obtain ⟨⟨v, k⟩, hpop, h⟩ := bind_eq_ok h
    cases h
    exact (settles_pop hpop).trans (settles_of_values_eq rfl)
  | repeatLoop count body =>
    obtain ⟨⟨v, k⟩, hpop, h⟩ := bind_eq_ok h
    dsimp only at h
    split at h <;> cases h
    exact (settles_pop hpop).trans (settles_of_values_eq rfl)
  | whileLoop test body =>
    obtain ⟨⟨v, k⟩, hpop, h⟩ := bind_eq_ok h
    cases h
    refine (settles_pop hpop).trans (settles_of_values_eq ?_)
    split <;> rfl
  | binary negated op a b =>
    obtain ⟨⟨left, k⟩, hleft, h⟩ := bind_eq_ok h
    obtain ⟨⟨right, l⟩, hright, h⟩ := bind_eq_ok h
    obtain ⟨e, he, h⟩ := bind_eq_ok h
    have htaken := (settles_pop hleft).trans (settles_pop hright)
    cases e with
    | none =>
      cases h
      exact htaken
    | some e =>
      cases h
      exact htaken.trans (settles_pushTerm (tidy_of_arithmetic he))
  | compare negated op a b =>
    obtain ⟨⟨left, k⟩, hleft, h⟩ := bind_eq_ok h
    obtain ⟨⟨right, l⟩, hright, h⟩ := bind_eq_ok h
    obtain ⟨v, -, h⟩ := bind_eq_ok h
    cases h
    have htaken := (settles_pop hleft).trans (settles_pop hright)
    exact (htaken.trans (settles_of_values_eq rfl)).trans (settles_push (.inl ⟨_, rfl⟩))
  | _ => cases h

/-! ### States -/

/-- The step in which a frame goes on with a call of a library function: the arguments are taken
from its values, and what the function gives is put on top of the others. -/
def LibraryStep (functions : List FunctionDef) (l : LibraryFunction) (t : Term) (s s' : State) :
    Prop :=
  step functions s = .ok (.next s') ∧ ∃ name as ws vs rest,
    s.1.work = .resume (.call name as) :: ws ∧ LibraryFunction.ofName? name = some l ∧
    s.1.values = vs ++ rest ∧ vs.length = as.length ∧
    Term.call l (vs.map fun v => (Argument.value v).term?) = .ok t ∧
    s'.1.values = .term t :: rest ∧ s'.2 = s.2

/-- The library functions that leave what they return as it came out. -/
def untreating : List LibraryFunction := [.expand, .substitute, .eval]

section Proper

variable (P Q : List Frame → Term → List Value → Prop)

/-- Every term among the values of a frame is tidy or has a property that also tells of the callers
and of the values below it.  Children are nodes in all of them. -/
def Proper (callers : List Frame) (f : Frame) : Prop := ∀ us t vs, f.values = us ++ .term t :: vs →
  t.Closed ∧ (P callers t vs ∨ ∃ e, t = .tree e ∧ e.Tidy)

/-- All frames of a stack are proper. -/
def ProperStack : List Frame → Prop
  | [] => True
  | f :: callers => Proper P callers f ∧ ProperStack callers

variable {P Q} {callers : List Frame}

/-- Another property that all terms of a stack have if they have the first one. -/
theorem ProperStack.imp {fs : List Frame} (h : ProperStack P fs)
    (hPQ : ∀ above f callers us t vs, fs = above ++ f :: callers → f.values = us ++ .term t :: vs →
      P callers t vs → Q callers t vs) : ProperStack Q fs := by
  induction fs with
  | nil => trivial
  | cons f fs ih =>
    refine ⟨fun us t vs hvalues => ?_, ih h.2 fun above g callers us t vs hfs => ?_⟩
    · obtain ⟨hclosed, ht⟩ := h.1 us t vs hvalues
      exact ⟨hclosed, ht.imp_left (hPQ [] f fs us t vs rfl hvalues)⟩
    · exact hPQ (f :: above) g callers us t vs (by rw [hfs, List.cons_append])

/-- A frame anywhere in a proper stack is proper. -/
theorem ProperStack.proper_of_append {above : List Frame}
    (h : ProperStack P (above ++ f :: callers)) : Proper P callers f := by
  induction above with
  | nil => exact h.1
  | cons g above ih => exact ih h.2

/-- A frame with fewer values is proper. -/
theorem Proper.of_suffix {vs : List Value} (hf : Proper P callers f) (hvs : vs <:+ f.values)
    (hg : g.values = vs) : Proper P callers g := by
  obtain ⟨us, hus⟩ := hvs
  intro ws t xs h
  rw [hg] at h
  exact hf (us ++ ws) t xs (by rw [← hus, h, List.append_assoc])

/-- The terms on the values of a proper frame are closed. -/
theorem Proper.closed {u : Term} (hf : Proper P callers f) (hu : .term u ∈ f.values) :
    u.Closed := by
  obtain ⟨us, vs, h⟩ := List.append_of_mem hu
  exact (hf us u vs h).1

/-- A step that settles keeps a frame proper. -/
theorem Proper.settles (hf : Proper P callers f) (hfg : Settles f g) : Proper P callers g := by
  obtain ⟨new, kept, hg, hkept, hnew⟩ := hfg
  intro us t vs h
  rw [hg] at h
  have hbelow {ws : List Value} (hws : kept = ws ++ .term t :: vs) :
      t.Closed ∧ (P callers t vs ∨ ∃ e, t = .tree e ∧ e.Tidy) :=
    hf.of_suffix (g := { f with values := kept }) hkept rfl ws t vs hws
  rcases List.append_eq_append_iff.1 h with ⟨ws, -, hws⟩ | ⟨ws, hws, hvs⟩
  · exact hbelow hws
  · cases ws with
    | nil => exact hbelow (show kept = [] ++ .term t :: vs from hvs.symm)
    | cons w ws =>
      cases hvs
      rcases hnew (.term t) (by simp [hws]) with ⟨b, ht⟩ | ⟨e, ht, he⟩
      · cases ht
      · cases ht
        exact ⟨trivial, .inr ⟨e, rfl, he⟩⟩

end Proper

/-- The values that are taken off are the ones on top. -/
theorem popMany_eq_ok {n : Nat} {vs : List Value} (h : f.popMany n = .ok (vs, g)) :
    f.values = vs ++ g.values ∧ vs.length = n := by
  induction n generalizing f vs with
  | zero =>
    cases h
    exact ⟨rfl, rfl⟩
  | succ n ih =>
    obtain ⟨⟨v, k⟩, hpop, h⟩ := bind_eq_ok h
    obtain ⟨⟨us, l⟩, hus, h⟩ := bind_eq_ok h
    cases h
    obtain ⟨hvalues, hlength⟩ := ih hus
    rw [(pop_eq_ok hpop).1, hvalues, List.cons_append, List.length_cons, hlength]
    exact ⟨rfl, rfl⟩

/-- A call of the library on terms in which children are nodes gives such a term, which is tidy or
comes from a function that leaves it as it came out. -/
theorem closed_of_call {l : LibraryFunction} {vs : List Value} {t : Term}
    (hvs : ∀ u, .term u ∈ vs → u.Closed)
    (h : Term.call l (vs.map fun v => (Argument.value v).term?) = .ok t) :
    t.Closed ∧ (l ∈ untreating ∨ ∃ e, t = .tree e ∧ e.Tidy) := by
  rcases Term.call_cases h with ⟨-, e, rfl, he⟩ | ⟨hl, hcase⟩
  · exact ⟨trivial, .inr ⟨e, rfl, he⟩⟩
  · refine ⟨?_, .inl hl⟩
    rcases hcase with ⟨e, rfl⟩ | hgraph
    · trivial
    · refine Term.closed_callOnGraph (fun u hu => hvs u ?_) hl hgraph
      obtain ⟨v, hv, hu⟩ := List.mem_map.1 hu
      cases v with
      | truth b => cases hu
      | term w =>
        cases hu
        exact hv

/-- A call enters a frame without values, or gives what a library function returns. -/
theorem enter_eq_ok {name : String} {arguments : List Argument} {entry : Entry}
    (h : enter functions name arguments = .ok entry) :
    (∃ k, entry = .frame (activation k arguments)) ∨
      ∃ l t, entry = .value t ∧ LibraryFunction.ofName? name = some l ∧
        Term.call l (arguments.map Argument.term?) = .ok t := by
  simp only [enter] at h
  split at h
  · split at h
    · rename_i l hl
      cases ht : Term.call l (arguments.map Argument.term?) with
      | error x =>
        rw [ht] at h
        cases h
      | ok t =>
        rw [ht] at h
        cases h
        exact .inr ⟨l, t, rfl, hl, ht⟩
    · cases h
  · split at h
    · cases h
    · rename_i k _
      split at h
      · cases h
      · split at h <;> cases h
        exact .inl ⟨k, rfl⟩

section Steps

variable {P : List Frame → Term → List Value → Prop} {callers : List Frame}

/-- A frame that is entered has no values, and is proper. -/
theorem proper_activation (k : FunctionDef) (arguments : List Argument) :
    Proper P callers (activation k arguments) := by
  intro us t vs h
  cases us <;> cases h

/-- The caller gets a simplified term. -/
theorem proper_leave {e : Expr} (he : e.Tidy) (hcallers : ProperStack P callers) {t : State}
    (h : leave e callers = .next t) : ProperStack P (t.1 :: t.2) := by
  cases callers with
  | nil => cases h
  | cons k ks =>
    cases h
    exact ⟨hcallers.1.settles (settles_pushTerm he), hcallers.2⟩

/-- A return puts a simplified value on the frame below. -/
theorem proper_step_giveBack {e : Ast} {ws : List Work} (hf : Proper P callers f)
    (hcallers : ProperStack P callers) (hwork : f.work = .resume (.giveBack e) :: ws) {t : State}
    (h : step functions (f, callers) = .ok (.next t)) : ProperStack P (t.1 :: t.2) := by
  simp only [step, hwork] at h
  obtain ⟨⟨v, k⟩, hpop, h⟩ := bind_eq_ok h
  cases v with
  | truth b => cases h
  | term u =>
    obtain ⟨r, hr, h⟩ := bind_eq_ok h
    have hu : u.Closed := hf.closed ((pop_eq_ok hpop).1 ▸ List.mem_cons_self)
    refine proper_leave (Term.tidy_of_simplify hu (ofAlgebra_eq_ok hr)) hcallers ?_
    exact Except.ok.inj h

/-- A call puts a term on the values only if it is one of the library. -/
theorem proper_step_call {name : String} {as : List Ast} {ws : List Work} (hf : Proper P callers f)
    (hcallers : ProperStack P callers) (hwork : f.work = .resume (.call name as) :: ws) {s : State}
    (h : step functions (f, callers) = .ok (.next s))
    (hP : ∀ l ∈ untreating, ∀ t vs, LibraryStep functions l t (f, callers) s →
      s.1.values = .term t :: vs → P s.2 t vs) : ProperStack P (s.1 :: s.2) := by
  have hstep := h
  simp only [step, hwork] at h
  obtain ⟨⟨vs, k⟩, hpop, h⟩ := bind_eq_ok h
  obtain ⟨hvalues, hlength⟩ := popMany_eq_ok hpop
  change f.values = vs ++ k.values at hvalues
  have hk {g : Frame} (hg : g.values = k.values) : Proper P callers g :=
    hf.of_suffix (hvalues ▸ List.suffix_append vs k.values) hg
  have hvs (u : Term) (hu : .term u ∈ vs) : u.Closed :=
    hf.closed (hvalues ▸ List.mem_append_left k.values hu)
  obtain ⟨entry, hentry, h⟩ := bind_eq_ok h
  rcases enter_eq_ok hentry with ⟨d, rfl⟩ | ⟨l, u, rfl, hl, hu⟩
  · cases h
    exact ⟨proper_activation d _, hk rfl, hcallers⟩
  · rw [List.map_map] at hu
    cases h
    obtain ⟨hclosed, hcase⟩ := closed_of_call hvs hu
    refine ⟨fun us t xs ht => ?_, hcallers⟩
    cases us with
    | nil =>
      cases ht
      refine ⟨hclosed, hcase.imp_left fun hmem => hP l hmem u k.values ?_ rfl⟩
      exact ⟨hstep, name, as, ws, vs, k.values, hwork, hl, hvalues, hlength, hu, rfl, rfl⟩
    | cons v us => exact hk rfl us t xs (List.cons.inj ht).2

/-- Every step keeps a stack proper, if what it puts on the values for a call of the library has the
property. -/
theorem proper_step {s s' : State} (hs : ProperStack P (s.1 :: s.2))
    (h : step functions s = .ok (.next s'))
    (hP : ∀ l ∈ untreating, ∀ t vs, LibraryStep functions l t s s' → s'.1.values = .term t :: vs →
      P s'.2 t vs) : ProperStack P (s'.1 :: s'.2) := by
  obtain ⟨f, callers⟩ := s
  obtain ⟨hf, hcallers⟩ := hs
  have next {g : Frame} (hg : Settles f g) : ProperStack P (g :: callers) :=
    ⟨hf.settles hg, hcallers⟩
  cases hwork : f.work with
  | nil =>
    simp only [step, hwork] at h
    cases h
  | cons w ws =>
    cases w with
    | visit u =>
      rw [step_visit hwork] at h
      obtain ⟨g, hg, h⟩ := bind_eq_ok h
      cases h
      have hvisit := settles_visit hg
      exact next hvisit
    | bind x u =>
      cases (step_bind hwork).symm.trans h
      exact next (settles_of_values_eq rfl)
    | forget =>
      simp only [step, hwork] at h
      split at h
      · split at h <;> cases h
        exact next (settles_of_values_eq rfl)
      · cases h
    | resume u =>
      by_cases hgive : ∃ e, u = .giveBack e
      · obtain ⟨e, rfl⟩ := hgive
        exact proper_step_giveBack hf hcallers hwork h
      by_cases hcall : ∃ name as, u = .call name as
      · obtain ⟨name, as, rfl⟩ := hcall
        exact proper_step_call hf hcallers hwork h hP
      · rw [step_resume hwork (fun e he => hgive ⟨e, he⟩) fun n as hu => hcall ⟨n, as, hu⟩] at h
        obtain ⟨g, hg, h⟩ := bind_eq_ok h
        cases h
        have hresume := settles_resume hg
        exact next hresume

end Steps

/-- A frame with these callers has the given values at the bottom of its own. -/
def Keeps (callers : List Frame) (vs : List Value) (s : State) : Prop :=
  ∃ above f, s.1 :: s.2 = above ++ f :: callers ∧ vs <:+ f.values

/-- Steps to states that all keep these values. -/
def StepsKeeping (functions : List FunctionDef) (callers : List Frame) (vs : List Value) :
    State → State → Prop :=
  Relation.ReflTransGen fun s s' => step functions s = .ok (.next s') ∧ Keeps callers vs s'

/-- In a step of the run a library function that leaves its result as it came out has put the term
on these values of a frame with these callers, and there it has been since. -/
def Untreated (functions : List FunctionDef) (name : String) (arguments : List Argument) (s : State)
    (callers : List Frame) (t : Term) (vs : List Value) : Prop :=
  ∃ l ∈ untreating, ∃ s₀ s₁, Reachable functions name arguments s₀ ∧
    LibraryStep functions l t s₀ s₁ ∧ s₁.1.values = .term t :: vs ∧ s₁.2 = callers ∧
    StepsKeeping functions callers (.term t :: vs) s₁ s

/-- All frames of a state that is reached are proper. -/
theorem Reachable.proper {name : String} {arguments : List Argument} {s : State}
    (hs : Reachable functions name arguments s) :
    ProperStack (Untreated functions name arguments s) (s.1 :: s.2) := by
  obtain ⟨g, henter, hsteps⟩ := hs
  induction hsteps with
  | refl =>
    rcases enter_eq_ok henter with ⟨k, hk⟩ | ⟨l, t, hk, -⟩
    · cases hk
      exact ⟨proper_activation k arguments, trivial⟩
    · cases hk
  | @tail s s' hsteps hstep ih =>
    -- a term is where it was before the step, or the step has put it there for a call
    let P (callers : List Frame) (t : Term) (vs : List Value) : Prop :=
      Untreated functions name arguments s callers t vs ∨ ∃ l ∈ untreating,
        LibraryStep functions l t s s' ∧ s'.1.values = .term t :: vs ∧ s'.2 = callers
    have hP : ProperStack P (s'.1 :: s'.2) :=
      proper_step (ih.imp fun _ _ _ _ _ _ _ _ h => .inl h) hstep fun l hl t vs hcall hvalues =>
        .inr ⟨l, hl, hcall, hvalues, rfl⟩
    refine hP.imp fun above f callers us t vs hf hvalues ht => ?_
    rcases ht with ⟨l, hl, s₀, s₁, hs₀, hcall, htop, hcallers, hkept⟩ | ⟨l, hl, hcall,
      htop, hcallers⟩
    · exact ⟨l, hl, s₀, s₁, hs₀, hcall, htop, hcallers,
        hkept.tail ⟨hstep, above, f, hf, us, hvalues.symm⟩⟩
    · exact ⟨l, hl, s, s', ⟨g, henter, hsteps⟩, hcall, htop, hcallers, .refl⟩

/-- A variable bound to a simplified expression puts that expression on the values. -/
theorem visit_of_simplify_eq {e : Expr} (he : e.Tidy) (hsimplify : e.simplify = .ok e) {x : String}
    (hx : f.memory.find? x = some (.term (.tree e))) (negated : Bool) :
    visit f (.id negated x) = .ok (f.pushTerm e) := by
  have hfresh : (Term.tree e).fresh = .ok e := by
    change e.copy.simplify = .ok e
    rw [Expr.Shaped.copy_eq he, hsimplify]
  simp only [visit, hx, hfresh]
  rfl

/-- A term among the values of a frame was put there by a step of this run in which Expand,
Substitute or Eval was called, and has been there since; or it is an expression that equals its own
simplification if and only if its numbers are in lowest terms.  A variable that is bound to such an
expression gives the same value again, so it makes no difference whether the expression is used
where it stands or through a variable. -/
theorem Reachable.simplified {name : String} {arguments : List Argument} {s : State}
    (hs : Reachable functions name arguments s) {above callers : List Frame} {us vs : List Value}
    {t : Term} (hf : s.1 :: s.2 = above ++ f :: callers) (ht : f.values = us ++ .term t :: vs) :
    (∃ l ∈ [LibraryFunction.expand, .substitute, .eval], ∃ s₀ s₁,
      Reachable functions name arguments s₀ ∧ LibraryStep functions l t s₀ s₁ ∧
      s₁.1.values = .term t :: vs ∧ s₁.2 = callers ∧
      StepsKeeping functions callers (.term t :: vs) s₁ s) ∨
    ∃ e, t = .tree e ∧ (e.simplify = .ok e ↔ e.InLowestTerms) ∧
      (e.simplify = .ok e → ∀ (g : Frame) (x : String) (negated : Bool),
        g.memory.find? x = some (.term t) → visit g (.id negated x) = .ok (g.push (.term t))) := by
  have hproper := hs.proper
  rw [hf] at hproper
  rcases (hproper.proper_of_append us t vs ht).2 with hraw | ⟨e, rfl, he⟩
  · exact .inl hraw
  · exact .inr ⟨e, rfl, he.simplify_eq_self_iff,
      fun hsimplify g x negated hx => visit_of_simplify_eq he hsimplify hx negated⟩

/-- A state that is reached is the first one, or reached from the one after it. -/
theorem steps_cases {s s' t : State} (hs : step functions s = .ok (.next s'))
    (h : Steps functions s t) : t = s ∨ Steps functions s' t := by
  rcases h.cases_head with rfl | ⟨u, hu, hsteps⟩
  · exact .inl rfl
  · cases hs.symm.trans hu
    exact .inr hsteps

/-- Nothing is reached from a state that returns. -/
theorem eq_of_steps_returned {s t : State} {e : Expr} (hs : step functions s = .ok (.returned e))
    (h : Steps functions s t) : t = s := by
  rcases h.cases_head with rfl | ⟨u, hu, -⟩
  · rfl
  · cases hs.symm.trans hu

/-- A program that returns one expression. -/
def returning (e : Ast) : List FunctionDef :=
  [{ name := "Main", parameters := [], body := .giveBack e }]

/-- A single frame without variables. -/
def working (function : String) (work : List Work) (values : List Value) : State :=
  ({ function, work, values }, [])

/-- A sum of two equal letters. -/
def doubled : Ast := .binary false .sum (.sym false "x") (.sym false "x")

/-- Evaluating `x + 1` at 2. -/
def evaluated : Ast :=
  .call "Eval" [.binary false .sum (.sym false "x") (.nat false "1"), .nat false "2"]

theorem step_letter {functions : List FunctionDef} (ws : List Work) (vs : List Value) :
    step functions (working "Main" (.visit (.sym false "x") :: ws) vs) =
      .ok (.next (working "Main" ws (.term (.tree (.symbol false 'x')) :: vs))) := by
  have hx : Text.isLetter 'x' = true := by decide +kernel
  rw [working, step_visit rfl]
  simp [visit, hx]
  rfl

/-- The sum of two equal letters is put on the values as twice the letter. -/
theorem step_doubled : step (returning doubled) (working "Main"
    [.resume doubled, .resume (.giveBack doubled)]
      [.term (.tree (.symbol false 'x')), .term (.tree (.symbol false 'x'))]) =
    .ok (.next (working "Main" [.resume (.giveBack doubled)]
      [.term (.tree (.product false [.rational (.ofNat 2), .symbol false 'x']))])) := by
  with_unfolding_all rfl

/-- There is no call of the library among the six states of this run. -/
theorem not_libraryStep_doubled {l : LibraryFunction} {t : Term} {s s' : State}
    (hs : Reachable (returning doubled) "Main" [] s) :
    ¬ LibraryStep (returning doubled) l t s s' := by
  rintro ⟨-, name, as, ws, vs, rest, hwork, -⟩
  obtain ⟨g, hg, hsteps⟩ := hs
  cases hg
  rcases steps_cases rfl hsteps with rfl | hsteps
  · cases hwork
  rcases steps_cases rfl hsteps with rfl | hsteps
  · cases hwork
  rcases steps_cases (step_letter _ _) hsteps with rfl | hsteps
  · cases hwork
  rcases steps_cases (step_letter _ _) hsteps with rfl | hsteps
  · cases hwork
  rcases steps_cases step_doubled hsteps with rfl | hsteps
  · cases hwork
  · obtain ⟨v, hv⟩ : ∃ v, step (returning doubled) (working "Main" [.resume (.giveBack doubled)]
        [.term (.tree (.product false [.rational (.ofNat 2), .symbol false 'x']))]) =
          .ok (.returned v) := by
      with_unfolding_all exact ⟨_, rfl⟩
    cases eq_of_steps_returned hv hsteps
    cases hwork

/-- What is evaluated is put on the values as a sum of two numbers. -/
theorem reachable_evaluated : Reachable (returning evaluated) "Main" []
    (working "Eval" [.resume (.giveBack evaluated)]
      [.term (.tree (.sum false [.rational (.ofNat 1), .rational (.ofNat 2)]))]) := by
  let ready := working "Main" [.resume evaluated, .resume (.giveBack evaluated)]
    [.term (.tree (.sum false [.rational (.ofNat 1), .symbol false 'x'])),
      .term (.tree (.rational (.ofNat 2)))]
  have hsum : step (returning evaluated) (working "Main"
      [.resume (.binary false .sum (.sym false "x") (.nat false "1")), .resume evaluated,
        .resume (.giveBack evaluated)]
      [.term (.tree (.symbol false 'x')), .term (.tree (.rational (.ofNat 1))),
        .term (.tree (.rational (.ofNat 2)))]) = .ok (.next ready) := by
    with_unfolding_all rfl
  have hcall : step (returning evaluated) ready = .ok (.next (working "Eval"
      [.resume (.giveBack evaluated)]
      [.term (.tree (.sum false [.rational (.ofNat 1), .rational (.ofNat 2)]))])) := by
    with_unfolding_all rfl
  exact ⟨_, rfl, .head rfl (.head rfl (.head rfl (.head rfl (.head rfl (.head (step_letter _ _)
    (.head hsum (.single hcall)))))))⟩

/-- Before the sum of two equal letters is returned, twice the letter is on the values, simplified.
Before what is evaluated is returned, a sum of two numbers is there, by the call. -/
theorem simplified_doubling :
    let twice : Expr := .product false [.rational (.ofNat 2), .symbol false 'x']
    let sum : Expr := .sum false [.rational (.ofNat 1), .rational (.ofNat 2)]
    (∃ s, Reachable (returning doubled) "Main" [] s ∧ s.1.values = [.term (.tree twice)] ∧
      ∃ e, Term.tree twice = .tree e ∧ (e.simplify = .ok e ↔ e.InLowestTerms) ∧
        (e.simplify = .ok e → ∀ (g : Frame) (x : String) (negated : Bool),
          g.memory.find? x = some (.term (.tree twice)) →
            visit g (.id negated x) = .ok (g.push (.term (.tree twice))))) ∧
    ∃ s, Reachable (returning evaluated) "Main" [] s ∧ s.1.values = [.term (.tree sum)] ∧
      ∃ l ∈ [LibraryFunction.expand, .substitute, .eval], ∃ s₀ s₁,
        Reachable (returning evaluated) "Main" [] s₀ ∧
        LibraryStep (returning evaluated) l (.tree sum) s₀ s₁ ∧ s₁.1.values = [.term (.tree sum)] ∧
        s₁.2 = [] ∧ StepsKeeping (returning evaluated) [] [.term (.tree sum)] s₁ s := by
  intro twice sum
  constructor
  · let done := working "Main" [.resume (.giveBack doubled)] [.term (.tree twice)]
    have hreach : Reachable (returning doubled) "Main" [] done :=
      ⟨_, rfl, .head rfl
        (.head rfl (.head (step_letter _ _) (.head (step_letter _ _) (.single step_doubled))))⟩
    have hstack : done.1 :: done.2 = [] ++ done.1 :: [] := rfl
    have hvalues : done.1.values = [] ++ .term (.tree twice) :: [] := rfl
    refine ⟨done, hreach, rfl, (hreach.simplified hstack hvalues).resolve_left ?_⟩
    rintro ⟨l, -, s₀, s₁, hs₀, hcall, -⟩
    exact not_libraryStep_doubled hs₀ hcall
  · let done := working "Eval" [.resume (.giveBack evaluated)] [.term (.tree sum)]
    have hstack : done.1 :: done.2 = [] ++ done.1 :: [] := rfl
    have hvalues : done.1.values = [] ++ .term (.tree sum) :: [] := rfl
    refine ⟨done, reachable_evaluated, rfl,
      (reachable_evaluated.simplified hstack hvalues).resolve_right ?_⟩
    -- the numbers 1 and 2 are in lowest terms, and their sum is not simplified
    rintro ⟨_, ⟨⟩, hiff, -⟩
    have hthree : sum.simplify = .ok (.rational (.ofNat 3)) := by
      with_unfolding_all rfl
    have hlowest : sum.InLowestTerms := by
      intro q hq
      simp only [sum, Expr.nodes, Expr.nodesAll, List.mem_cons, List.mem_append, List.not_mem_nil,
        reduceCtorEq, Expr.rational.injEq, or_false, false_or] at hq
      rcases hq with rfl | rfl <;> rfl
    exact absurd (Except.ok.inj (hthree.symm.trans (hiff.2 hlowest))) (by simp [sum])

/-- A program that tells by a letter whether two expressions are equal, after some instructions. -/
def comparing (first : List Ast) (left right : Ast) : List Ast :=
  [.function "Main" [] (.block (first ++
    [.ifThen (.compare false .eq left right) (.block [.giveBack (.sym false "a")]),
      .giveBack (.sym false "b")]))]

/-- What the library has evaluated equals 3 only through a variable. -/
theorem evaluated_inline_differs :
    ∃ inline stored, FunctionDef.load (comparing [] evaluated (.nat false "3")) = .ok inline ∧
      FunctionDef.load (comparing [.assign "A" evaluated] (.id false "A") (.nat false "3")) =
        .ok stored ∧
      outcome 30 inline "Main" [] = .ok (.tree (.symbol false 'b')) ∧
      outcome 30 stored "Main" [] = .ok (.tree (.symbol false 'a')) := by
  refine ⟨_, _, rfl, rfl, ?_, ?_⟩
  · decide +kernel
  · decide +kernel

end Machine

end SymScript
