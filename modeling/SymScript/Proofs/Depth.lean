import Mathlib.Data.List.Forall2
import SymScript.Expr.Simplify

/-!
# Deeper calls change nothing

The bound on the depth of the calls only decides whether simplification runs out of it: an outcome
other than `AlgebraError.endless` stays the same under every larger bound.  Each rule takes the
simplifier that it uses, so it is enough to say for each rule what it makes of two simplifiers that
agree where the first one has an outcome.
-/

namespace SymScript

/-! ### Computations that may fail -/

section Except

variable {ε α β : Type}

theorem exists_of_forall₂ {R : α → β → Prop} {as : List α} {bs : List β} (h : List.Forall₂ R as bs)
    {a : α} (ha : a ∈ as) : ∃ b ∈ bs, R a b := by
  induction h with
  | nil => cases ha
  | cons hab _ ih =>
    rcases List.mem_cons.1 ha with rfl | ha
    · exact ⟨_, List.mem_cons_self, hab⟩
    · obtain ⟨b, hb, hR⟩ := ih ha
      exact ⟨b, List.mem_cons_of_mem _ hb, hR⟩

theorem forall_of_forall₂ {R : α → β → Prop} {P : β → Prop} {as : List α} {bs : List β}
    (h : List.Forall₂ R as bs) (hR : ∀ a b, R a b → P b) : ∀ b ∈ bs, P b := by
  intro b hb
  obtain ⟨a, -, hab⟩ := exists_of_forall₂ h.flip hb
  exact hR a b hab

/-- Two computations in a row succeed if each does. -/
theorem bind_eq_ok {x : Except ε α} {k : α → Except ε β} {r : β} (h : (x >>= k) = .ok r) :
    ∃ a, x = .ok a ∧ k a = .ok r := by
  cases x with
  | ok a => exact ⟨a, rfl, h⟩
  | error a => cases h

/-- A list of computations succeeds if each does. -/
theorem mapM_eq_ok_iff {f : α → Except ε β} {as : List α} {bs : List β} :
    as.mapM f = .ok bs ↔ List.Forall₂ (fun a b => f a = .ok b) as bs := by
  constructor
  · intro h
    induction as generalizing bs with
    | nil =>
      cases h
      exact .nil
    | cons a as ih =>
      rw [List.mapM_cons] at h
      obtain ⟨b, hb, h⟩ := bind_eq_ok h
      obtain ⟨bs', hbs, h⟩ := bind_eq_ok h
      cases h
      exact .cons hb (ih hbs)
  · intro h
    induction h with
    | nil => rfl
    | cons hab _ ih =>
      rw [List.mapM_cons, hab, ih]
      rfl

end Except

namespace Expr

/-! ### Outcomes under larger bounds -/

/-- The second outcome is the first one, unless that ran out of depth. -/
def Refines {α : Type} (x y : Except AlgebraError α) : Prop := x ≠ .error .endless → y = x

theorem Refines.refl {α : Type} (x : Except AlgebraError α) : Refines x x := fun _ => rfl

/-- Computations in a row refine others if each of them does. -/
theorem Refines.bind {α β : Type} {x y : Except AlgebraError α} {f g : α → Except AlgebraError β}
    (h : Refines x y) (hfg : ∀ a, Refines (f a) (g a)) : Refines (x >>= f) (y >>= g) := by
  intro hx
  cases x with
  | error e =>
    have he : (.error e : Except AlgebraError α) ≠ .error .endless := by
      rintro ⟨⟩
      exact hx rfl
    rw [h he]
    rfl
  | ok a =>
    rw [h nofun]
    exact hfg a hx

/-- Lists of computations refine others if each member does. -/
theorem Refines.mapM {α β : Type} {f g : α → Except AlgebraError β} (h : ∀ a, Refines (f a) (g a))
    (as : List α) : Refines (as.mapM f) (as.mapM g) := by
  induction as with
  | nil => exact .refl _
  | cons a as ih =>
    rw [List.mapM_cons, List.mapM_cons]
    exact (h a).bind fun _ => ih.bind fun _ => .refl _

section Rules

variable {f g : Expr → Except AlgebraError Expr} (h : ∀ e, Refines (f e) (g e))

include h

theorem Refines.ofTerm (t : Expr × Fraction) : Refines (ofTerm f t) (ofTerm g t) := by
  unfold Expr.ofTerm
  split
  · exact .refl _
  split
  · exact .refl _
  · exact h _

/-- With more depth a sum is finished as before. -/
theorem Refines.finishSum (s : Bool) (es : List Expr) :
    Refines (finishSum f s es) (finishSum g s es) := by
  unfold Expr.finishSum
  split
  · exact .refl _
  refine .bind (.bind (.mapM (.ofTerm h) _) fun _ => .refl _) fun r => ?_
  split
  · exact .refl _
  · exact h r

theorem Refines.joinExponents (xs : List Expr) :
    Refines (joinExponents f xs) (joinExponents g xs) := by
  unfold Expr.joinExponents
  split
  · exact .refl _
  · exact h _

/-- With more depth a product is finished as before. -/
theorem Refines.finishProduct (s : Bool) (es : List Expr) :
    Refines (finishProduct f s es) (finishProduct g s es) := by
  have hbase (b : Expr × List Expr) : Refines (ofBase f b) (ofBase g b) :=
    (joinExponents h _).bind fun _ => .refl _
  unfold Expr.finishProduct
  split
  · exact .refl _
  refine .bind (.bind (.mapM hbase _) fun _ => .refl _) fun r => ?_
  split
  · exact .refl _
  · exact h r

/-- With more depth a power is rewritten as before. -/
theorem Refines.rewritePower (s : Bool) (b x : Expr) :
    Refines (rewritePower f s b x) (rewritePower g s b x) := by
  unfold Expr.rewritePower
  split <;> first | exact .refl _ | exact h _

/-- With more depth a power is finished as before. -/
theorem Refines.finishPower (s : Bool) (b x : Expr) :
    Refines (finishPower f s b x) (finishPower g s b x) := by
  refine .bind (.refl _) fun q => ?_
  split
  · exact .refl _
  refine (rewritePower h s b x).bind fun r => ?_
  split
  · exact .refl _
  · exact h r

end Rules

/-- One call more changes no outcome. -/
theorem refines_simplifyWithin_succ (n : Nat) (e : Expr) :
    Refines (simplifyWithin n e) (simplifyWithin (n + 1) e) := by
  induction n generalizing e with
  | zero => exact fun h => absurd rfl h
  | succ n ih =>
    cases e with
    | rational | symbol => exact .refl _
    | sum s es => exact (Refines.mapM ih es).bind fun es => .finishSum ih s es
    | product s es => exact (Refines.mapM ih es).bind fun es => .finishProduct ih s es
    | power s b x => exact (ih b).bind fun b => (ih x).bind fun x => .finishPower ih s b x

/-- An outcome stays the same under every larger bound. -/
theorem simplifyWithin_mono {n m : Nat} (h : n ≤ m) (e : Expr) :
    Refines (simplifyWithin n e) (simplifyWithin m e) := by
  induction h with
  | refl => exact .refl _
  | @step m _ ih =>
    intro hn
    rw [refines_simplifyWithin_succ m e (by rwa [ih hn]), ih hn]

/-- Two bounds that suffice give the same outcome. -/
theorem simplifyWithin_eq_of_ne {n m : Nat} {e : Expr} (hn : simplifyWithin n e ≠ .error .endless)
    (hm : simplifyWithin m e ≠ .error .endless) : simplifyWithin n e = simplifyWithin m e := by
  rcases Nat.le_total n m with h | h
  · exact (simplifyWithin_mono h e hn).symm
  · exact simplifyWithin_mono h e hm

end Expr

end SymScript
