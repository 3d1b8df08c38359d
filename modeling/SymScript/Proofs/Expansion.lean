import SymScript.Expr.Expand
import SymScript.Proofs.Congruence

/-!
# How expressions are expanded

A product is multiplied out over the addends of its factors.  `addends_distribute_perm` tells the
addends of the outcome, and nothing else about a distributed product is looked at later.

What a step can do is told once, as an induction along its calls: `expandWithin_induction` for the
result and the changed receiver, and `expandWithin_result_induction` for the result alone.  A
negated sum expands its addends twice, so what holds of a step has to hold of the step on its
results as well.

The loop is told by `expandSteps_eq_ok`: what a step keeps holds of the expression on which the last
step was made, and that step has left its receiver as it is.
-/

namespace SymScript.Expr

/-! ### Lists of children -/

theorem forall_mem_of_forall₂ {R : Expr → Expr → Prop} {Q : Expr → Prop} {es cs : List Expr}
    (h : List.Forall₂ R es cs) (hQ : ∀ e ∈ es, ∀ c, R e c → Q c) : ∀ c ∈ cs, Q c := by
  intro c hc
  obtain ⟨e, he, hec⟩ := exists_of_forall₂ h.flip hc
  exact hQ e he c hec

theorem forall₂_of_mem {β : Type} {R S : Expr → β → Prop} {es : List Expr} {cs : List β}
    (h : List.Forall₂ R es cs) (hS : ∀ e ∈ es, ∀ c, R e c → S e c) : List.Forall₂ S es cs := by
  induction h with
  | nil => exact .nil
  | cons hec _ ih =>
    obtain ⟨he, hes⟩ := List.forall_mem_cons.1 hS
    exact .cons (he _ hec) (ih hes)

theorem forall_mem_pair {Q : Expr → Prop} {x y : Expr} : (∀ e ∈ [x, y], Q e) ↔ Q x ∧ Q y := by
  rw [List.forall_mem_cons, List.forall_mem_singleton]

/-- What holds of the copies holds of the sorted copies. -/
theorem forall_mem_sort_copyAll {Q : Expr → Prop} {es : List Expr} :
    (∀ e ∈ sort (copyAll es), Q e) ↔ ∀ e ∈ es, Q (copy e) := by
  simp [copyAll_eq_map]

/-! ### Products over addends -/

/-- What is no sum is its only addend. -/
theorem addends_of_shape_ne {e : Expr} (h : e.shape ≠ .sum) : e.addends = [e] := by
  cases e with
  | sum => exact absurd rfl h
  | _ => rfl

theorem eq_sum_of_shape {e : Expr} (h : e.shape = .sum) : ∃ s, e = sum s e.addends := by
  cases e with
  | sum s es => exact ⟨s, rfl⟩
  | _ => cases h

/-- The products of the addends of two expressions. -/
def crossProducts (a b : Expr) : List Expr :=
  a.addends.flatMap fun x => b.addends.map fun y => mkProduct false [x, y]

/-- A cross product has an addend of each side. -/
theorem mem_crossProducts {a b p : Expr} :
    p ∈ crossProducts a b ↔ ∃ x ∈ a.addends, ∃ y ∈ b.addends, mkProduct false [x, y] = p := by
  simp [crossProducts]

/-- Every addend meets every other. -/
theorem length_crossProducts (a b : Expr) :
    (crossProducts a b).length = a.addends.length * b.addends.length := by
  simp [crossProducts]

/-- A sum, or the only one, of copies that are no sums has just these as its addends. -/
theorem addends_sumOrOnly_perm {es : List Expr} (hcopy : ∀ e ∈ es, copy e = e)
    (hsum : ∀ e ∈ es, e.shape ≠ .sum) : (sumOrOnly es).addends.Perm es := by
  match es with
  | [e] =>
    rw [sumOrOnly, addends_of_shape_ne (hsum e (List.mem_singleton_self e))]
  | [] => exact sort_perm []
  | a :: b :: es =>
    change (sort (copyAll (a :: b :: es))).Perm _
    rw [copyAll_eq hcopy]
    exact sort_perm _

/-- Two or more addends are put into a sum. -/
theorem shape_sumOrOnly {es : List Expr} (hsum : ∀ e ∈ es, e.shape ≠ .sum) :
    (sumOrOnly es).shape = .sum ↔ es.length ≠ 1 := by
  match es with
  | [e] => simpa [sumOrOnly] using hsum e (List.mem_singleton_self e)
  | [] | _ :: _ :: _ => simp [sumOrOnly, mkSum, shape]

theorem shape_of_mem_crossProducts {a b p : Expr} (hp : p ∈ crossProducts a b) :
    p.shape ≠ .sum := by
  obtain ⟨x, -, y, -, rfl⟩ := mem_crossProducts.1 hp
  rintro ⟨⟩

/-- Distributing gives the cross products, in some order. -/
theorem addends_distribute_perm (a b : Expr) :
    (distribute a b).addends.Perm (crossProducts a b) := by
  refine addends_sumOrOnly_perm (fun p hp => ?_) fun p hp => shape_of_mem_crossProducts hp
  obtain ⟨x, -, y, -, rfl⟩ := mem_crossProducts.1 hp
  exact copy_mkProduct false [x, y]

/-- Distributing gives a sum unless there is just one product. -/
theorem shape_distribute (a b : Expr) :
    (distribute a b).shape = .sum ↔ a.addends.length * b.addends.length ≠ 1 := by
  rw [← length_crossProducts]
  exact shape_sumOrOnly fun p hp => shape_of_mem_crossProducts hp

/-- The numbers of addends are multiplied. -/
theorem length_addends_distribute (a b : Expr) :
    (distribute a b).addends.length = a.addends.length * b.addends.length := by
  rw [(addends_distribute_perm a b).length_eq, length_crossProducts]

/-- Distributing gives no sign. -/
theorem negated_distribute (a b : Expr) : (distribute a b).negated = false := by
  have hall : ∀ p ∈ crossProducts a b, p.negated = false := by
    intro p hp
    obtain ⟨x, -, y, -, rfl⟩ := mem_crossProducts.1 hp
    rfl
  change (sumOrOnly (crossProducts a b)).negated = false
  generalize crossProducts a b = ps at hall ⊢
  match ps with
  | [p] => exact hall p (List.mem_singleton_self p)
  | [] | _ :: _ :: _ => rfl

/-- What holds of the products of two addends holds of all addends of the result. -/
theorem forall_mem_addends_distribute {Q : Expr → Prop} {a b : Expr}
    (hQ : ∀ x ∈ a.addends, ∀ y ∈ b.addends, Q (mkProduct false [x, y])) :
    ∀ p ∈ (distribute a b).addends, Q p := by
  intro p hp
  obtain ⟨x, hx, y, hy, rfl⟩ := mem_crossProducts.1 ((addends_distribute_perm a b).mem_iff.1 hp)
  exact hQ x hx y hy

/-- What holds of the addends of all factors, and of a product of two if it holds of both, holds of
the addends of the distributed product. -/
theorem forall_mem_addends_distributeAll {Q : Expr → Prop} (hone : Q (.ofNat 1))
    (hQ : ∀ x y, Q x → Q y → Q (mkProduct false [x, y])) {cs : List Expr}
    (h : ∀ c ∈ cs, ∀ x ∈ c.addends, Q x) : ∀ p ∈ (distributeAll cs).addends, Q p := by
  cases cs with
  | nil => exact List.forall_mem_singleton.2 hone
  | cons a cs =>
    obtain ⟨ha, hcs⟩ := List.forall_mem_cons.1 h
    change ∀ p ∈ (cs.foldl distribute a).addends, Q p
    clear h
    induction cs generalizing a with
    | nil => exact ha
    | cons b cs ih =>
      obtain ⟨hb, hcs⟩ := List.forall_mem_cons.1 hcs
      refine ih _ (forall_mem_addends_distribute fun x hx y hy => ?_) hcs
      exact hQ x y (ha x hx) (hb y hy)

/-- Without a sum among the factors there is nothing to distribute over. -/
theorem shape_distributeAll_ne {cs : List Expr} (h : ∀ c ∈ cs, c.shape ≠ .sum) :
    (distributeAll cs).shape ≠ .sum := by
  cases cs with
  | nil => rintro ⟨⟩
  | cons a cs =>
    obtain ⟨ha, hcs⟩ := List.forall_mem_cons.1 h
    change (cs.foldl distribute a).shape ≠ .sum
    clear h
    induction cs generalizing a with
    | nil => exact ha
    | cons b cs ih =>
      obtain ⟨hb, hcs⟩ := List.forall_mem_cons.1 hcs
      refine ih _ ?_ hcs
      rw [Ne, shape_distribute, addends_of_shape_ne ha, addends_of_shape_ne hb]
      simp

/-! ### One step -/

/-- The addends of a negated sum, expanded once and once more, with the opposite of the sign that
they had in between. -/
def passSigns (cs ds : List Expr) : List Expr :=
  List.zipWith (fun c d => d.withSign (!c.negated)) cs ds

/-- A negated sum passes its sign on to the results. -/
theorem expandNegatedSum_eq (cs : List Expr) (ys : List Expansion) :
    expandNegatedSum cs ys = mkSum false (passSigns cs (ys.map Expansion.result)) := by
  rw [expandNegatedSum, passSigns, List.zipWith_map_right]

/-- What holds of the results with their new signs holds of all addends. -/
theorem forall_mem_passSigns {R : Expr → Expr → Prop} {Q : Expr → Prop} {cs ds : List Expr}
    (h : List.Forall₂ R cs ds) (hQ : ∀ c ∈ cs, ∀ d, R c d → Q (d.withSign (!c.negated))) :
    ∀ e ∈ passSigns cs ds, Q e := by
  induction h with
  | nil => exact List.forall_mem_nil Q
  | cons hcd _ ih =>
    obtain ⟨hc, hcs⟩ := List.forall_mem_cons.1 hQ
    exact List.forall_mem_cons.2 ⟨hc _ hcd, ih hcs⟩

/-- Passing signs on keeps the number of addends. -/
theorem length_passSigns {R : Expr → Expr → Prop} {cs ds : List Expr} (h : List.Forall₂ R cs ds) :
    (passSigns cs ds).length = cs.length := by
  rw [passSigns, List.length_zipWith, ← h.length_eq, Nat.min_self]

/-- Induction along the calls of a step, with its result and its receiver. -/
@[elab_as_elim]
theorem expandWithin_induction {P : Expr → Expansion → Prop}
    (rational : ∀ q, P (.rational q) ⟨.rational q, .rational q⟩)
    (symbol : ∀ s c, P (.symbol s c) ⟨.symbol s c, .symbol s c⟩)
    (sum : ∀ es xs, List.Forall₂ P es xs →
      P (.sum false es) ⟨mkSum false (xs.map Expansion.result),
        .sum false (xs.map Expansion.result)⟩)
    (negatedSum : ∀ es xs ys, List.Forall₂ P es xs → List.Forall₂ P (xs.map Expansion.result) ys →
      P (.sum true es) ⟨expandNegatedSum (xs.map Expansion.result) ys,
        .sum true (ys.map Expansion.receiver)⟩)
    (product : ∀ s es xs, List.Forall₂ P es xs → P (.product s es)
      ⟨expandProduct s (xs.map Expansion.result), .product s (xs.map Expansion.result)⟩)
    (power : ∀ s b q x r, P b x → expandPower s x.result q = .ok r →
      P (.power s b (.rational q)) ⟨r, .power s x.receiver (.rational q)⟩)
    (freePower : ∀ s b e x y, e.shape ≠ .rational → P b x → P e y →
      P (.power s b e) ⟨mkPower s x.result y.result, .power s x.receiver y.receiver⟩)
    {n : Nat} {e : Expr} {x : Expansion} (h : expandWithin n e = .ok x) : P e x := by
  induction n generalizing e x with
  | zero => cases h
  | succ n ih =>
    have hall {es : List Expr} {xs : List Expansion} (hxs : es.mapM (expandWithin n) = .ok xs) :
        List.Forall₂ P es xs :=
      (mapM_eq_ok_iff.1 hxs).imp fun _ _ => ih
    cases e with
    | rational q =>
      cases h
      exact rational q
    | symbol s c =>
      cases h
      exact symbol s c
    | sum s es =>
      obtain ⟨xs, hxs, h⟩ := bind_eq_ok h
      cases s with
      | false =>
        cases h
        exact sum es xs (hall hxs)
      | true =>
        obtain ⟨ys, hys, h⟩ := bind_eq_ok h
        cases h
        exact negatedSum es xs ys (hall hxs) (hall hys)
    | product s es =>
      obtain ⟨xs, hxs, h⟩ := bind_eq_ok h
      cases h
      exact product s es xs (hall hxs)
    | power s b e =>
      have hfree (he : e.shape ≠ .rational) (h : (expandWithin n b >>= fun x => expandWithin n e >>=
          fun y => pure ⟨mkPower s x.result y.result, .power s x.receiver y.receiver⟩) = .ok x) :
          P (.power s b e) x := by
        obtain ⟨x, hx, h⟩ := bind_eq_ok h
        obtain ⟨y, hy, h⟩ := bind_eq_ok h
        cases h
        exact freePower s b e x y he (ih hx) (ih hy)
      cases e with
      | rational q =>
        obtain ⟨x, hx, h⟩ := bind_eq_ok h
        obtain ⟨r, hr, h⟩ := bind_eq_ok h
        cases h
        exact power s b q x r (ih hx) hr
      | _ => exact hfree (by rintro ⟨⟩) h

/-- Induction along the calls of a step, for its result alone. -/
@[elab_as_elim]
theorem expandWithin_result_induction {P : Expr → Expr → Prop}
    (rational : ∀ q, P (.rational q) (.rational q)) (symbol : ∀ s c, P (.symbol s c) (.symbol s c))
    (sum : ∀ es cs, List.Forall₂ P es cs → P (.sum false es) (mkSum false cs))
    (negatedSum : ∀ es cs ds, List.Forall₂ P es cs → List.Forall₂ P cs ds →
      P (.sum true es) (mkSum false (passSigns cs ds)))
    (product : ∀ s es cs, List.Forall₂ P es cs → P (.product s es) (expandProduct s cs))
    (power : ∀ s b q c r, P b c → expandPower s c q = .ok r → P (.power s b (.rational q)) r)
    (freePower : ∀ s b e c d, e.shape ≠ .rational → P b c → P e d →
      P (.power s b e) (mkPower s c d))
    {n : Nat} {e : Expr} {x : Expansion} (h : expandWithin n e = .ok x) : P e x.result := by
  have hmap {es : List Expr} {xs : List Expansion}
      (hxs : List.Forall₂ (fun e x => P e x.result) es xs) :
      List.Forall₂ P es (xs.map Expansion.result) := List.forall₂_map_right_iff.2 hxs
  refine expandWithin_induction ?rational ?symbol ?sum ?negatedSum ?product ?power ?freePower h
  case rational => exact rational
  case symbol => exact symbol
  case sum => exact fun es xs hxs => sum es _ (hmap hxs)
  case negatedSum =>
    intro es xs ys hxs hys
    rw [expandNegatedSum_eq]
    exact negatedSum es _ _ (hmap hxs) (hmap hys)
  case product => exact fun s es xs hxs => product s es _ (hmap hxs)
  case power => exact fun s b q x r hx hr => power s b q x.result r hx hr
  case freePower => exact fun s b e x y he hx hy => freePower s b e x.result y.result he hx hy

/-- What becomes of a power with a number as exponent: the numerator is written out, and a
denominator or a sign stays as a root. -/
theorem expandPower_eq_ok {s : Bool} {b r : Expr} {q : Fraction} (h : expandPower s b q = .ok r) :
    ∃ c, (q.num = 1 ∧ c = b ∨ 2 ≤ q.num ∧ c = mkProduct false (List.replicate q.num b)) ∧
      (q.den = 1 ∧ q.negated = false ∧ r = c.withSign s ∨
        Fraction.isOne { q with num := 1 } = false ∧
          r = mkPower s c (.rational { q with num := 1 })) := by
  obtain ⟨c, hc, h⟩ := bind_eq_ok h
  refine ⟨c, ?_, ?_⟩
  · rw [unfold, product?] at hc
    split at hc
    · cases hc
      exact .inl ⟨‹_›, rfl⟩
    · split at hc
      · cases hc
      · rename_i hlong
        cases hc
        rw [List.length_replicate] at hlong
        exact .inr ⟨by omega, rfl⟩
  · dsimp only at h
    split at h
    · rename_i hone
      cases h
      simp only [Fraction.isOne, Bool.and_eq_true, beq_iff_eq, Bool.not_eq_true'] at hone
      exact .inl ⟨hone.1.symm, hone.2, rfl⟩
    · rename_i hone
      cases h
      exact .inr ⟨by simpa using hone, rfl⟩

theorem copy_sign (s : Bool) (e : Expr) : copy (e.sign s) = (copy e).sign s := by
  cases e <;> rfl

/-- A copy under a sign is its own copy. -/
theorem copy_withSign (s : Bool) (e : Expr) : copy (e.withSign s) = e.withSign s := by
  rw [withSign, copy_sign, copy_copy]

/-- The children of a result are in order. -/
theorem copy_of_expandWithin {n : Nat} {e : Expr} {x : Expansion} (h : expandWithin n e = .ok x) :
    copy x.result = x.result := by
  refine expandWithin_result_induction ?rational ?symbol ?sum ?negatedSum ?product ?power
    ?freePower h
  case rational | symbol => intros; rfl
  case sum => exact fun _ cs _ => copy_mkSum false cs
  case negatedSum => exact fun _ cs ds _ _ => copy_mkSum false (passSigns cs ds)
  case product => exact fun _ _ _ _ => copy_withSign _ _
  case power =>
    intro s b q c r _ hr
    obtain ⟨d, -, ⟨-, -, rfl⟩ | ⟨-, rfl⟩⟩ := expandPower_eq_ok hr
    · exact copy_withSign s d
    · exact copy_mkPower s d _
  case freePower => exact fun s _ _ c d _ _ _ => copy_mkPower s c d

/-! ### The loop -/

/-- What a step keeps holds of the expression on which the last step was made.  That step has the
result of the loop as its result and as its receiver. -/
theorem expandSteps_eq_ok {I : Expr → Prop} (hI : ∀ e x, I e → e.expand = .ok x → I x.result)
    {n : Nat} {e r : Expr} (h : expandSteps n e = .ok r) (he : I e) :
    ∃ t, I t ∧ t.expand = .ok ⟨r, r⟩ := by
  induction n generalizing e with
  | zero => cases h
  | succ n ih =>
    obtain ⟨x, hx, h⟩ := bind_eq_ok h
    split at h
    · rename_i heq
      cases h
      refine ⟨e, he, ?_⟩
      rw [hx]
      obtain ⟨result, receiver⟩ := x
      rw [show receiver = result by simpa using heq]
    · exact ih h (hI e x he hx)

/-- More steps than are made change no outcome. -/
theorem expandSteps_mono {n m : Nat} (h : n ≤ m) (e : Expr) :
    Refines (expandSteps n e) (expandSteps m e) := by
  induction n generalizing m e with
  | zero => exact fun hn => absurd rfl hn
  | succ n ih =>
    obtain ⟨m, rfl⟩ : ∃ k, m = k + 1 := ⟨m - 1, by omega⟩
    refine (Refines.refl e.expand).bind fun x => ?_
    split
    · exact .refl _
    · exact ih (by omega) x.result

end SymScript.Expr
