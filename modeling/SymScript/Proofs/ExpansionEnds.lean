import SymScript.Proofs.ExpansionDepth

/-!
# Expansion ends

The number of steps is bounded by `rounds`, although expressions grow: a factor that comes to be a
sum is distributed over in the same step, and its addends have one step less to go.  So the steps of
a product are those of the slowest of its factors, and copies of one factor take no longer than the
factor itself. `factorRounds` counts the steps of an expression that is a factor, where all its sums
in sums are taken apart, one in a step; `rounds` counts those of an expression for itself.  An
expression without a step to go is left as it is, and that is where the loop stops at the latest.
-/

namespace SymScript.Expr

/-! ### Number of steps -/

/-- The exponent, with `n` steps to go itself, keeps its power a power: it is a root, or it is no
number and stays as it is. -/
def settledExponent : Expr → Nat → Bool
  | rational q, _ => q.num == 1 && !q.isOne
  | _, n => n == 0

mutual

/-- The steps that an expression has to go as a factor. -/
def factorRounds : Expr → Nat
  | rational _ | symbol .. => 0
  | sum _ es => factorRoundsAll es + 1
  | product _ es => factorRoundsAll es + if es.length = 2 then 0 else 1
  | power _ b x => if settledExponent x (rounds x) then rounds b else rounds x + factorRounds b + 3

/-- The steps that an expression has to go until it is left as it is. -/
def rounds : Expr → Nat
  | rational _ | symbol .. => 0
  | sum false es => roundsAll es
  | sum true es => factorRoundsAll es + 1
  | product _ es =>
    -- A product in pairs, of factors that are settled, is settled.
    let n := factorRoundsAll es + if es.length = 2 then 0 else 1
    if n = 0 then 0 else n + 1
  | power _ b x => if settledExponent x (rounds x) then rounds b else rounds x + factorRounds b + 4

def factorRoundsAll : List Expr → Nat
  | [] => 0
  | e :: es => max (factorRounds e) (factorRoundsAll es)

def roundsAll : List Expr → Nat
  | [] => 0
  | e :: es => max (rounds e) (roundsAll es)

end

section Rounds

variable {es : List Expr} {k : Nat}

/-- The most steps of a list bound those of its members. -/
theorem factorRoundsAll_le_iff : factorRoundsAll es ≤ k ↔ ∀ e ∈ es, factorRounds e ≤ k := by
  induction es with
  | nil => simp [factorRoundsAll]
  | cons e es ih => rw [factorRoundsAll, Nat.max_le, ih, List.forall_mem_cons]

/-- The most steps of a list bound those of its members. -/
theorem roundsAll_le_iff : roundsAll es ≤ k ↔ ∀ e ∈ es, rounds e ≤ k := by
  induction es with
  | nil => simp [roundsAll]
  | cons e es ih => rw [roundsAll, Nat.max_le, ih, List.forall_mem_cons]

end Rounds

theorem factorRounds_le_of_mem {es : List Expr} {e : Expr} (he : e ∈ es) :
    factorRounds e ≤ factorRoundsAll es :=
  factorRoundsAll_le_iff.1 le_rfl e he

/-- A product needs one step more than its factors, unless it is settled. -/
theorem rounds_product (s : Bool) (es : List Expr) : rounds (product s es) =
    if factorRounds (product s es) = 0 then 0 else factorRounds (product s es) + 1 := rfl

theorem settledExponent_copy (e : Expr) (n : Nat) :
    settledExponent (copy e) n = settledExponent e n := by
  cases e <;> rfl

/-- Both counts are the same for a copy, proved together since each needs the other. -/
theorem rounds_copy_aux (e : Expr) :
    factorRounds (copy e) = factorRounds e ∧ rounds (copy e) = rounds e := by
  have hfactor {es : List Expr}
      (h : ∀ e ∈ es, factorRounds (copy e) = factorRounds e ∧ rounds (copy e) = rounds e) :
      factorRoundsAll (sort (copyAll es)) = factorRoundsAll es := by
    refine eq_of_forall_ge_iff fun k => ?_
    rw [factorRoundsAll_le_iff, factorRoundsAll_le_iff, forall_mem_sort_copyAll]
    exact forall₂_congr fun e he => by rw [(h e he).1]
  induction e using children_induction with
  | rational | symbol => exact ⟨rfl, rfl⟩
  | sum s es ih =>
    have hall : roundsAll (sort (copyAll es)) = roundsAll es := by
      refine eq_of_forall_ge_iff fun k => ?_
      rw [roundsAll_le_iff, roundsAll_le_iff, forall_mem_sort_copyAll]
      exact forall₂_congr fun e he => by rw [(ih e he).2]
    refine ⟨congrArg (· + 1) (hfactor ih), ?_⟩
    cases s with
    | false => exact hall
    | true => exact congrArg (· + 1) (hfactor ih)
  | product s es ih =>
    have hproduct : factorRounds (copy (product s es)) = factorRounds (product s es) := by
      rw [copy, factorRounds, hfactor ih, length_sort, length_copyAll, factorRounds]
    exact ⟨hproduct, by rw [rounds_product s es, ← hproduct]; rfl⟩
  | power s b x hb hx =>
    rw [copy]
    simp only [factorRounds, rounds, settledExponent_copy, hb, hx, and_self]

@[simp] theorem factorRounds_copy (e : Expr) : factorRounds (copy e) = factorRounds e :=
  (rounds_copy_aux e).1

@[simp] theorem rounds_copy (e : Expr) : rounds (copy e) = rounds e := (rounds_copy_aux e).2

@[simp] theorem factorRounds_withSign (s : Bool) (e : Expr) :
    factorRounds (e.withSign s) = factorRounds e := by
  have hsign (e : Expr) : factorRounds (e.sign s) = factorRounds e := by cases e <;> rfl
  rw [withSign, hsign, factorRounds_copy]

theorem shape_withSign (s : Bool) (e : Expr) : (e.withSign s).shape = e.shape := by
  cases e <;> rfl

/-- An expression for itself has at most one step more to go than as a factor, and a sum has none
more. -/
theorem rounds_le_factorRounds (e : Expr) :
    rounds e ≤ factorRounds e + 1 ∧ (e.shape = .sum → rounds e ≤ factorRounds e) := by
  induction e using children_induction with
  | rational | symbol => exact ⟨Nat.zero_le _, fun _ => Nat.zero_le _⟩
  | sum s es ih =>
    have hsum : rounds (sum s es) ≤ factorRounds (sum s es) := by
      cases s with
      | true => exact le_rfl
      | false =>
        refine roundsAll_le_iff.2 fun e he => (ih e he).1.trans ?_
        exact Nat.succ_le_succ (factorRounds_le_of_mem he)
    exact ⟨hsum.trans (Nat.le_succ _), fun _ => hsum⟩
  | product s es =>
    refine ⟨?_, by rintro ⟨⟩⟩
    rw [rounds_product]
    split <;> omega
  | power s b x =>
    refine ⟨?_, by rintro ⟨⟩⟩
    rw [rounds, factorRounds]
    split <;> omega

/-- What is settled as a factor is settled, and no sum. -/
theorem rounds_eq_zero_of_factor {e : Expr} (h : factorRounds e = 0) :
    rounds e = 0 ∧ e.shape ≠ .sum := by
  cases e with
  | rational | symbol => exact ⟨rfl, by rintro ⟨⟩⟩
  | sum s es => exact absurd h (Nat.succ_ne_zero _)
  | product s es => exact ⟨by rw [rounds_product, if_pos h], by rintro ⟨⟩⟩
  | power s b x =>
    refine ⟨?_, by rintro ⟨⟩⟩
    rw [factorRounds] at h
    rw [rounds]
    split at h <;> simp_all

/-- What an expression has to go, if as a factor it has `n` steps to go, and less unless it is a
sum. -/
theorem rounds_le_of_factor {e : Expr} {n : Nat} (hn : factorRounds e ≤ n)
    (hne : e.shape ≠ .sum → factorRounds e ≤ n - 1) : rounds e ≤ n := by
  obtain ⟨hle, hsum⟩ := rounds_le_factorRounds e
  by_cases he : e.shape = .sum
  · exact (hsum he).trans hn
  · have hlt := hne he
    by_cases hzero : factorRounds e = 0
    · exact (rounds_eq_zero_of_factor hzero).1 ▸ Nat.zero_le n
    · omega

/-! ### What is settled stays -/

/-- A settled product has two factors, which are settled. -/
theorem factors_of_settled {s : Bool} {es : List Expr} (h : rounds (product s es) = 0) :
    es.length = 2 ∧ ∀ e ∈ es, factorRounds e = 0 := by
  have hfactor : factorRounds (product s es) = 0 := by
    rw [rounds_product] at h
    split at h
    · assumption
    · cases h
  rw [factorRounds, Nat.add_eq_zero_iff] at hfactor
  refine ⟨?_, fun e he => Nat.le_zero.1 (factorRoundsAll_le_iff.1 hfactor.1.le e he)⟩
  by_contra hlength
  rw [if_neg hlength] at hfactor
  cases hfactor.2

/-- A settled power has a settled base, and an exponent that does not open. -/
theorem exponent_of_settled {s : Bool} {b x : Expr} (h : rounds (power s b x) = 0) :
    settledExponent x (rounds x) = true ∧ rounds b = 0 := by
  rw [rounds] at h
  split at h
  · exact ⟨‹_›, h⟩
  · cases h

/-- Two factors that are no sums are multiplied as they are. -/
theorem expandProduct_of_settled {s : Bool} {es : List Expr} (hlength : es.length = 2)
    (hshape : ∀ e ∈ es, e.shape ≠ .sum) : expandProduct s es = mkProduct s es := by
  obtain ⟨c, d, rfl⟩ := List.length_eq_two.1 hlength
  have hdistribute : distributeAll [c, d] = mkProduct false [c, d] := by
    change distribute c d = _
    rw [distribute, addends_of_shape_ne (hshape c (by simp)),
      addends_of_shape_ne (hshape d (by simp))]
    rfl
  rw [expandProduct, hdistribute, withSign, copy_mkProduct]
  cases s <;> rfl

/-- A power whose exponent does not open stays a power. -/
theorem expandPower_of_settled {s : Bool} {b : Expr} {q : Fraction} {n : Nat}
    (h : settledExponent (rational q) n = true) :
    expandPower s b q = .ok (mkPower s b (rational q)) := by
  simp only [settledExponent, Bool.and_eq_true, beq_iff_eq, Bool.not_eq_true'] at h
  have hroot : { q with num := 1 } = q := by
    cases q
    cases h.1
    rfl
  rw [expandPower, hroot, unfold, if_pos h.1]
  simp [h.2, bind, Except.bind, pure, Except.pure]

/-! ### One step -/

/-- What a step does to the steps to go: there is one less, and as a factor one less unless the
outcome is a sum, over which is distributed at once. -/
structure Eases (e r : Expr) : Prop where
  factor_le : factorRounds r ≤ factorRounds e
  factor_lt : r.shape ≠ .sum → factorRounds r ≤ factorRounds e - 1
  rounds_lt : rounds r ≤ rounds e - 1
  shape_eq : rounds e = 0 → r.shape = e.shape

namespace Eases

variable {e r : Expr}

/-- The sign of a sum moves on to its addends, at the cost that a factor has. -/
theorem rounds_withSign_le (h : Eases e r) (s : Bool) : rounds (r.withSign s) ≤ factorRounds e := by
  refine rounds_le_of_factor ?_ fun hne => ?_
  · rw [factorRounds_withSign]
    exact h.factor_le
  · rw [shape_withSign] at hne
    rw [factorRounds_withSign]
    exact h.factor_lt hne

/-- Each addend of the result needs a step less. -/
theorem addends_le (h : Eases e r) : ∀ x ∈ r.addends, factorRounds x ≤ factorRounds e - 1 := by
  have hle := h.factor_le
  have hlt := h.factor_lt
  cases r with
  | sum s es =>
    intro x hx
    have hx : factorRounds x < factorRounds (sum s es) :=
      Nat.lt_succ_of_le (factorRounds_le_of_mem hx)
    omega
  | _ => exact fun x hx => List.mem_singleton.1 hx ▸ hlt (by rintro ⟨⟩)

/-- An outcome with less to go as a factor, of an expression that is not settled. -/
theorem of_factor_lt (hfactor : factorRounds r + 1 ≤ factorRounds e)
    (hrounds : factorRounds r + 2 ≤ rounds e) : Eases e r where
  factor_le := Nat.le_of_succ_le hfactor
  factor_lt _ := Nat.le_sub_one_of_lt hfactor
  rounds_lt := by
    have := (rounds_le_factorRounds r).1
    omega
  shape_eq h := by omega

end Eases

section Eases

variable {es cs ds : List Expr}

/-- A sum needs a step less if its addends do. -/
theorem eases_mkSum (h : List.Forall₂ Eases es cs) : Eases (sum false es) (mkSum false cs) where
  factor_le := by
    refine (factorRounds_copy (sum false cs)).trans_le
      (Nat.succ_le_succ (factorRoundsAll_le_iff.2 ?_))
    exact forall_mem_of_forall₂ h fun e he c hc => hc.factor_le.trans (factorRounds_le_of_mem he)
  factor_lt hne := absurd rfl hne
  rounds_lt := by
    refine (rounds_copy (sum false cs)).trans_le (roundsAll_le_iff.2 ?_)
    refine forall_mem_of_forall₂ h fun e he c hc => hc.rounds_lt.trans (Nat.sub_le_sub_right ?_ 1)
    exact roundsAll_le_iff.1 le_rfl e he
  shape_eq _ := rfl

/-- A negated sum, which passes its sign on, needs a step less. -/
theorem eases_passSigns (hcs : List.Forall₂ Eases es cs) (hds : List.Forall₂ Eases cs ds) :
    Eases (sum true es) (mkSum false (passSigns cs ds)) := by
  have hle : ∀ c ∈ cs, factorRounds c ≤ factorRoundsAll es :=
    forall_mem_of_forall₂ hcs fun e he c hc => hc.factor_le.trans (factorRounds_le_of_mem he)
  refine ⟨?_, fun hne => absurd rfl hne, ?_, fun h => absurd h (Nat.succ_ne_zero _)⟩
  · refine (factorRounds_copy (sum false _)).trans_le
      (Nat.succ_le_succ (factorRoundsAll_le_iff.2 ?_))
    refine forall_mem_passSigns hds fun c hc d hd => ?_
    rw [factorRounds_withSign]
    exact hd.factor_le.trans (hle c hc)
  · refine (rounds_copy (sum false _)).trans_le (roundsAll_le_iff.2 ?_)
    exact forall_mem_passSigns hds fun c hc d hd => (hd.rounds_withSign_le _).trans (hle c hc)

/-- A product of two needs what the harder factor needs. -/
theorem factorRounds_mkProduct_pair (x y : Expr) :
    factorRounds (mkProduct false [x, y]) = max (factorRounds x) (factorRounds y) :=
  (factorRounds_copy (product false [x, y])).trans (by simp [factorRounds, factorRoundsAll])

/-- The addends over which a product is distributed have less to go than its factors. -/
theorem addends_distributeAll_le (h : List.Forall₂ Eases es cs) :
    ∀ p ∈ (distributeAll cs).addends, factorRounds p ≤ factorRoundsAll es - 1 := by
  refine forall_mem_addends_distributeAll (Nat.zero_le _) (fun x y hx hy => ?_) ?_
  · rw [factorRounds_mkProduct_pair]
    exact Nat.max_le.2 ⟨hx, hy⟩
  · refine forall_mem_of_forall₂ h fun e he c hc x hx => (hc.addends_le x hx).trans ?_
    exact Nat.sub_le_sub_right (factorRounds_le_of_mem he) 1

/-- A settled product has two factors, none of which is a sum. -/
theorem shape_of_forall₂_eases (h : List.Forall₂ Eases es cs) (hzero : factorRoundsAll es = 0) :
    ∀ c ∈ cs, c.shape ≠ .sum := by
  refine forall_mem_of_forall₂ h fun e he c hc => (rounds_eq_zero_of_factor ?_).2
  have := hc.factor_le.trans (factorRounds_le_of_mem he)
  omega

/-- A product, multiplied out, needs a step less. -/
theorem eases_expandProduct (s : Bool) (h : List.Forall₂ Eases es cs) :
    Eases (product s es) (expandProduct s cs) := by
  have haddends := addends_distributeAll_le h
  have hall : factorRoundsAll es ≤ factorRounds (product s es) := Nat.le_add_right _ _
  have hlt : (distributeAll cs).shape ≠ .sum →
      factorRounds (distributeAll cs) ≤ factorRounds (product s es) - 1 := by
    intro hne
    rw [addends_of_shape_ne hne] at haddends
    exact (haddends _ (List.mem_singleton_self _)).trans (Nat.sub_le_sub_right hall 1)
  have hle : factorRounds (distributeAll cs) ≤ factorRounds (product s es) := by
    by_cases hsum : (distributeAll cs).shape = .sum
    · -- The product has a factor that is not settled, or there would be nothing to distribute over.
      have hpos : factorRoundsAll es ≠ 0 := fun hzero =>
        shape_distributeAll_ne (shape_of_forall₂_eases h hzero) hsum
      obtain ⟨t, hr⟩ := eq_sum_of_shape hsum
      have hps : factorRoundsAll (distributeAll cs).addends ≤ factorRoundsAll es - 1 :=
        factorRoundsAll_le_iff.2 haddends
      rw [hr, factorRounds]
      omega
    · exact (hlt hsum).trans (Nat.sub_le _ _)
  rw [expandProduct]
  generalize hs : ((distributeAll cs).negated != s) = s'
  refine ⟨?_, ?_, ?_, fun hzero => ?_⟩
  · rw [factorRounds_withSign]
    exact hle
  · rw [shape_withSign, factorRounds_withSign]
    exact hlt
  · by_cases hzero : factorRounds (product s es) = 0
    · have hzero : factorRounds ((distributeAll cs).withSign s') = 0 := by
        rw [factorRounds_withSign]
        omega
      rw [(rounds_eq_zero_of_factor hzero).1]
      exact Nat.zero_le _
    · rw [rounds_product, if_neg hzero, Nat.add_sub_cancel]
      refine rounds_le_of_factor ?_ ?_
      · rw [factorRounds_withSign]
        exact hle
      · rw [shape_withSign, factorRounds_withSign]
        exact hlt
  · obtain ⟨hlength, hfactors⟩ := factors_of_settled hzero
    have hshape := shape_of_forall₂_eases h
      (Nat.le_zero.1 (factorRoundsAll_le_iff.2 fun e he => (hfactors e he).le))
    have heq := expandProduct_of_settled (s := s) (h.length_eq ▸ hlength) hshape
    rw [expandProduct, hs] at heq
    rw [heq]
    rfl

end Eases

section Power

variable {s : Bool} {b c x y : Expr}

/-- A power whose exponent does not open needs the steps of its base. -/
theorem rounds_power_of_settled (s : Bool) (b : Expr) (hx : settledExponent x (rounds x) = true) :
    factorRounds (power s b x) = rounds b ∧ rounds (power s b x) = rounds b := by
  simp [factorRounds, rounds, hx]

/-- A power that will be opened needs the steps of both, and a few for opening. -/
theorem rounds_power_of_not_settled (s : Bool) (b : Expr)
    (hx : settledExponent x (rounds x) = false) :
    factorRounds (power s b x) = rounds x + factorRounds b + 3 ∧
      rounds (power s b x) = rounds x + factorRounds b + 4 := by
  simp [factorRounds, rounds, hx]

/-- A power whose exponent does not open needs a step less if its base does. -/
theorem eases_mkPower_of_settled (hc : Eases b c) (hx : settledExponent x (rounds x) = true)
    (hy : settledExponent y (rounds y) = true) : Eases (power s b x) (mkPower s c y) := by
  obtain ⟨hfactor, hrounds⟩ := rounds_power_of_settled s b hx
  obtain ⟨hfactor', hrounds'⟩ := rounds_power_of_settled s c hy
  have hlt := hc.rounds_lt
  have hcopy : factorRounds (mkPower s c y) = rounds c :=
    (factorRounds_copy (power s c y)).trans hfactor'
  refine ⟨?_, fun _ => ?_, ?_, fun _ => rfl⟩
  · omega
  · omega
  · rw [hrounds, show rounds (mkPower s c y) = _ from rounds_copy (power s c y), hrounds']
    exact hlt

/-- A power with a number as exponent, opened, needs a step less. -/
theorem eases_expandPower {q : Fraction} {r : Expr} (hc : Eases b c)
    (hr : expandPower s c q = .ok r) : Eases (power s b (rational q)) r := by
  cases hq : settledExponent (rational q) (rounds (rational q)) with
  | true =>
    rw [expandPower_of_settled hq] at hr
    cases hr
    exact eases_mkPower_of_settled hc hq hq
  | false =>
    obtain ⟨hfactor, hrounds⟩ := rounds_power_of_not_settled s b hq
    rw [show rounds (rational q) = 0 from rfl] at hfactor hrounds
    obtain ⟨d, hd, hres⟩ := expandPower_eq_ok hr
    have hd : factorRounds d ≤ factorRounds b + 1 := by
      rcases hd with ⟨-, rfl⟩ | ⟨-, rfl⟩
      · exact hc.factor_le.trans (Nat.le_succ _)
      · have hall : factorRoundsAll (List.replicate q.num c) ≤ factorRounds b :=
          factorRoundsAll_le_iff.2 (List.forall_mem_replicate.2 (.inr hc.factor_le))
        rw [show factorRounds (mkProduct false _) = _ from factorRounds_copy (product false _),
          factorRounds]
        split <;> omega
    rcases hres with ⟨-, -, rfl⟩ | ⟨hroot, rfl⟩
    · refine .of_factor_lt ?_ ?_ <;> rw [factorRounds_withSign] <;> omega
    · have hle := (rounds_le_factorRounds d).1
      have hpower : factorRounds (mkPower s d (rational { q with num := 1 })) = rounds d :=
        (factorRounds_copy (power s d _)).trans
          (rounds_power_of_settled s d (by simp [settledExponent, hroot])).1
      refine .of_factor_lt ?_ ?_ <;> omega

/-- An exponent that is no number does not open once it is settled. -/
theorem settledExponent_of_shape (h : x.shape ≠ .rational) (n : Nat) :
    settledExponent x n = (n == 0) := by
  cases x with
  | rational => exact absurd rfl h
  | _ => rfl

/-- A power with another exponent needs a step less if its parts do. -/
theorem eases_mkPower (hx : x.shape ≠ .rational) (hc : Eases b c) (hy : Eases x y) :
    Eases (power s b x) (mkPower s c y) := by
  have hlt := hy.rounds_lt
  cases hsettled : settledExponent x (rounds x) with
  | true =>
    have hzero : rounds x = 0 := by simpa [settledExponent_of_shape hx] using hsettled
    refine eases_mkPower_of_settled hc hsettled ?_
    rw [settledExponent_of_shape (hy.shape_eq hzero ▸ hx), beq_iff_eq]
    omega
  | false =>
    have hpos : rounds x ≠ 0 := by simpa [settledExponent_of_shape hx] using hsettled
    obtain ⟨hfactor, hrounds⟩ := rounds_power_of_not_settled s b hsettled
    have hle : factorRounds (mkPower s c y) ≤ rounds x + factorRounds b + 2 := by
      rw [show factorRounds (mkPower s c y) = _ from factorRounds_copy (power s c y)]
      have hb := (rounds_le_factorRounds b).1
      have hclt := hc.rounds_lt
      have hcle := hc.factor_le
      rw [factorRounds]
      split <;> omega
    refine .of_factor_lt ?_ ?_ <;> omega

end Power

/-- Every step brings an expression nearer to its end. -/
theorem eases_of_expandWithin {n : Nat} {e : Expr} {x : Expansion} (h : expandWithin n e = .ok x) :
    Eases e x.result := by
  refine expandWithin_result_induction ?rational ?symbol ?sum ?negatedSum ?product ?power
    ?freePower h
  case rational | symbol =>
    intros
    exact ⟨le_rfl, fun _ => le_rfl, le_rfl, fun _ => rfl⟩
  case sum => exact fun es cs hcs => eases_mkSum hcs
  case negatedSum => exact fun es cs ds hcs hds => eases_passSigns hcs hds
  case product => exact fun s es cs hcs => eases_expandProduct s hcs
  case power => exact fun s b q c r hc hr => eases_expandPower hc hr
  case freePower => exact fun s b x c d hx hc hd => eases_mkPower hx hc hd

/-! ### Settled expressions -/

/-- The members of a list that sorting and copying leave alone are their own copies. -/
theorem copy_of_mem_of_sorted {es : List Expr} (h : sort (copyAll es) = es) :
    ∀ e ∈ es, copy e = e := by
  intro e he
  rw [← h, mem_sort] at he
  exact copy_of_mem_copyAll es e he

/-- A step on an expression that has no step to go. -/
def Stays (e : Expr) (x : Expansion) : Prop := rounds e = 0 → copy e = e → x = ⟨e, e⟩

/-- Settled members are left as they are. -/
theorem map_result_of_stays {es : List Expr} {xs : List Expansion} (h : List.Forall₂ Stays es xs)
    (hzero : ∀ e ∈ es, rounds e = 0) (hcopy : ∀ e ∈ es, copy e = e) :
    xs.map Expansion.result = es := by
  induction h with
  | nil => rfl
  | @cons e x es xs hx _ ih =>
    obtain ⟨he, hes⟩ := List.forall_mem_cons.1 hzero
    obtain ⟨hce, hces⟩ := List.forall_mem_cons.1 hcopy
    rw [List.map_cons, ih hes hces, hx he hce]

/-- An expression with no step to go, whose children are in order, is left as it is. -/
theorem stays_of_expandWithin {n : Nat} {e : Expr} {x : Expansion} (h : expandWithin n e = .ok x) :
    Stays e x := by
  refine expandWithin_induction ?rational ?symbol ?sum ?negatedSum ?product ?power ?freePower h
  case rational | symbol =>
    intros
    exact fun _ _ => rfl
  case sum =>
    intro es xs hxs hzero hcopy
    have hes := map_result_of_stays hxs
      (fun e he => Nat.le_zero.1 (roundsAll_le_iff.1 (Nat.le_of_eq hzero) e he))
      (copy_of_mem_of_sorted (sum.inj hcopy).2)
    rw [hes, show mkSum false es = sum false es from hcopy]
  case negatedSum => exact fun es xs ys _ _ hzero => absurd hzero (Nat.succ_ne_zero _)
  case product =>
    intro s es xs hxs hzero hcopy
    obtain ⟨hlength, hfactors⟩ := factors_of_settled hzero
    have hes := map_result_of_stays hxs (fun e he => (rounds_eq_zero_of_factor (hfactors e he)).1)
      (copy_of_mem_of_sorted (product.inj hcopy).2)
    rw [hes, expandProduct_of_settled hlength fun e he =>
      (rounds_eq_zero_of_factor (hfactors e he)).2]
    rw [show mkProduct s es = product s es from hcopy]
  case power =>
    intro s b q x r hx hr hzero hcopy
    obtain ⟨hsettled, hb⟩ := exponent_of_settled hzero
    rw [hx hb (power.inj hcopy).2.1] at hr ⊢
    rw [expandPower_of_settled hsettled] at hr
    cases hr
    rw [show mkPower s b (rational q) = power s b (rational q) from hcopy]
  case freePower =>
    intro s b e x y he hx hy hzero hcopy
    obtain ⟨hsettled, hb⟩ := exponent_of_settled hzero
    rw [settledExponent_of_shape he, beq_iff_eq] at hsettled
    obtain ⟨-, hcb, hce⟩ := power.inj hcopy
    rw [hx hb hcb, hy hsettled hce, show mkPower s b e = power s b e from hcopy]

/-! ### The loop -/

/-- The loop ends within the number of steps that the expression needs. -/
theorem expandSteps_ends_of_copy {n : Nat} {e : Expr} (hcopy : copy e = e) (hn : rounds e < n) :
    expandSteps n e ≠ .error .endless := by
  induction n generalizing e with
  | zero => omega
  | succ n ih =>
    refine (Ends.bind (R := fun _ => True) (expand_ne_endless e) fun x hx => ?_).ends
    split
    · exact .ok trivial
    · rename_i hne
      have hlt := (eases_of_expandWithin hx).rounds_lt
      refine ⟨ih (copy_of_expandWithin hx) ?_, fun _ _ => trivial⟩
      by_cases hzero : rounds e = 0
      · -- An expression with no step to go is its own result, so the loop has stopped.
        rw [stays_of_expandWithin hx hzero hcopy] at hne
        exact absurd (beq_self_eq_true e) hne
      · omega

/-- An expression needs at most four steps for each of its nodes. -/
theorem factorRounds_add_three_le (e : Expr) : factorRounds e + 3 ≤ 4 * e.size := by
  have hall {es : List Expr} (h : ∀ e ∈ es, factorRounds e + 3 ≤ 4 * e.size) :
      factorRoundsAll es ≤ 4 * sizeAll es := by
    refine factorRoundsAll_le_iff.2 fun e he => ?_
    have := h e he
    have := size_le_sizeAll he
    omega
  induction e using children_induction with
  | rational | symbol => exact Nat.le_succ 3
  | sum s es ih =>
    have := hall ih
    rw [factorRounds, size]
    omega
  | product s es ih =>
    have := hall ih
    rw [factorRounds, size]
    split <;> omega
  | power s b x hb hx =>
    have hrb := (rounds_le_factorRounds b).1
    have hrx := (rounds_le_factorRounds x).1
    rw [factorRounds, size]
    split <;> omega

/-- The loop ends, also on an expression whose children are not in order: they are after one
step. -/
theorem expandAll_ne_endless (e : Expr) : e.expandAll ≠ .error .endless := by
  have hsize := factorRounds_add_three_le e
  have hrounds := (rounds_le_factorRounds e).1
  obtain ⟨n, hn⟩ : ∃ n, 4 * e.size = n + 1 := ⟨4 * e.size - 1, by omega⟩
  rw [expandAll, hn]
  refine (Ends.bind (R := fun _ => True) (expand_ne_endless e) fun x hx => ?_).ends
  split
  · exact .ok trivial
  · have hlt := (eases_of_expandWithin hx).rounds_lt
    exact ⟨expandSteps_ends_of_copy (copy_of_expandWithin hx) (by omega), fun _ _ => trivial⟩

/-- Expanding any expression ends, by returning an expression or by failing for a reason other than
the bounds.  The loop makes no more steps than four times the size of the expression, however large
the expression grows meanwhile, and a step on the expression calls itself no deeper than its reach.
More of either changes no outcome. -/
theorem expandAll_ends (e : Expr) :
    ((∃ r, e.expandAll = .ok r) ∨ ∃ a, a ≠ .endless ∧ e.expandAll = .error a) ∧
      (∀ n, 4 * e.size ≤ n → expandSteps n e = e.expandAll) ∧
      ∀ n, reach e ≤ n → expandWithin n e = e.expand := by
  have hends := expandAll_ne_endless e
  refine ⟨?_, fun n hn => expandSteps_mono hn e hends, fun n hn => expandWithin_eq_expand hn⟩
  cases hr : e.expandAll with
  | ok r => exact .inl ⟨r, rfl⟩
  | error a =>
    refine .inr ⟨a, ?_, rfl⟩
    rintro rfl
    exact hends hr

/-- A negated sum in a negated sum, and an exponent that comes to be a number only after a step. -/
theorem expandAll_ends_nested :
    let a := sum false [symbol false 'x', symbol true 'y']
    let late := power true a (power false (.ofNat 3) (.ofNat 1))
    let e := sum true [symbol false 'z', sum true [product true [a, late], late]]
    (4 * e.size ≤ 100 ∧ expandSteps 100 e = e.expandAll) ∧
      reach e ≤ 40 ∧ expandWithin 40 e = e.expand :=
  ⟨⟨by decide, (expandAll_ends _).2.1 100 (by decide)⟩,
    by decide, (expandAll_ends _).2.2 40 (by decide)⟩

end SymScript.Expr
