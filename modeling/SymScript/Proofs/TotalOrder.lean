import SymScript.Proofs.ExpansionValue
import SymScript.Proofs.SortKey

/-!
# What the order of children tells apart

`Expr.lt` is a strict partial order.  Two different expressions that it leaves incomparable first
differ at two compound nodes which are the same up to their signs: `Untold` says where such a pair
of nodes may stand.  Where no compound node has a sign there is no such pair, so the order is total,
and a sum or product does not depend on the order in which its children are given.
-/

namespace SymScript

/-! ### Comparing lists -/

section Lexicographic

variable {α : Type} {same before : α → α → Bool}

/-- Lists compare at the first place where their members are not the same; else the shorter one
comes first. -/
def lexBy (same before : α → α → Bool) : List α → List α → Bool
  | _, [] => false
  | [], _ :: _ => true
  | a :: as, b :: bs => if same a b then lexBy same before as bs else before a b

/-- `same` is an equivalence, and `before` is irreflexive and depends on the classes only. -/
structure Compares (same before : α → α → Bool) : Prop where
  refl (a : α) : same a a = true
  symm {a b : α} : same a b = true → same b a = true
  trans {a b c : α} : same a b = true → same b c = true → same a c = true
  congr {a b c d : α} : same a b = true → same c d = true → before a c = before b d
  irrefl (a : α) : before a a = false

namespace Compares

variable (h : Compares same before) {a b c d : α} {as bs cs ds : List α}

include h

/-- What comes before something is not the same as that. -/
theorem disjoint (hab : before a b = true) : same a b = false := by
  cases hs : same a b with
  | false => rfl
  | true =>
    rw [h.congr hs (h.refl b), h.irrefl] at hab
    cases hab

/-- Members may be replaced by the same. -/
theorem same_congr (hab : same a b = true) (hcd : same c d = true) : same a c = same b d := by
  rw [Bool.eq_iff_iff]
  exact ⟨fun hac => h.trans (h.symm hab) (h.trans hac hcd),
    fun hbd => h.trans hab (h.trans hbd (h.symm hcd))⟩

/-- Lists may be replaced by the same ones, member by member. -/
theorem lexBy_congr (hab : List.Forall₂ (same · · = true) as bs)
    (hcd : List.Forall₂ (same · · = true) cs ds) :
    lexBy same before as cs = lexBy same before bs ds := by
  induction hab generalizing cs ds with
  | nil => cases hcd <;> rfl
  | cons hab _ ih =>
    cases hcd with
    | nil => rfl
    | cons hcd hcds => rw [lexBy, lexBy, h.same_congr hab hcd, h.congr hab hcd, ih hcds]

/-- No list comes before itself. -/
theorem lexBy_irrefl (as : List α) : lexBy same before as as = false := by
  induction as with
  | nil => rfl
  | cons a as ih => rw [lexBy, if_pos (h.refl a), ih]

/-- Lists compare transitively if their members do. -/
theorem lexBy_trans
    (ht : ∀ a ∈ as, ∀ b ∈ bs, ∀ c ∈ cs, before a b = true → before b c = true → before a c = true)
    (hab : lexBy same before as bs = true) (hbc : lexBy same before bs cs = true) :
    lexBy same before as cs = true := by
  induction as generalizing bs cs with
  | nil =>
    cases cs with
    | nil => cases bs <;> cases hbc
    | cons => rfl
  | cons a as ih =>
    cases bs with
    | nil => cases hab
    | cons b bs =>
      cases cs with
      | nil => cases hbc
      | cons c cs =>
        rw [lexBy] at hab hbc ⊢
        -- The first difference of the outer lists is the earlier one of the two that are given.
        by_cases hsab : same a b = true
        · rw [if_pos hsab] at hab
          rw [h.same_congr hsab (h.refl c), h.congr hsab (h.refl c)]
          by_cases hsbc : same b c = true
          · rw [if_pos hsbc] at hbc ⊢
            exact ih (fun x hx y hy z hz => ht x (.tail a hx) y (.tail b hy) z (.tail c hz)) hab hbc
          · rw [if_neg hsbc] at hbc ⊢
            exact hbc
        · rw [if_neg hsab] at hab
          by_cases hsbc : same b c = true
          · rw [← h.same_congr (h.refl a) hsbc, if_neg hsab, ← h.congr (h.refl a) hsbc]
            exact hab
          · rw [if_neg hsbc] at hbc
            have hac := ht a List.mem_cons_self b List.mem_cons_self c List.mem_cons_self hab hbc
            rw [h.disjoint hac]
            exact hac

/-- Lists are the same, or comparable, or first differ at members that are not. -/
theorem lexBy_total_or {R : α → α → Prop}
    (ht : ∀ a ∈ as, ∀ b ∈ bs, before a b = true ∨ same a b = true ∨ before b a = true ∨ R a b) :
    lexBy same before as bs = true ∨ List.Forall₂ (same · · = true) as bs ∨
      lexBy same before bs as = true ∨ ∃ front front' a b as' bs',
        List.Forall₂ (same · · = true) front front' ∧ as = front ++ a :: as' ∧
          bs = front' ++ b :: bs' ∧ R a b := by
  induction as generalizing bs with
  | nil =>
    cases bs with
    | nil => exact .inr (.inl .nil)
    | cons => exact .inl rfl
  | cons a as ih =>
    cases bs with
    | nil => exact .inr (.inr (.inl rfl))
    | cons b bs =>
      rw [lexBy, lexBy]
      by_cases hab : same a b = true
      · rw [if_pos hab, if_pos (h.symm hab)]
        obtain hlt | heq | hlt | ⟨front, front', c, d, as', bs', hf, rfl, rfl, hR⟩ :=
          ih fun x hx y hy => ht x (.tail a hx) y (.tail b hy)
        · exact .inl hlt
        · exact .inr (.inl (.cons hab heq))
        · exact .inr (.inr (.inl hlt))
        · exact .inr (.inr
            (.inr ⟨a :: front, b :: front', c, d, as', bs', .cons hab hf, rfl, rfl, hR⟩))
      · rw [if_neg hab, if_neg fun hba => hab (h.symm hba)]
        obtain hlt | heq | hlt | hR := ht a List.mem_cons_self b List.mem_cons_self
        · exact .inl hlt
        · exact absurd heq hab
        · exact .inr (.inr (.inl hlt))
        · exact .inr (.inr (.inr ⟨[], [], a, b, as, bs, .nil, rfl, rfl, hR⟩))

end Compares

section Rank

variable (shape : α → Shape)
  (hrank : ∀ a b, shape a ≠ shape b → before a b = decide ((shape a).rank < (shape b).rank))

include hrank

/-- An order that goes by shapes first is transitive if it is so among those of one shape. -/
theorem trans_of_rank {a b c : α} (hsame : shape a = shape b → shape b = shape c →
      before a b = true → before b c = true → before a c = true)
    (hab : before a b = true) (hbc : before b c = true) : before a c = true := by
  by_cases hsab : shape a = shape b
  · by_cases hsbc : shape b = shape c
    · exact hsame hsab hsbc hab hbc
    · rw [hrank _ _ hsbc] at hbc
      rw [hrank _ _ (hsab ▸ hsbc), hsab]
      exact hbc
  · rw [hrank _ _ hsab, decide_eq_true_eq] at hab
    by_cases hsbc : shape b = shape c
    · rw [hrank _ _ (hsbc ▸ hsab), decide_eq_true_eq, ← hsbc]
      exact hab
    · rw [hrank _ _ hsbc, decide_eq_true_eq] at hbc
      have hac := Nat.lt_trans hab hbc
      rw [hrank _ _ fun hsac => absurd hac (by rw [hsac]; exact Nat.lt_irrefl _), decide_eq_true_eq]
      exact hac

/-- Different shapes are told apart. -/
theorem total_of_rank {a b : α} (hshape : shape a ≠ shape b) :
    before a b = true ∨ before b a = true := by
  rw [hrank _ _ hshape, hrank _ _ (Ne.symm hshape), decide_eq_true_eq, decide_eq_true_eq]
  exact Nat.lt_or_gt_of_ne fun h => hshape (Expr.rank_injective h)

end Rank

/-- On `p` a strict partial order that excludes equality; on `q` just one of the three holds. -/
structure StrictOrderOn (p q : α → Prop) (eq lt : α → α → Bool) : Prop where
  irrefl {a : α} : p a → lt a a = false
  trans {a b c : α} : p a → p b → p c → lt a b = true → lt b c = true → lt a c = true
  exclusive {a b : α} : p a → p b → lt a b = true → eq a b = false ∧ lt b a = false
  total {a b : α} : q a → q b → [lt a b, eq a b, lt b a].count true = 1

/-- A comparison with these laws is a strict order, and a total one where members are told apart. -/
theorem Compares.strictOrderOn (h : Compares same before) {p q : α → Prop}
    (htrans : ∀ {a b c}, p a → p b → p c → before a b = true → before b c = true →
      before a c = true)
    (hpq : ∀ {a}, q a → p a)
    (htotal : ∀ {a b}, q a → q b → before a b = true ∨ same a b = true ∨ before b a = true) :
    StrictOrderOn p q same before := by
  have hexclusive {a b : α} (ha : p a) (hb : p b) (hab : before a b = true) :
      same a b = false ∧ before b a = false := by
    refine ⟨h.disjoint hab, ?_⟩
    cases hba : before b a with
    | false => rfl
    | true =>
      have haa := htrans ha hb ha hab hba
      rw [h.irrefl] at haa
      cases haa
  refine ⟨fun _ => h.irrefl _, htrans, hexclusive, fun {a b} ha hb => ?_⟩
  obtain hab | hab | hba := htotal ha hb
  · rw [hab, (hexclusive (hpq ha) (hpq hb) hab).1, (hexclusive (hpq ha) (hpq hb) hab).2]
    rfl
  · rw [hab, h.congr (h.refl a) (h.symm hab), h.irrefl, h.congr (h.refl b) hab, h.irrefl]
    rfl
  · obtain ⟨hsba, hab⟩ := hexclusive (hpq hb) (hpq ha) hba
    have hsab : same a b = false :=
      Bool.eq_false_iff.2 fun hs => Bool.eq_false_iff.1 hsba (h.symm hs)
    rw [hba, hab, hsab]
    rfl

end Lexicographic

namespace Expr

/-! ### Nodes with children -/

/-- A sum, a product or a power. -/
def Compound (e : Expr) : Prop := e.shape ≠ .rational ∧ e.shape ≠ .symbol

instance : DecidablePred Compound := fun e =>
  inferInstanceAs (Decidable (e.shape ≠ .rational ∧ e.shape ≠ .symbol))

/-- The same node with the opposite sign. -/
def opposite (e : Expr) : Expr := e.sign (!e.negated)

theorem sum_compound (s : Bool) (es : List Expr) : Compound (sum s es) :=
  ⟨by rintro ⟨⟩, by rintro ⟨⟩⟩

theorem product_compound (s : Bool) (es : List Expr) : Compound (product s es) :=
  ⟨by rintro ⟨⟩, by rintro ⟨⟩⟩

theorem power_compound (s : Bool) (b x : Expr) : Compound (power s b x) :=
  ⟨by rintro ⟨⟩, by rintro ⟨⟩⟩

/-- Induction on expressions, with a hypothesis for every member of the list of children. -/
theorem induction_on_children {P : Expr → Prop} (h : ∀ e, (∀ c ∈ e.children, P c) → P e)
    (e : Expr) : P e := by
  induction e using children_induction with
  | rational q => exact h _ (List.forall_mem_nil P)
  | symbol s c => exact h _ (List.forall_mem_nil P)
  | sum s es ih => exact h _ ih
  | product s es ih => exact h _ ih
  | power s b x hb hx =>
    exact h _ (List.forall_mem_cons.2 ⟨hb, List.forall_mem_singleton.2 hx⟩)

theorem everywhere_of_mem_children {P : Expr → Prop} {e c : Expr} (h : Everywhere P e)
    (hc : c ∈ e.children) : Everywhere P c := by
  cases e with
  | rational => cases hc
  | symbol => cases hc
  | sum => exact (everywhere_sum_iff.1 h).2 c hc
  | product => exact (everywhere_product_iff.1 h).2 c hc
  | power s b x =>
    obtain ⟨-, hb, hx⟩ := everywhere_power_iff.1 h
    rcases List.mem_cons.1 hc with rfl | hc
    · exact hb
    · obtain rfl := List.mem_singleton.1 hc
      exact hx

/-- Compound nodes of one shape compare by their children. -/
theorem lt_of_compound {e f : Expr} (h : e.shape = f.shape) (hc : Compound e) :
    lt e f = ltAll e.children f.children := by
  cases e with
  | rational => exact absurd rfl hc.1
  | symbol => exact absurd rfl hc.2
  | sum =>
    cases f <;> cases h
    rfl
  | product =>
    cases f <;> cases h
    rfl
  | power s b x =>
    cases f <;> cases h
    rename_i t c y
    rw [lt, children, children, ltAll, ltAll]
    congr 1
    cases hxy : beq x y <;> simp [ltAll]

/-- Leaves of one shape compare by their names. -/
theorem lt_of_leaf {e f : Expr} (h : e.shape = f.shape) (hc : ¬ Compound e) :
    lt e f = decide (e.name < f.name) := by
  cases e with
  | rational =>
    cases f <;> cases h
    rfl
  | symbol =>
    cases f <;> cases h
    rfl
  | sum s es => exact absurd (sum_compound s es) hc
  | product s es => exact absurd (product_compound s es) hc
  | power s b x => exact absurd (power_compound s b x) hc

/-- A leaf can be read off its name. -/
theorem eq_of_leaf {e f : Expr} (h : e.shape = f.shape) (hc : ¬ Compound e)
    (hname : e.name = f.name) : e = f := by
  cases e with
  | rational q =>
    cases f <;> cases h
    exact congrArg rational (Fraction.name_injective hname)
  | symbol s c =>
    cases f <;> cases h
    rename_i t d
    obtain rfl : c = d := letter_eq_of_name_eq hname
    have hlength : (symbol s c).name.toList.length = (symbol t c).name.toList.length := by
      rw [hname]
    cases s <;> cases t <;> simp [name] at hlength ⊢
  | sum s es => exact absurd (sum_compound s es) hc
  | product s es => exact absurd (product_compound s es) hc
  | power s b x => exact absurd (power_compound s b x) hc

/-- Two compound nodes with the same shape and children are the same up to the sign. -/
theorem eq_or_eq_opposite {e f : Expr} (h : e.shape = f.shape) (hc : Compound e)
    (hch : e.children = f.children) : f = e ∨ f = e.opposite := by
  have hsign (s t : Bool) : t = s ∨ t = !s := by cases s <;> cases t <;> simp
  cases e with
  | rational => exact absurd rfl hc.1
  | symbol => exact absurd rfl hc.2
  | sum s es =>
    cases f <;> cases h
    cases hch
    exact (hsign s _).imp (congrArg (sum · es)) (congrArg (sum · es))
  | product s es =>
    cases f <;> cases h
    cases hch
    exact (hsign s _).imp (congrArg (product · es)) (congrArg (product · es))
  | power s b x =>
    cases f <;> cases h
    cases hch
    exact (hsign s _).imp (congrArg (power · b x)) (congrArg (power · b x))

theorem opposite_ne (e : Expr) : e.opposite ≠ e := by
  intro h
  have hneg := congrArg negated h
  rw [opposite, sign_negated] at hneg
  exact Bool.not_ne_self _ hneg

@[simp] theorem opposite_opposite (e : Expr) : e.opposite.opposite = e := by
  rw [opposite, opposite, sign_sign, sign_negated, Bool.not_not, sign_self]

theorem children_sign (s : Bool) (e : Expr) : (e.sign s).children = e.children := by
  cases e <;> rfl

/-! ### A strict partial order -/

protected theorem lt_irrefl (e : Expr) : lt e e = false := by
  cases h : lt e e with
  | false => rfl
  | true => exact h ▸ lt_asymm e e h

/-- Lists are compared by the first difference. -/
theorem ltAll_eq (as bs : List Expr) : ltAll as bs = lexBy beq lt as bs := by
  induction as generalizing bs with
  | nil => cases bs <;> rfl
  | cons a as ih =>
    cases bs with
    | nil => rfl
    | cons b bs => rw [ltAll, lexBy, ih]

/-- The order of expressions is a comparison. -/
theorem compares_lt : Compares beq lt where
  refl := beq_refl
  symm h := by rw [eq_of_beq h, beq_refl]
  trans hab hbc := by rwa [eq_of_beq hab]
  congr hab hcd := by rw [eq_of_beq hab, eq_of_beq hcd]
  irrefl := Expr.lt_irrefl

/-- The order is transitive. -/
protected theorem lt_trans {a b c : Expr} (hab : lt a b = true) (hbc : lt b c = true) :
    lt a c = true := by
  induction a using induction_on_children generalizing b c with
  | h a ih =>
    refine trans_of_rank shape (fun _ _ => lt_of_shape_ne) (fun hsab hsbc hab hbc => ?_) hab hbc
    by_cases hc : Compound a
    · rw [lt_of_compound hsab hc, ltAll_eq] at hab
      rw [lt_of_compound hsbc (by rwa [Compound, ← hsab]), ltAll_eq] at hbc
      rw [lt_of_compound (hsab.trans hsbc) hc, ltAll_eq]
      exact compares_lt.lexBy_trans (fun d hd b _ c _ => ih d hd) hab hbc
    · rw [lt_of_leaf hsab hc, decide_eq_true_eq] at hab
      rw [lt_of_leaf hsbc (by rwa [Compound, ← hsab]), decide_eq_true_eq] at hbc
      rw [lt_of_leaf (hsab.trans hsbc) hc, decide_eq_true_eq]
      exact String.lt_trans hab hbc

/-! ### What it leaves incomparable -/

/-- The first difference of the two expressions is the sign of a compound node. -/
inductive Untold : Expr → Expr → Prop
  | here {e : Expr} (hc : Compound e) : Untold e e.opposite
  | inside {e f a b : Expr} {front as bs : List Expr} (hshape : e.shape = f.shape)
    (he : e.children = front ++ a :: as) (hf : f.children = front ++ b :: bs) (hab : Untold a b) :
    Untold e f

theorem compound_of_mem_children {e c : Expr} (h : c ∈ e.children) : Compound e := by
  cases e with
  | rational => cases h
  | symbol => cases h
  | sum s es => exact sum_compound s es
  | product s es => exact product_compound s es
  | power s b x => exact power_compound s b x

/-- The first difference decides. -/
theorem ltAll_of_append {front as bs : List Expr} {a b : Expr} (h : a ≠ b) :
    ltAll (front ++ a :: as) (front ++ b :: bs) = lt a b := by
  induction front with
  | nil => rw [List.nil_append, List.nil_append, ltAll, if_neg (by simpa using h)]
  | cons c front ih => rw [List.cons_append, List.cons_append, ltAll, if_pos (beq_refl c), ih]

theorem ltAll_self (es : List Expr) : ltAll es es = false := by
  rw [ltAll_eq, compares_lt.lexBy_irrefl]

/-- Expressions are equal, or comparable, or first differ in the sign of a compound node. -/
theorem lt_total_or (e f : Expr) : lt e f = true ∨ e = f ∨ lt f e = true ∨ Untold e f := by
  induction e using induction_on_children generalizing f with
  | h e ih =>
    by_cases hshape : e.shape = f.shape
    · by_cases hc : Compound e
      · rw [lt_of_compound hshape hc, lt_of_compound hshape.symm (by rwa [Compound, ← hshape])]
        rw [ltAll_eq, ltAll_eq]
        have hsame {as bs : List Expr} (h : List.Forall₂ (beq · · = true) as bs) : as = bs :=
          List.forall₂_eq_eq_eq ▸ h.imp fun _ _ => eq_of_beq
        obtain hlt | heq | hlt | ⟨front, front', a, b, as, bs, hfront, he, hf, hab⟩ :=
          compares_lt.lexBy_total_or (R := Untold) fun c hc d _ =>
            (ih c hc d).imp_right (.imp_left beq_eq_true_iff.2)
        · exact .inl hlt
        · rcases eq_or_eq_opposite hshape hc (hsame heq) with rfl | rfl
          · exact .inr (.inl rfl)
          · exact .inr (.inr (.inr (.here hc)))
        · exact .inr (.inr (.inl hlt))
        · exact .inr (.inr (.inr (.inside hshape he (hsame hfront ▸ hf) hab)))
      · rw [lt_of_leaf hshape hc, lt_of_leaf hshape.symm (by rwa [Compound, ← hshape]),
          decide_eq_true_eq, decide_eq_true_eq]
        obtain hlt | heq | hlt := lt_trichotomy e.name f.name
        · exact .inl hlt
        · exact .inr (.inl (eq_of_leaf hshape hc heq))
        · exact .inr (.inr (.inl hlt))
    · rcases total_of_rank shape (fun _ _ => lt_of_shape_ne) hshape with hlt | hlt
      · exact .inl hlt
      · exact .inr (.inr (.inl hlt))

/-- What is not told apart is different and in no order. -/
theorem Untold.incomparable {e f : Expr} (h : Untold e f) :
    e ≠ f ∧ lt e f = false ∧ lt f e = false := by
  induction h with
  | @here e hc =>
    have hshape : e.shape = e.opposite.shape := (sign_shape _ e).symm
    refine ⟨(opposite_ne e).symm, ?_, ?_⟩
    · rw [lt_of_compound hshape hc, opposite, children_sign, ltAll_self]
    · rw [lt_of_compound hshape.symm (by rwa [Compound, ← hshape]), opposite, children_sign,
        ltAll_self]
  | @inside e f a b front as bs hshape he hf hab ih =>
    obtain ⟨hne, hlt, hgt⟩ := ih
    have hc : Compound e := compound_of_mem_children (c := a) (by simp [he])
    refine ⟨?_, ?_, ?_⟩
    · rintro rfl
      rw [he, List.append_cancel_left_eq] at hf
      exact hne (List.cons.inj hf).1
    · rw [lt_of_compound hshape hc, he, hf, ltAll_of_append hne, hlt]
    · rw [lt_of_compound hshape.symm (by rwa [Compound, ← hshape]), he, hf,
        ltAll_of_append (Ne.symm hne), hgt]

/-- The order leaves two different expressions incomparable where they are `Untold`, and only
there. -/
theorem untold_iff {e f : Expr} : Untold e f ↔ e ≠ f ∧ lt e f = false ∧ lt f e = false := by
  refine ⟨Untold.incomparable, ?_⟩
  rintro ⟨hne, hlt, hgt⟩
  obtain h | h | h | h := lt_total_or e f
  · rw [hlt] at h
    cases h
  · exact absurd h hne
  · rw [hgt] at h
    cases h
  · exact h

instance : DecidableRel Untold := fun _ _ => decidable_of_iff _ untold_iff.symm

theorem Untold.symm {e f : Expr} (h : Untold e f) : Untold f e := by
  obtain ⟨hne, hlt, hgt⟩ := h.incomparable
  exact untold_iff.2 ⟨hne.symm, hgt, hlt⟩

/-- Where no compound node has a sign, the order leaves nothing out. -/
theorem not_untold_of_unsigned {e f : Expr} (he : Everywhere UnsignedNode e)
    (hf : Everywhere UnsignedNode f) : ¬ Untold e f := by
  intro h
  have hsign {d : Expr} (hc : Compound d) (hd : UnsignedNode d) : d.negated = false := by
    cases d with
    | rational => exact absurd rfl hc.1
    | symbol => exact absurd rfl hc.2
    | sum | product | power => exact hd
  induction h with
  | @here e hc =>
    have hneg := hsign (d := e.opposite) (by rwa [Compound, opposite, sign_shape]) hf.self
    rw [opposite, sign_negated, hsign hc he.self] at hneg
    cases hneg
  | @inside e f a b front as bs hshape hce hcf hab ih =>
    exact ih (everywhere_of_mem_children he (by simp [hce]))
      (everywhere_of_mem_children hf (by simp [hcf]))

/-! ### Sorting -/

/-- In a list whose members the order tells apart, what comes later is not smaller. -/
theorem Ordered.pairwise {es : List Expr} (h : ∀ a ∈ es, ∀ b ∈ es, ¬ Untold a b) (ho : Ordered es) :
    es.Pairwise fun a b => a = b ∨ lt a b = true := by
  have htrans : IsTrans Expr fun a b => a = b ∨ lt a b = true := by
    refine ⟨fun a b c hab hbc => ?_⟩
    rcases hab with rfl | hab
    · exact hbc
    · rcases hbc with rfl | hbc
      · exact .inr hab
      · exact .inr (Expr.lt_trans hab hbc)
  refine List.isChain_iff_pairwise.1 (ho.imp_of_mem_imp fun a b ha hb hab => ?_)
  obtain hlt | heq | hlt | hu := lt_total_or a b
  · exact .inr hlt
  · exact .inl heq
  · rw [hab] at hlt
    cases hlt
  · exact absurd hu (h a ha b hb)

/-- Any two sorts agree on the members of a list, however arranged, if the order tells them
apart. -/
theorem IsSort.eq_of_perm {f g : List Expr → List Expr} (hf : IsSort f) (hg : IsSort g)
    {es fs : List Expr} (h : ∀ a ∈ es, ∀ b ∈ es, ¬ Untold a b) (hp : es.Perm fs) :
    f es = g fs := by
  have hpairwise {gs : List Expr} (ho : Ordered gs) (hgs : gs.Perm es) :
      gs.Pairwise fun a b => a = b ∨ lt a b = true :=
    ho.pairwise fun a ha b hb => h a (hgs.mem_iff.1 ha) b (hgs.mem_iff.1 hb)
  have hfs := (hg.perm fs).trans hp.symm
  refine List.Perm.eq_of_pairwise ?_ (hpairwise (hf.ordered es) (hf.perm es))
    (hpairwise (hg.ordered fs) hfs) ((hf.perm es).trans hfs.symm)
  rintro a b - - (hab | hab) (hba | hba)
  · exact hab
  · exact hab
  · exact hba.symm
  · rw [lt_asymm a b hab] at hba
    cases hba

/-- The children of a sum or product, up to the order in which they are given. -/
theorem sort_copyAll_eq_of_perm {es fs : List Expr}
    (h : ∀ a ∈ es, ∀ b ∈ es, ¬ Untold a.copy b.copy) (hp : es.Perm fs) :
    sort (copyAll es) = sort (copyAll fs) := by
  rw [copyAll_eq_map, copyAll_eq_map]
  refine isSort_sort.eq_of_perm isSort_sort ?_ (hp.map copy)
  intro a ha b hb
  obtain ⟨a, hae, rfl⟩ := List.mem_map.1 ha
  obtain ⟨b, hbe, rfl⟩ := List.mem_map.1 hb
  exact h a hae b hbe

/-! ### The whole order -/

/-- The order of expressions is strict, and total where only numbers and letters are negated. -/
theorem strictOrderOn_lt :
    StrictOrderOn (fun _ : Expr => True) (Everywhere UnsignedNode) (· == ·) lt := by
  refine Compares.strictOrderOn compares_lt (fun _ _ _ => Expr.lt_trans) (fun _ => trivial)
    fun {a b} ha hb => ?_
  obtain hlt | rfl | hlt | hu := lt_total_or a b
  · exact .inl hlt
  · exact .inr (.inl (beq_refl a))
  · exact .inr (.inr hlt)
  · exact absurd hu (not_untold_of_unsigned ha hb)

/-- Sums and products whose compound nodes have no signs do not depend on the arrangement of the
children. -/
theorem sort_copyAll_eq_of_unsigned {es fs : List Expr} (h : ∀ e ∈ es, Everywhere UnsignedNode e)
    (hp : es.Perm fs) : sort (copyAll es) = sort (copyAll fs) := by
  have hcopy {e : Expr} (he : e ∈ es) : Everywhere UnsignedNode e.copy :=
    (everywhere_copy_iff unsignedNode_copy e).2 (h e he)
  exact sort_copyAll_eq_of_perm (fun a ha b hb => not_untold_of_unsigned (hcopy ha) (hcopy hb)) hp

end Expr

end SymScript
