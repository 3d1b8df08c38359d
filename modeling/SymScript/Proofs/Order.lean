import Mathlib.Data.List.Chain
import Mathlib.Data.String.Basic
import SymScript.Expr

/-!
# The order of children

`Expr.lt` is asymmetric.  That is all the sort needs: its outcome is a permutation of its input in
which no member is smaller than the one before it, and a list with that property is left as it is.

These are the laws of `IsSort`.  Where the order does not tell members apart they leave several
outcomes open, and `sort` is irreducible: what is proved about expressions in general rests on the
laws alone, and so it would hold with any other sort that has them.  Only runs on given expressions
open `sort`.
-/

namespace SymScript.Expr

@[simp] theorem beq_eq_true_iff {a b : Expr} : beq a b = true ↔ a = b :=
  ⟨eq_of_beq, fun h => h ▸ beq_refl a⟩

@[simp] theorem beq_eq_false_iff {a b : Expr} : beq a b = false ↔ a ≠ b := by
  rw [ne_eq, ← beq_eq_true_iff, Bool.not_eq_true]

/-- Nodes of different shapes compare by rank. -/
theorem lt_of_shape_ne {a b : Expr} (h : a.shape ≠ b.shape) :
    lt a b = decide (a.shape.rank < b.shape.rank) := by
  cases a <;> cases b <;> first | exact absurd rfl h | rfl

/-- Of two nodes at most one is smaller than the other. -/
theorem lt_asymm (a b : Expr) : lt a b = true → lt b a = false := by
  refine lt.induct (fun a b => lt a b = true → lt b a = false)
    (fun as bs => ltAll as bs = true → ltAll bs as = false)
    ?_ ?_ ?_ ?_ ?_ ?_ ?_ ?_ ?_ ?_ ?_ a b
  · intro q r h
    simp only [lt, decide_eq_true_eq, decide_eq_false_iff_not] at h ⊢
    exact String.lt_asymm h
  · intro s c t d h
    simp only [lt, decide_eq_true_eq, decide_eq_false_iff_not] at h ⊢
    exact String.lt_asymm h
  · intro s as t bs ih h
    simp only [lt] at h ⊢
    exact ih h
  · intro s as t bs ih h
    simp only [lt] at h ⊢
    exact ih h
  · intro s a b t c d hac ih h
    obtain rfl := beq_eq_true_iff.1 hac
    simp only [lt, beq_refl, if_true, Bool.and_eq_true] at h ⊢
    rw [ih h.2, Bool.and_false]
  · intro s a b t c d hac ih h
    have hca : ¬beq c a = true := fun hca => hac (beq_eq_true_iff.2 (beq_eq_true_iff.1 hca).symm)
    simp only [lt, if_neg hac, if_neg hca] at h ⊢
    exact ih h
  · intro a b h₁ h₂ h₃ h₄ h₅ h
    -- The shapes differ: where they agree one of the earlier cases applies.
    have hne : a.shape ≠ b.shape := by
      intro he
      cases a <;> cases b <;> cases he
      · exact h₁ _ _ rfl rfl
      · exact h₂ _ _ _ _ rfl rfl
      · exact h₃ _ _ _ _ rfl rfl
      · exact h₄ _ _ _ _ rfl rfl
      · exact h₅ _ _ _ _ _ _ rfl rfl
    rw [lt_of_shape_ne hne, decide_eq_true_eq] at h
    rw [lt_of_shape_ne hne.symm, decide_eq_false_iff_not]
    exact Nat.lt_asymm h
  · intro as h
    cases as <;> simp [ltAll] at h
  · intro b bs _
    rfl
  · intro a as b bs hab ih h
    obtain rfl := beq_eq_true_iff.1 hab
    simp only [ltAll, beq_refl, if_true] at h ⊢
    exact ih h
  · intro a as b bs hab ih h
    have hba : ¬beq b a = true := fun hba => hab (beq_eq_true_iff.2 (beq_eq_true_iff.1 hba).symm)
    simp only [ltAll, if_neg hab, if_neg hba] at h ⊢
    exact ih h

/-! ### Sorting -/

/-- No member is smaller than the one before it. -/
def Ordered (es : List Expr) : Prop := es.IsChain fun a b => lt b a = false

theorem Ordered.tail {e : Expr} {es : List Expr} (h : Ordered (e :: es)) : Ordered es :=
  List.IsChain.of_cons h

/-- What results about expressions use of the sort of their children: its outcome is a permutation
in which no member is smaller than the one before it, and a list with that property is left as it
is. -/
structure IsSort (f : List Expr → List Expr) : Prop where
  perm (es : List Expr) : (f es).Perm es
  ordered (es : List Expr) : Ordered (f es)
  eq_self {es : List Expr} : Ordered es → f es = es

/-- Halving ends at a place between a member that `e` is not smaller than and one that it is smaller
than. The list need not be in order for this. -/
theorem exists_insertWithin_eq (e : Expr) (n : Nat) (es : List Expr) (hn : es.length ≤ n) :
    ∃ front back, es = front ++ back ∧ insertWithin n e es = front ++ e :: back ∧
      (∀ x ∈ front.getLast?, lt e x = false) ∧ ∀ x ∈ back.head?, lt e x = true := by
  induction n generalizing es with
  | zero =>
    obtain rfl : es = [] := List.length_eq_zero_iff.1 (Nat.le_zero.1 hn)
    exact ⟨[], [], rfl, rfl, by simp, by simp⟩
  | succ n ih =>
    have hsplit := List.take_append_drop (es.length / 2) es
    rw [insertWithin]
    split
    next hback =>
      rw [List.drop_eq_nil_iff] at hback
      obtain rfl : es = [] := List.length_eq_zero_iff.1 (by omega)
      exact ⟨[], [], rfl, rfl, by simp, by simp⟩
    next m rest hback =>
      have hrest : (es.drop (es.length / 2)).length = rest.length + 1 := by
        rw [hback, List.length_cons]
      rw [List.length_drop] at hrest
      rw [hback] at hsplit
      dsimp only
      split
      next hlt =>
        obtain ⟨f, b, hes, heq, hf, hb⟩ :=
          ih (es.take (es.length / 2)) (by rw [List.length_take]; omega)
        refine ⟨f, b ++ m :: rest, by rw [← List.append_assoc, ← hes, hsplit],
          by simp [heq], hf, ?_⟩
        cases b with
        | nil => simpa using hlt
        | cons x xs => exact hb
      next hlt =>
        obtain ⟨f, b, hes, heq, hf, hb⟩ := ih rest (by omega)
        refine ⟨es.take (es.length / 2) ++ m :: f, b, ?_, by simp [heq], ?_, hb⟩
        · rw [List.append_assoc, List.cons_append, ← hes, hsplit]
        · cases f with
          | nil => simpa using hlt
          | cons x xs => simpa [List.getLast?_append, List.getLast?_cons_cons] using hf

/-- Inserting adds just the one member. -/
theorem insert_perm (es : List Expr) (e : Expr) : (insert es e).Perm (e :: es) := by
  obtain ⟨front, back, hes, heq, -⟩ := exists_insertWithin_eq e es.length es le_rfl
  rw [insert, heq, hes]
  exact List.perm_middle

/-- Inserting keeps a list in order. -/
theorem ordered_insert {es : List Expr} (h : Ordered es) (e : Expr) : Ordered (insert es e) := by
  obtain ⟨front, back, hes, heq, hfront, hback⟩ := exists_insertWithin_eq e es.length es le_rfl
  rw [insert, heq]
  rw [hes] at h
  obtain ⟨hf, hb, -⟩ := List.isChain_append.1 h
  refine List.isChain_append.2 ⟨hf, List.isChain_cons.2 ⟨fun y hy => lt_asymm e y (hback y hy), hb⟩,
    ?_⟩
  intro x hx y hy
  obtain rfl : e = y := by simpa using hy
  exact hfront x hx

/-- Inserting one by one keeps all members. -/
theorem foldl_insert_perm (es acc : List Expr) : (es.foldl insert acc).Perm (acc ++ es) := by
  induction es generalizing acc with
  | nil => rw [List.append_nil]; exact .refl _
  | cons e es ih =>
    exact (ih _).trans (((insert_perm acc e).append_right es).trans List.perm_middle.symm)

/-- Inserting one by one keeps a list in order. -/
theorem ordered_foldl_insert (es : List Expr) {acc : List Expr} (h : Ordered acc) :
    Ordered (es.foldl insert acc) := by
  induction es generalizing acc with
  | nil => exact h
  | cons e es ih => exact ih (ordered_insert h e)

/-- The members of a run are related as its direction says. -/
theorem isChain_take_runLength (down : Bool) (a : Expr) (es : List Expr) :
    (a :: es.take (runLength down a es)).IsChain fun x y => lt y x = down := by
  induction es generalizing a with
  | nil => exact .singleton a
  | cons b es ih =>
    rw [runLength]
    split
    next h => exact List.isChain_cons_cons.2 ⟨h, ih b⟩
    next => exact .singleton a

/-- A list in order is one run. -/
theorem Ordered.runLength_eq {a : Expr} {es : List Expr} (h : Ordered (a :: es)) :
    runLength false a es = es.length := by
  induction es generalizing a with
  | nil => rfl
  | cons b es ih =>
    obtain ⟨hab, hes⟩ := List.isChain_cons_cons.1 h
    rw [runLength, if_pos hab, ih hes, List.length_cons]

/-- A run is in order once a run that goes down is turned around. -/
theorem ordered_run (down : Bool) {run : List Expr} (h : run.IsChain fun x y => lt y x = down) :
    Ordered (if down then run.reverse else run) := by
  cases down with
  | false => exact h
  | true => exact List.isChain_reverse.2 (h.imp fun x y => lt_asymm y x)

/-- The sort obeys the laws. -/
theorem isSort_sort : IsSort sort where
  perm es := by
    cases es with
    | nil => rw [sort]
    | cons a es =>
      rw [sort]
      refine (foldl_insert_perm _ _).trans ?_
      have hrun (down : Bool) (run : List Expr) : (if down then run.reverse else run).Perm run := by
        cases down with
        | false => exact .refl _
        | true => exact run.reverse_perm
      refine ((hrun _ _).append_right _).trans ?_
      rw [List.cons_append, List.take_append_drop]
  ordered es := by
    cases es with
    | nil =>
      rw [sort]
      exact .nil
    | cons a es =>
      rw [sort]
      exact ordered_foldl_insert _ (ordered_run _ (isChain_take_runLength _ a es))
  eq_self {es} h := by
    cases es with
    | nil => rw [sort]
    | cons a es =>
      have hdown : es.head?.any (lt · a) = false := by
        cases es with
        | nil => rfl
        | cons b es => exact (List.isChain_cons_cons.1 h).1
      rw [sort, hdown]
      simp [h.runLength_eq]

theorem sort_perm (es : List Expr) : (sort es).Perm es := isSort_sort.perm es

@[simp] theorem mem_sort {e : Expr} {es : List Expr} : e ∈ sort es ↔ e ∈ es :=
  (sort_perm es).mem_iff

@[simp] theorem length_sort (es : List Expr) : (sort es).length = es.length :=
  (sort_perm es).length_eq

theorem ordered_sort (es : List Expr) : Ordered (sort es) := isSort_sort.ordered es

/-- A list in order is left as it is. -/
theorem Ordered.sort_eq {es : List Expr} (h : Ordered es) : sort es = es := isSort_sort.eq_self h

end SymScript.Expr
