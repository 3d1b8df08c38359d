import Mathlib.Data.List.Nodup
import Mathlib.Algebra.Order.BigOperators.Group.List
import SymScript.Expr.Simplify
import SymScript.Proofs.Fraction
import SymScript.Proofs.Order

/-!
# Normal forms

An expression is normal if simplification finds nothing to do in it.  `Normal` says so by its shape
alone: numbers are in lowest terms, the children of sums and products are in order, no sum stands in
a sum and no product in a product, no factor occurs twice in a sum and no base twice in a product,
and signs stand as far outside as they go.  No power has a number as its base: such powers are
worked out in floating point, and their outcome need not be in lowest terms.

`Stable` allows powers of numbers that are not numbers themselves, and `Tidy` numbers that are not
in lowest terms as well.  `mass` is a size by which simplification makes progress.
-/

namespace SymScript.Expr

/-! ### Numbers among the children -/

def isNumber (e : Expr) : Bool := e.rational?.isSome

/-- The numbers of a list. -/
def numbers (es : List Expr) : List Fraction := es.filterMap rational?

/-- What is no number in a list. -/
def others (es : List Expr) : List Expr := es.filter fun e => !e.isNumber

@[simp] theorem isNumber_rational (q : Fraction) : (rational q).isNumber = true := rfl
@[simp] theorem isNumber_symbol (s : Bool) (c : Char) : (symbol s c).isNumber = false := rfl
@[simp] theorem isNumber_sum (s : Bool) (es : List Expr) : (sum s es).isNumber = false := rfl
@[simp] theorem isNumber_product (s : Bool) (es : List Expr) :
    (product s es).isNumber = false := rfl
@[simp] theorem isNumber_power (s : Bool) (b x : Expr) : (power s b x).isNumber = false := rfl

/-- The numbers are the nodes that hold a fraction. -/
theorem isNumber_iff {e : Expr} : e.isNumber = true ↔ ∃ q, e = rational q := by
  cases e <;> simp [isNumber, rational?]

@[simp] theorem numbers_nil : numbers [] = [] := rfl

@[simp] theorem numbers_cons_rational (q : Fraction) (es : List Expr) :
    numbers (rational q :: es) = q :: numbers es := rfl

/-- What is no number adds nothing to the numbers of a list. -/
theorem numbers_cons_of_other {e : Expr} (h : e.isNumber = false) (es : List Expr) :
    numbers (e :: es) = numbers es := by
  cases e <;> first | rfl | cases h

@[simp] theorem others_nil : others [] = [] := rfl

/-- A number is left out of the others. -/
@[simp] theorem others_cons_rational (q : Fraction) (es : List Expr) :
    others (rational q :: es) = others es := rfl

theorem others_cons_of_other {e : Expr} (h : e.isNumber = false) (es : List Expr) :
    others (e :: es) = e :: others es := by
  simp [others, h]

/-- The numbers of a list are the fractions of its number nodes. -/
theorem mem_numbers {q : Fraction} {es : List Expr} : q ∈ numbers es ↔ rational q ∈ es := by
  rw [numbers, List.mem_filterMap]
  constructor
  · rintro ⟨e, he, h⟩
    cases e <;> cases h
    exact he
  · intro h
    exact ⟨_, h, rfl⟩

/-- The others of a list are its members that are no numbers. -/
theorem mem_others {e : Expr} {es : List Expr} : e ∈ others es ↔ e ∈ es ∧ e.isNumber = false := by
  simp [others]

/-- The numbers of two lists, one after the other. -/
theorem numbers_append (es fs : List Expr) : numbers (es ++ fs) = numbers es ++ numbers fs :=
  List.filterMap_append

theorem others_append (es fs : List Expr) : others (es ++ fs) = others es ++ others fs :=
  List.filter_append ..

/-- Rearranging a list rearranges its numbers. -/
theorem numbers_perm {es fs : List Expr} (h : es.Perm fs) : (numbers es).Perm (numbers fs) :=
  h.filterMap _

/-- Rearranging a list rearranges what is no number in it. -/
theorem others_perm {es fs : List Expr} (h : es.Perm fs) : (others es).Perm (others fs) :=
  h.filter _

/-- A list is its numbers and the rest, up to order. -/
theorem numbers_append_others_perm (es : List Expr) :
    ((numbers es).map rational ++ others es).Perm es := by
  induction es with
  | nil => exact .refl _
  | cons e es ih =>
    cases h : e.isNumber with
    | true =>
      obtain ⟨q, rfl⟩ := isNumber_iff.1 h
      exact ih.cons _
    | false =>
      rw [numbers_cons_of_other h, others_cons_of_other h]
      exact List.perm_middle.trans (ih.cons e)

/-- In an ordered list nothing but a number comes before a number. -/
theorem Ordered.isNumber_head {a : Expr} {es : List Expr} (h : Ordered (a :: es)) {q : Fraction}
    (hq : rational q ∈ es) : a.isNumber = true := by
  induction es generalizing a with
  | nil => cases hq
  | cons b es ih =>
    have hb : b.isNumber = true := by
      rcases List.mem_cons.1 hq with rfl | hq
      · rfl
      · exact ih h.tail hq
    obtain ⟨r, rfl⟩ := isNumber_iff.1 hb
    have hlt : lt (rational r) a = false := (List.isChain_cons_cons.1 h).1
    cases a <;> first | rfl | cases hlt

/-- In an ordered list the numbers come first. -/
theorem Ordered.eq_numbers_append_others {es : List Expr} (h : Ordered es) :
    (numbers es).map rational ++ others es = es := by
  induction es with
  | nil => rfl
  | cons e es ih =>
    cases he : e.isNumber with
    | true =>
      obtain ⟨q, rfl⟩ := isNumber_iff.1 he
      simpa using ih h.tail
    | false =>
      have hn : numbers es = [] := by
        refine List.eq_nil_iff_forall_not_mem.2 fun q hq => ?_
        rw [h.isNumber_head (mem_numbers.1 hq)] at he
        cases he
      have ih := ih h.tail
      rw [hn, List.map_nil, List.nil_append] at ih
      rw [numbers_cons_of_other he, others_cons_of_other he, hn, ih]
      rfl

/-! ### The definition -/

/-- What is raised to a power in a factor. -/
def base : Expr → Expr
  | power _ b _ => b
  | e => e

/-- The power to which the base of a factor is raised. -/
def exponent : Expr → Expr
  | power _ _ x => x
  | _ => .ofNat 1

/-- The addends of a sum in which nothing is left to collect. -/
structure SumForm (es : List Expr) : Prop where
  noSum : ∀ e ∈ es, e.shape ≠ .sum
  oneNumber : (numbers es).length ≤ 1
  noZero : ∀ q ∈ numbers es, q.isZero = false
  distinct : ((others es).map fun e => e.term.1).Nodup

/-- The factors of a product in which nothing is left to collect. -/
structure ProductForm (es : List Expr) : Prop where
  unsigned : ∀ e ∈ es, e.negated = false
  noProduct : ∀ e ∈ es, e.shape ≠ .product
  oneNumber : (numbers es).length ≤ 1
  noUnit : ∀ q ∈ numbers es, q.isZero = false ∧ q.isOne = false
  distinct : ((others es).map base).Nodup

/-- A base and an exponent that no rule for powers applies to. -/
structure PowerForm (b x : Expr) : Prop where
  noNumber : b.isNumber = false
  noPower : b.shape ≠ .power
  unsigned : b.negated = false
  noUnit : ∀ q, x = rational q → q.isZero = false ∧ q.isOne = false

/-- A base and an exponent that no rule for powers applies to.  The base may be a number, as long as
the power is not one. -/
structure PowerShape (b x : Expr) : Prop where
  noUnitBase : ∀ q, b = rational q → q.isZero = false ∧ q.isOne = false
  noPower : b.shape ≠ .power
  unsigned : b.negated = false
  noUnit : ∀ q, x = rational q → q.isZero = false ∧ q.isOne = false
  inexact : exactPower? b x = .ok none

mutual

def Normal : Expr → Prop
  | rational q => q.reduce = q
  | symbol _ _ => True
  | sum _ es => NormalAll es ∧ 2 ≤ es.length ∧ Ordered es ∧ SumForm es
  | product _ es => NormalAll es ∧ 2 ≤ es.length ∧ Ordered es ∧ ProductForm es
  | power _ b x => Normal b ∧ Normal x ∧ PowerForm b x

def NormalAll : List Expr → Prop
  | [] => True
  | e :: es => Normal e ∧ NormalAll es

end

/-- A list is normal if all its members are. -/
theorem normalAll_iff {es : List Expr} : NormalAll es ↔ ∀ e ∈ es, Normal e := by
  induction es with
  | nil => simp [NormalAll]
  | cons e es ih => simp [NormalAll, ih]

/-- A normal sum: at least two normal addends, in order, of which no two can be joined. -/
theorem normal_sum_iff {s : Bool} {es : List Expr} : Normal (sum s es) ↔
    (∀ e ∈ es, Normal e) ∧ 2 ≤ es.length ∧ Ordered es ∧ SumForm es := by
  rw [Normal, normalAll_iff]

/-- A normal product: at least two normal factors, in order, of which no two can be joined. -/
theorem normal_product_iff {s : Bool} {es : List Expr} : Normal (product s es) ↔
    (∀ e ∈ es, Normal e) ∧ 2 ≤ es.length ∧ Ordered es ∧ ProductForm es := by
  rw [Normal, normalAll_iff]

/-- A normal power: a normal base and exponent between which nothing can be worked out. -/
theorem normal_power_iff {s : Bool} {b x : Expr} : Normal (power s b x) ↔
    Normal b ∧ Normal x ∧ PowerForm b x := by
  rw [Normal]

/-- Whether addends can be joined does not depend on their arrangement. -/
theorem SumForm.perm {es fs : List Expr} (h : SumForm es) (p : fs.Perm es) : SumForm fs where
  noSum e he := h.noSum e (p.mem_iff.1 he)
  oneNumber := (numbers_perm p).length_eq ▸ h.oneNumber
  noZero q hq := h.noZero q ((numbers_perm p).mem_iff.1 hq)
  distinct := ((others_perm p).map _).nodup_iff.2 h.distinct

/-- Whether factors can be joined does not depend on their arrangement. -/
theorem ProductForm.perm {es fs : List Expr} (h : ProductForm es) (p : fs.Perm es) :
    ProductForm fs where
  unsigned e he := h.unsigned e (p.mem_iff.1 he)
  noProduct e he := h.noProduct e (p.mem_iff.1 he)
  oneNumber := (numbers_perm p).length_eq ▸ h.oneNumber
  noUnit q hq := h.noUnit q ((numbers_perm p).mem_iff.1 hq)
  distinct := ((others_perm p).map _).nodup_iff.2 h.distinct

/-! ### Shapes

Normal forms, the expressions that simplification leaves as they are, and its results in general
have the same sums and products.  They differ in the numbers and in the powers that they allow.
-/

section Shaped

variable (number : Fraction → Prop) (raise : Expr → Expr → Prop)

mutual

/-- Nothing is left to collect in sums and products, numbers satisfy `number`, and the base and the
exponent of every power satisfy `raise`. -/
def Shaped : Expr → Prop
  | rational q => number q
  | symbol _ _ => True
  | sum _ es => ShapedAll es ∧ 2 ≤ es.length ∧ Ordered es ∧ SumForm es
  | product _ es => ShapedAll es ∧ 2 ≤ es.length ∧ Ordered es ∧ ProductForm es
  | power _ b x => Shaped b ∧ Shaped x ∧ raise b x

def ShapedAll : List Expr → Prop
  | [] => True
  | e :: es => Shaped e ∧ ShapedAll es

end

variable {number raise}

/-- A list is shaped if all its members are. -/
theorem shapedAll_iff {es : List Expr} :
    ShapedAll number raise es ↔ ∀ e ∈ es, Shaped number raise e := by
  induction es with
  | nil => simp [ShapedAll]
  | cons e es ih => simp [ShapedAll, ih]

/-- A shaped sum: at least two shaped addends, in order, of which no two can be joined. -/
theorem shaped_sum_iff {s : Bool} {es : List Expr} : Shaped number raise (sum s es) ↔
    (∀ e ∈ es, Shaped number raise e) ∧ 2 ≤ es.length ∧ Ordered es ∧ SumForm es := by
  rw [Shaped, shapedAll_iff]

/-- A shaped product: at least two shaped factors, in order, of which no two can be joined. -/
theorem shaped_product_iff {s : Bool} {es : List Expr} : Shaped number raise (product s es) ↔
    (∀ e ∈ es, Shaped number raise e) ∧ 2 ≤ es.length ∧ Ordered es ∧ ProductForm es := by
  rw [Shaped, shapedAll_iff]

/-- A shaped power: a shaped base and exponent that may stand together. -/
theorem shaped_power_iff {s : Bool} {b x : Expr} : Shaped number raise (power s b x) ↔
    Shaped number raise b ∧ Shaped number raise x ∧ raise b x := by
  rw [Shaped]

/-- Sorting addends that cannot be joined makes a shaped sum of them. -/
theorem SumForm.shaped_sort {es : List Expr} (h : SumForm es)
    (hes : ∀ e ∈ es, Shaped number raise e) (hl : 2 ≤ es.length) (s : Bool) :
    Shaped number raise (sum s (sort es)) :=
  shaped_sum_iff.2 ⟨fun e he => hes e (mem_sort.1 he), by rwa [length_sort], ordered_sort es,
    h.perm (sort_perm es)⟩

/-- Sorting factors that cannot be joined makes a shaped product of them. -/
theorem ProductForm.shaped_sort {es : List Expr} (h : ProductForm es)
    (hes : ∀ e ∈ es, Shaped number raise e) (hl : 2 ≤ es.length) (s : Bool) :
    Shaped number raise (product s (sort es)) :=
  shaped_product_iff.2 ⟨fun e he => hes e (mem_sort.1 he), by rwa [length_sort], ordered_sort es,
    h.perm (sort_perm es)⟩

variable {number' : Fraction → Prop} {raise' : Expr → Expr → Prop}

mutual

/-- Shapes that ask for less of numbers and powers hold of more expressions. -/
theorem Shaped.mono (hn : ∀ q, number q → number' q) (hr : ∀ b x, raise b x → raise' b x) :
    ∀ {e : Expr}, Shaped number raise e → Shaped number' raise' e
  | rational q, h => hn q h
  | symbol .., _ => trivial
  | sum s es, h | product s es, h => by
    rw [Shaped] at h ⊢
    exact ⟨ShapedAll.mono hn hr h.1, h.2⟩
  | power s b x, h => by
    rw [Shaped] at h ⊢
    exact ⟨Shaped.mono hn hr h.1, Shaped.mono hn hr h.2.1, hr b x h.2.2⟩

theorem ShapedAll.mono (hn : ∀ q, number q → number' q) (hr : ∀ b x, raise b x → raise' b x) :
    ∀ {es : List Expr}, ShapedAll number raise es → ShapedAll number' raise' es
  | [], _ => trivial
  | e :: es, h => by
    rw [ShapedAll] at h ⊢
    exact ⟨Shaped.mono hn hr h.1, ShapedAll.mono hn hr h.2⟩

end

end Shaped

mutual

/-- Normal forms are the shape with numbers in lowest terms and powers that are worked out. -/
theorem normal_iff_shaped : ∀ e : Expr, Normal e ↔ Shaped (fun q => q.reduce = q) PowerForm e
  | rational _ => Iff.rfl
  | symbol .. => Iff.rfl
  | sum s es | product s es => by
    rw [Normal, Shaped, normalAll_iff_shapedAll es]
  | power s b x => by
    rw [Normal, Shaped, normal_iff_shaped b, normal_iff_shaped x]

theorem normalAll_iff_shapedAll :
    ∀ es : List Expr, NormalAll es ↔ ShapedAll (fun q => q.reduce = q) PowerForm es
  | [] => Iff.rfl
  | e :: es => by
    rw [NormalAll, ShapedAll, normal_iff_shaped e, normalAll_iff_shapedAll es]

end

theorem Normal.shaped {e : Expr} (h : Normal e) : Shaped (fun q => q.reduce = q) PowerForm e :=
  (normal_iff_shaped e).1 h

/-- Every rule has been applied, and numbers are in lowest terms. -/
def Stable (e : Expr) : Prop := Shaped (fun q => q.reduce = q) PowerShape e

/-- Every rule has been applied, but a power that is a number need not be in lowest terms. -/
def Tidy (e : Expr) : Prop := Shaped (fun _ => True) PowerShape e

/-- A stable expression is tidy: its numbers happen to be in lowest terms. -/
theorem Stable.tidy {e : Expr} (h : Stable e) : Tidy e :=
  h.mono (fun _ _ => trivial) fun _ _ => id

/-- Only a number can be raised to a power exactly. -/
theorem exactPower?_of_other {b : Expr} (h : b.isNumber = false) (x : Expr) :
    exactPower? b x = .ok none := by
  cases b <;> first | rfl | cases h

/-- A power in normal form has the shape of a stable power. -/
theorem PowerForm.powerShape {b x : Expr} (h : PowerForm b x) : PowerShape b x where
  noUnitBase q hq := by
    have := h.noNumber
    rw [hq] at this
    cases this
  noPower := h.noPower
  unsigned := h.unsigned
  noUnit := h.noUnit
  inexact := exactPower?_of_other h.noNumber x

/-- Normal forms are stable. -/
theorem Normal.stable {e : Expr} (h : Normal e) : Stable e :=
  h.shaped.mono (fun _ => id) fun _ _ => PowerForm.powerShape

/-! ### Signs and copies -/

@[simp] theorem negated_rational (q : Fraction) : (rational q).negated = q.negated := rfl

/-- The sign that is given is the sign that is seen. -/
@[simp] theorem sign_negated (s : Bool) (e : Expr) : (e.sign s).negated = s := by
  cases e <;> rfl

@[simp] theorem sign_shape (s : Bool) (e : Expr) : (e.sign s).shape = e.shape := by
  cases e <;> rfl

@[simp] theorem sign_isNumber (s : Bool) (e : Expr) : (e.sign s).isNumber = e.isNumber := by
  cases e <;> rfl

/-- Of two signs given one after the other, the second counts. -/
@[simp] theorem sign_sign (s t : Bool) (e : Expr) : (e.sign s).sign t = e.sign t := by
  cases e <;> rfl

/-- Giving an expression the sign that it has changes nothing. -/
@[simp] theorem sign_self (e : Expr) : e.sign e.negated = e := by
  cases e <;> rfl

theorem sign_eq_self {e : Expr} {s : Bool} (h : e.negated = s) : e.sign s = e := h ▸ sign_self e

section Shaped

variable {number : Fraction → Prop} {raise : Expr → Expr → Prop} {e : Expr}

/-- The sign of a node plays no part in its shape, unless it is a number. -/
theorem Shaped.sign (h : Shaped number raise e) (s : Bool)
    (hq : ∀ q, e = rational q → number (q.withSign s)) : Shaped number raise (e.sign s) := by
  cases e with
  | rational q => exact hq q rfl
  | symbol => trivial
  | sum t es => exact shaped_sum_iff.2 (shaped_sum_iff.1 h)
  | product t es => exact shaped_product_iff.2 (shaped_product_iff.1 h)
  | power t b x => exact shaped_power_iff.2 (shaped_power_iff.1 h)

/-- What is no number keeps its shape under any sign. -/
theorem Shaped.sign_other (h : Shaped number raise e) (hn : e.isNumber = false) (s : Bool) :
    Shaped number raise (e.sign s) :=
  h.sign s fun q hq => by rw [hq] at hn; cases hn

/-- A number in lowest terms stays so without its sign. -/
theorem Shaped.sign_false (h : Shaped (fun q => q.reduce = q) raise e) :
    Shaped (fun q => q.reduce = q) raise (e.sign false) := by
  refine h.sign false ?_
  rintro q rfl
  exact Fraction.reduce_eq_self_iff.2 ⟨(Fraction.reduce_eq_self_iff.1 h).1, fun _ => rfl⟩

mutual

/-- A shaped expression is its own copy, since its children are in order all the way down. -/
theorem Shaped.copy_eq : ∀ {e : Expr}, Shaped number raise e → copy e = e
  | rational _, _ => rfl
  | symbol .., _ => rfl
  | sum s es, h => by
    rw [Shaped] at h
    rw [copy, ShapedAll.copyAll_eq h.1, h.2.2.1.sort_eq]
  | product s es, h => by
    rw [Shaped] at h
    rw [copy, ShapedAll.copyAll_eq h.1, h.2.2.1.sort_eq]
  | power s b x, h => by
    rw [Shaped] at h
    rw [copy, Shaped.copy_eq h.1, Shaped.copy_eq h.2.1]

theorem ShapedAll.copyAll_eq : ∀ {es : List Expr}, ShapedAll number raise es → copyAll es = es
  | [], _ => rfl
  | e :: es, h => by
    rw [ShapedAll] at h
    rw [copyAll, Shaped.copy_eq h.1, ShapedAll.copyAll_eq h.2]

end

/-- On shaped expressions a copy with a sign is just the change of the sign. -/
theorem Shaped.withSign_eq (h : Shaped number raise e) (s : Bool) : e.withSign s = e.sign s := by
  rw [withSign, h.copy_eq]

/-- On shaped expressions the opposite differs in the sign only. -/
theorem Shaped.flip_eq (h : Shaped number raise e) : e.flip = e.sign (!e.negated) :=
  h.withSign_eq _

end Shaped

@[simp] theorem length_copyAll (es : List Expr) : (copyAll es).length = es.length := by
  induction es with
  | nil => rfl
  | cons e es ih => rw [copyAll, List.length_cons, ih, List.length_cons]

/-- A list of expressions that are their own copies is its own copy. -/
theorem copyAll_eq {es : List Expr} (h : ∀ e ∈ es, copy e = e) : copyAll es = es := by
  induction es with
  | nil => rfl
  | cons e es ih =>
    obtain ⟨he, hes⟩ := List.forall_mem_cons.1 h
    rw [copyAll, he, ih hes]

/-- A tidy expression is tidy under any sign, numbers included. -/
theorem Tidy.sign {e : Expr} (h : Tidy e) (s : Bool) : Tidy (e.sign s) :=
  Shaped.sign h s fun _ _ => trivial

namespace Normal

variable {e : Expr} (h : Normal e)

include h

/-- What is normal and no number is normal under any sign. -/
theorem sign_other (hn : e.isNumber = false) (s : Bool) : Normal (e.sign s) :=
  (normal_iff_shaped _).2 (h.shaped.sign_other hn s)

/-- A normal expression without its sign is normal. -/
theorem sign_false : Normal (e.sign false) := (normal_iff_shaped _).2 h.shaped.sign_false

theorem copy_eq : copy e = e := h.shaped.copy_eq

theorem withSign_eq (s : Bool) : e.withSign s = e.sign s := h.shaped.withSign_eq s

theorem flip_eq : e.flip = e.sign (!e.negated) := h.shaped.flip_eq

end Normal

/-! ### Mass -/

mutual

/-- A size that no rule of simplification makes larger.  Two equal addends weigh more than one of
them with a coefficient, and two equal factors more than their square. -/
def mass : Expr → Nat
  | rational _ => 1
  | symbol .. => 8
  | sum _ es => massAll es + 2
  | product _ es => massAll es + 1
  | power _ b x => mass b + mass x + 2

def massAll : List Expr → Nat
  | [] => 0
  | e :: es => mass e + massAll es

end

/-- The mass of a list is the sum of the masses of its members. -/
theorem massAll_eq_sum (es : List Expr) : massAll es = (es.map mass).sum := by
  induction es with
  | nil => rfl
  | cons e es ih => rw [massAll, ih, List.map_cons, List.sum_cons]

@[simp] theorem massAll_nil : massAll [] = 0 := rfl

@[simp] theorem massAll_cons (e : Expr) (es : List Expr) :
    massAll (e :: es) = mass e + massAll es := rfl

@[simp] theorem massAll_append (es fs : List Expr) :
    massAll (es ++ fs) = massAll es + massAll fs := by
  simp [massAll_eq_sum]

/-- The mass of a list does not depend on the arrangement. -/
theorem massAll_perm {es fs : List Expr} (h : es.Perm fs) : massAll es = massAll fs := by
  rw [massAll_eq_sum, massAll_eq_sum, (h.map mass).sum_eq]

/-- What keeps every mass keeps the mass of a list. -/
theorem massAll_map {f : Expr → Expr} (hf : ∀ e, mass (f e) = mass e) (es : List Expr) :
    massAll (es.map f) = massAll es := by
  rw [massAll_eq_sum, massAll_eq_sum, List.map_map]
  congr 2
  funext e
  exact hf e

@[simp] theorem massAll_sort (es : List Expr) : massAll (sort es) = massAll es :=
  massAll_perm (sort_perm es)

/-- Signs have no mass. -/
@[simp] theorem mass_sign (s : Bool) (e : Expr) : mass (e.sign s) = mass e := by
  cases e <;> rfl

mutual

/-- A copy has the mass of the original. -/
@[simp] theorem mass_copy : ∀ e : Expr, mass (copy e) = mass e
  | rational _ => rfl
  | symbol .. => rfl
  | sum s es | product s es => by
    rw [copy, mass, mass, massAll_sort, massAll_copyAll es]
  | power s b x => by
    rw [copy, mass, mass, mass_copy b, mass_copy x]

@[simp] theorem massAll_copyAll : ∀ es : List Expr, massAll (copyAll es) = massAll es
  | [] => rfl
  | e :: es => by
    rw [copyAll, massAll, massAll, mass_copy e, massAll_copyAll es]

end

/-- A copy with another sign has the mass of the original. -/
@[simp] theorem mass_withSign (s : Bool) (e : Expr) : mass (e.withSign s) = mass e := by
  rw [withSign, mass_sign, mass_copy]

/-- Every expression has a mass. -/
theorem mass_pos (e : Expr) : 1 ≤ mass e := by
  cases e <;> simp [mass]

/-- A member is not heavier than the list. -/
theorem mass_le_massAll {e : Expr} {es : List Expr} (h : e ∈ es) : mass e ≤ massAll es := by
  rw [massAll_eq_sum]
  exact List.le_sum_of_mem (List.mem_map_of_mem h)

/-- Every member adds to the mass of a list. -/
theorem length_le_massAll (es : List Expr) : es.length ≤ massAll es := by
  induction es with
  | nil => exact Nat.le_refl _
  | cons e es ih =>
    have := mass_pos e
    simp only [List.length_cons, massAll_cons]
    omega

/-- Each of two or more children leaves room for another one. -/
theorem mass_lt_massAll {e : Expr} {es : List Expr} (h : e ∈ es) (hl : 2 ≤ es.length) :
    mass e < massAll es := by
  obtain ⟨l, r, rfl⟩ := List.append_of_mem h
  have h₁ := length_le_massAll l
  have h₂ := length_le_massAll r
  simp only [List.length_append, List.length_cons] at hl
  simp only [massAll_append, massAll_cons]
  omega

mutual

/-- The mass of an expression is linear in its size. -/
theorem mass_le_size : ∀ e : Expr, mass e ≤ 8 * size e
  | rational _ => by simp [mass, size]
  | symbol .. => by simp [mass, size]
  | sum s es => by
    have := massAll_le_sizeAll es
    simp only [mass, size]
    omega
  | product s es => by
    have := massAll_le_sizeAll es
    simp only [mass, size]
    omega
  | power s b x => by
    have := mass_le_size b
    have := mass_le_size x
    simp only [mass, size]
    omega

theorem massAll_le_sizeAll : ∀ es : List Expr, massAll es ≤ 8 * sizeAll es
  | [] => Nat.le_refl _
  | e :: es => by
    have := mass_le_size e
    have := massAll_le_sizeAll es
    simp only [massAll, sizeAll]
    omega

end

/-- Among two or more children with at most one number there is something else. -/
theorem others_ne_nil {es : List Expr} (hl : 2 ≤ es.length) (hn : (numbers es).length ≤ 1) :
    others es ≠ [] := by
  intro h
  have := (numbers_append_others_perm es).length_eq
  rw [h, List.append_nil, List.length_map] at this
  omega

/-- If every member that is no number weighs at least `k`, a list of two members, at most one of
them a number, is heavier than `k`. -/
theorem lt_massAll_of_others {es : List Expr} (hl : 2 ≤ es.length) (hn : (numbers es).length ≤ 1)
    {k : Nat} (hk : ∀ e ∈ es, e.isNumber = false → k ≤ mass e) : k < massAll es := by
  obtain ⟨e, he⟩ := List.exists_mem_of_ne_nil _ (others_ne_nil hl hn)
  obtain ⟨hm, hnum⟩ := mem_others.1 he
  exact Nat.lt_of_le_of_lt (hk e hm hnum) (mass_lt_massAll hm hl)

section Shaped

variable {number : Fraction → Prop} {raise : Expr → Expr → Prop} {e : Expr}

/-- A shaped expression that is no number weighs at least three. -/
theorem Shaped.three_le_mass (h : Shaped number raise e) (hn : e.isNumber = false) :
    3 ≤ mass e := by
  cases e with
  | rational => cases hn
  | symbol => exact Nat.le_add_left 3 5
  | sum s es | product s es =>
    rw [Shaped] at h
    have := length_le_massAll es
    rw [mass]
    omega
  | power s b x =>
    have := mass_pos b
    rw [mass]
    omega

/-- A shaped expression that is no number weighs at least four: a product has a factor besides its
number. -/
theorem Shaped.four_le_mass (h : Shaped number raise e) (hn : e.isNumber = false) : 4 ≤ mass e := by
  cases e with
  | rational => cases hn
  | symbol => exact Nat.le_add_left 4 4
  | sum s es =>
    have := length_le_massAll es
    rw [shaped_sum_iff] at h
    rw [mass]
    omega
  | product s es =>
    obtain ⟨hes, hl, -, hf⟩ := shaped_product_iff.1 h
    have := lt_massAll_of_others hl hf.oneNumber fun e he hn => (hes e he).three_le_mass hn
    rw [mass]
    omega
  | power s b x =>
    have := mass_pos b
    have := mass_pos x
    rw [mass]
    omega

/-- A sum weighs more than two equal factors lose when they become a square. -/
theorem Shaped.seven_le_mass_sum {s : Bool} {es : List Expr} (h : Shaped number raise (sum s es)) :
    7 ≤ mass (sum s es) := by
  obtain ⟨hes, hl, -, hf⟩ := shaped_sum_iff.1 h
  have := lt_massAll_of_others hl hf.oneNumber fun e he hn => (hes e he).four_le_mass hn
  rw [mass]
  omega

end Shaped

end SymScript.Expr
