import SymScript.Proofs.FormulaText
import SymScript.Proofs.Scanning
import SymScript.Proofs.SortKey

/-!
# Formulas can be read

A text of digits, letters, commands and braces that is the formula of a polynomial leaves no choice
where its numbers, factors and addends end.  Two simplified polynomials therefore have the same
formula exactly if they are the same as they are read (`Expr.spread`), and if no product is raised
to a power the formula determines the polynomial.  A power of a product is written like the product
of which only the last factor is raised.
-/

namespace SymScript.Expr

/-! ### Texts that end in one way -/

/-- The text is empty or starts with another character. -/
def Stops (p : Char → Bool) (cs : List Char) : Prop := ∀ c ∈ cs.head?, p c = false

/-- A run of a class of characters is told from what follows it, if that begins with another
character. -/
theorem append_inj_of_stops {p : Char → Bool} {xs ys r r' : List Char} (hxs : ∀ c ∈ xs, p c = true)
    (hys : ∀ c ∈ ys, p c = true) (hr : Stops p r) (hr' : Stops p r') (h : xs ++ r = ys ++ r') :
    xs = ys ∧ r = r' := by
  induction xs generalizing ys with
  | nil =>
    cases ys with
    | nil => exact ⟨rfl, h⟩
    | cons c ys =>
      obtain rfl : r = c :: (ys ++ r') := h
      exact absurd (hys c List.mem_cons_self) (Bool.eq_false_iff.1 (hr c rfl))
  | cons c xs ih =>
    cases ys with
    | nil =>
      obtain rfl : c :: (xs ++ r) = r' := h
      exact absurd (hxs c List.mem_cons_self) (Bool.eq_false_iff.1 (hr' c rfl))
    | cons d ys =>
      obtain ⟨rfl, htail⟩ := List.cons.inj h
      obtain ⟨rfl, rfl⟩ := ih (fun c hc => hxs c (List.mem_cons_of_mem _ hc))
        (fun c hc => hys c (List.mem_cons_of_mem _ hc)) htail
      exact ⟨rfl, rfl⟩

section Items

variable {α : Type} {f : α → List Char} {N : List Char → Prop} {P : α → Prop} {as bs : List α}
  {r r' : List Char}

/-- What may follow every piece may follow a row of pieces. -/
theorem flatMap_append_of (hnext : ∀ a r, N (f a ++ r)) (hr : N r) : N (as.flatMap f ++ r) := by
  cases as with
  | nil => exact hr
  | cons a as =>
    rw [List.flatMap_cons, List.append_assoc]
    exact hnext a _

/-- Items that can be read off where `N` holds of the rest, which it does before another item, can
be read off a list, up to a rest that is no further item. -/
theorem flatMap_append_inj
    (hread : ∀ a ∈ as, ∀ b, P b → ∀ r r', N r → N r' → f a ++ r = f b ++ r' → a = b ∧ r = r')
    (hnext : ∀ a r, N (f a ++ r)) (hbs : ∀ b ∈ bs, P b) (hr : N r ∧ ∀ a u, r ≠ f a ++ u)
    (hr' : N r' ∧ ∀ a u, r' ≠ f a ++ u) (h : as.flatMap f ++ r = bs.flatMap f ++ r') :
    as = bs ∧ r = r' := by
  induction as generalizing bs with
  | nil =>
    cases bs with
    | nil => exact ⟨rfl, h⟩
    | cons b bs =>
      rw [List.flatMap_cons, List.append_assoc] at h
      exact absurd h (hr.2 b _)
  | cons a as ih =>
    cases bs with
    | nil =>
      rw [List.flatMap_cons, List.append_assoc] at h
      exact absurd h.symm (hr'.2 a _)
    | cons b bs =>
      rw [List.flatMap_cons, List.flatMap_cons, List.append_assoc, List.append_assoc] at h
      obtain ⟨rfl, htail⟩ := hread a List.mem_cons_self b (hbs b List.mem_cons_self) _ _
        (flatMap_append_of hnext hr.1) (flatMap_append_of hnext hr'.1) h
      obtain ⟨rfl, rfl⟩ := ih (fun a ha => hread a (List.mem_cons_of_mem _ ha))
        (fun b hb => hbs b (List.mem_cons_of_mem _ hb)) htail
      exact ⟨rfl, rfl⟩

end Items

/-! ### Numbers and letters -/

/-- A numeral is told from what follows it, if that begins with no digit. -/
theorem toDigits_append_inj {m n : Nat} {r r' : List Char} (hr : Stops Char.isDigit r)
    (hr' : Stops Char.isDigit r') (h : Nat.toDigits 10 m ++ r = Nat.toDigits 10 n ++ r') :
    m = n ∧ r = r' := by
  have hdigit (k : Nat) : ∀ c ∈ Nat.toDigits 10 k, c.isDigit = true := fun c hc =>
    Nat.isDigit_of_mem_toDigits (by decide) (by decide) hc
  obtain ⟨hdigits, hrest⟩ := append_inj_of_stops (hdigit m) (hdigit n) hr hr' h
  exact ⟨Fraction.toDigits_injective hdigits, hrest⟩

theorem stops_brace {cs : List Char} : Stops Char.isDigit ('}' :: cs) := by
  rintro c ⟨⟩
  rfl

/-- An exponent is told from what follows it by its braces. -/
theorem exponentText_append_inj {m n : Nat} {r r' : List Char}
    (h : exponentText m ++ r = exponentText n ++ r') : m = n ∧ r = r' := by
  simp only [exponentText, List.cons_append, List.append_assoc, List.nil_append] at h
  obtain ⟨hdigits, hrest⟩ :=
    toDigits_append_inj stops_brace stops_brace (List.cons.inj (List.cons.inj h).2).2
  exact ⟨hdigits, (List.cons.inj hrest).2⟩

/-- A numeral begins with a digit. -/
theorem exists_toDigits (n : Nat) : ∃ c cs, Nat.toDigits 10 n = c :: cs ∧ c.isDigit = true := by
  cases h : Nat.toDigits 10 n with
  | nil => exact absurd h Nat.toDigits_ne_nil
  | cons c cs =>
    exact ⟨c, cs, rfl, Nat.isDigit_of_mem_toDigits (by decide) (by decide) (h ▸ List.mem_cons_self)⟩

/-- A numeral does not start like a fraction. -/
theorem toDigits_append_ne (n : Nat) (r cs : List Char) : Nat.toDigits 10 n ++ r ≠ '\\' :: cs := by
  obtain ⟨c, ds, hn, hc⟩ := exists_toDigits n
  rw [hn]
  intro h
  rw [(List.cons.inj h).1] at hc
  cases hc

/-- A number is told from what follows it, with a denominator or without one. -/
theorem numberText_append_inj {m n d k : Nat} {r r' : List Char} (hr : Stops Char.isDigit r)
    (hr' : Stops Char.isDigit r') (h : numberText m d ++ r = numberText n k ++ r') :
    m = n ∧ d = k ∧ r = r' := by
  rw [numberText, numberText] at h
  split at h <;> rename_i hd <;> split at h <;> rename_i hk
  · obtain ⟨hnum, hrest⟩ := toDigits_append_inj hr hr' h
    exact ⟨hnum, hd.trans hk.symm, hrest⟩
  · exact absurd h (toDigits_append_ne m r _)
  · exact absurd h.symm (toDigits_append_ne n r' _)
  · simp only [List.append_assoc, List.cons_append, List.nil_append, List.cons.injEq, true_and] at h
    obtain ⟨hnum, hbottom⟩ := toDigits_append_inj stops_brace stops_brace h
    simp only [List.cons.injEq, true_and] at hbottom
    obtain ⟨hden, hrest⟩ := toDigits_append_inj stops_brace stops_brace hbottom
    exact ⟨hnum, hden, (List.cons.inj hrest).2⟩

/-- The first letters are the Latin ones. -/
theorem range_of_isLetter {c : Char} (h : Text.isLetter c = true) :
    65 ≤ c.toNat ∧ c.toNat ≤ 90 ∨ 97 ≤ c.toNat := by
  have htable : Text.letters.toList.all (fun r => (r.first == 65 && r.last == 90) || 97 ≤ r.first) =
      true := by
    decide +kernel
  rw [Text.isLetter, Text.CodeRange.mem, Option.isSome_iff_exists] at h
  obtain ⟨r, hr⟩ := h
  have hholds := Array.find?_some hr
  have hrange :=
    List.all_eq_true.1 htable r (Array.mem_toList_iff.2 (Array.mem_of_find?_eq_some hr))
  simp only [Text.CodeRange.holds, Bool.and_eq_true, decide_eq_true_eq, Bool.or_eq_true,
    beq_iff_eq] at hholds hrange
  omega

/-- Letters are no digits. -/
theorem isDigit_of_isLetter {c : Char} (h : Text.isLetter c = true) : c.isDigit = false := by
  rw [Bool.eq_false_iff]
  intro hdigit
  have hlow := range_of_isLetter h
  have hhigh := Token.isDigit_iff.1 hdigit
  omega

theorem ne_of_isLetter {c d : Char} (h : Text.isLetter c = true)
    (hd : d = '\\' ∨ d = '-') : c ≠ d := by
  rintro rfl
  have := range_of_isLetter h
  rcases hd with rfl | rfl <;> revert this <;> decide

/-! ### Factors -/

/-- The factor under its exponents. -/
def root : Expr → Expr
  | power _ b _ => root b
  | e => e

/-- The exponents of a factor, the innermost first. -/
def tower : Expr → List Nat
  | power _ b (rational q) => tower b ++ [q.num]
  | _ => []

def stacked (e : Expr) (ns : List Nat) : Expr := ns.foldl (fun b n => power false b (ofNat n)) e

/-- The root of a factor, below its exponents, is a factor and no power. -/
theorem Factor.root_factor {f : Expr} (hf : Factor f) : Factor f.root ∧ f.root.shape ≠ .power := by
  induction hf with
  | number h => exact ⟨.number h, by rintro ⟨⟩⟩
  | letter h => exact ⟨.letter h, by rintro ⟨⟩⟩
  | group nonempty separate factors => exact ⟨.group nonempty separate factors, by rintro ⟨⟩⟩
  | power _ _ ih => exact ih

/-- A factor is its root under its exponents. -/
theorem Factor.eq_stacked {f : Expr} (hf : Factor f) : f = stacked f.root f.tower := by
  induction hf with
  | number | letter | group => rfl
  | @power b n _ _ ih =>
    change _ = (b.tower ++ [n]).foldl _ b.root
    rw [List.foldl_concat]
    exact congrArg (Expr.power false · (ofNat n)) ih

/-- A factor is written as its root with the exponents behind it. -/
theorem Factor.factorText_eq {f : Expr} (hf : Factor f) :
    factorText f = factorText f.root ++ f.tower.flatMap exponentText := by
  induction hf with
  | number | letter | group => exact (List.append_nil _).symm
  | @power b n _ hn ih =>
    change _ = factorText b.root ++ (b.tower ++ [n]).flatMap exponentText
    rw [factorText_power b hn, ih, List.flatMap_append, List.flatMap_singleton, List.append_assoc]

/-- The shape of a factor, told from the start of its text. -/
def shapeOfText (cs : List Char) : Shape :=
  if cs.head? = some '\\' then if cs.tail.head? = some 'l' then .sum else .rational
  else if cs.head?.any Char.isDigit then .rational else .symbol

/-- The first characters of a factor that is no power show its shape. -/
theorem Factor.shape_eq {f : Expr} (hf : Factor f) (hpower : f.shape ≠ .power) (r : List Char) :
    shapeOfText (factorText f ++ r) = f.shape := by
  cases hf with
  | @number q h =>
    rw [factorText, textIn_rational, h, numberText]
    split
    · obtain ⟨c, cs, hdigits, hc⟩ := exists_toDigits q.num
      have hne : c ≠ '\\' := by
        rintro rfl
        cases hc
      simp [hdigits, shapeOfText, hne, hc, shape]
    · rfl
  | @letter c h =>
    rw [factorText, textIn_symbol]
    simp [shapeOfText, ne_of_isLetter h (.inl rfl), isDigit_of_isLetter h, shape]
  | group nonempty separate factors =>
    rw [factorText_group fun t ht => ⟨separate t ht, factors t ht⟩]
    rfl
  | power => exact absurd rfl hpower

/-- What may stand after a factor. -/
def EndsFactor (r : List Char) : Prop := Stops (fun c => c.isDigit || c == '^') r

/-- What may stand after the last factor of an addend. -/
def EndsAddend (r : List Char) : Prop := EndsFactor r ∧ ∀ u, r ≠ dotText ++ u

/-- What may stand after the last addend. -/
def EndsSum (r : List Char) : Prop := EndsAddend r ∧ Stops (fun c => c == '+' || c == '-') r

/-- A factor without exponents can be read off. -/
def RootReads (f : Expr) : Prop := ∀ g, Factor g → g.shape ≠ .power → ∀ r r', Stops Char.isDigit r →
  Stops Char.isDigit r' → factorText f ++ r = factorText g ++ r' → f = g ∧ r = r'

/-- The factor can be read off. -/
def Reads (f : Expr) : Prop := ∀ g, Factor g → ∀ r r', EndsFactor r → EndsFactor r' →
  factorText f ++ r = factorText g ++ r' → f = g ∧ r = r'

/-- Where a factor ends, a numeral in it ends too. -/
theorem EndsFactor.stops {r : List Char} (hr : EndsFactor r) (ns : List Nat) :
    Stops Char.isDigit (ns.flatMap exponentText ++ r) := by
  cases ns with
  | nil => exact fun c hc => (Bool.or_eq_false_iff.1 (hr c hc)).1
  | cons n ns =>
    rintro c ⟨⟩
    rfl

theorem EndsFactor.ne_exponentText {r : List Char} (hr : EndsFactor r) (n : Nat) (u : List Char) :
    r ≠ exponentText n ++ u := by
  rintro rfl
  cases hr '^' rfl

/-- A factor is read off if its root is: the exponents behind it are read off one by one. -/
theorem RootReads.reads {f : Expr} (hf : Factor f) (h : RootReads f.root) : Reads f := by
  intro g hg r r' hr hr' heq
  rw [hf.factorText_eq, hg.factorText_eq, List.append_assoc, List.append_assoc] at heq
  obtain ⟨hatom, hpower⟩ := hg.root_factor
  obtain ⟨hroot, htower⟩ := h g.root hatom hpower _ _ (hr.stops _) (hr'.stops _) heq
  obtain ⟨htower, hrest⟩ := flatMap_append_inj (N := fun _ => True) (P := fun _ => True)
    (fun _ _ _ _ _ _ _ _ => exponentText_append_inj) (fun _ _ => trivial) (fun _ _ => trivial)
    ⟨trivial, hr.ne_exponentText⟩ ⟨trivial, hr'.ne_exponentText⟩ htower
  rw [hf.eq_stacked, hg.eq_stacked, hroot, htower]
  exact ⟨rfl, hrest⟩

/-! ### Addends -/

/-- A factor ends before the dot of the next one. -/
theorem endsFactor_dot (f : Expr) (r : List Char) : EndsFactor (dotText ++ factorText f ++ r) := by
  rintro c ⟨⟩
  rfl

/-- The factors of an addend can be read off. -/
theorem factorsText_append_inj {fs gs : List Expr} {r r' : List Char} (hfs : ∀ f ∈ fs, Reads f)
    (hgs : ∀ g ∈ gs, Factor g) (hne : fs ≠ []) (hne' : gs ≠ []) (hr : EndsAddend r)
    (hr' : EndsAddend r') (h : factorsText fs ++ r = factorsText gs ++ r') : fs = gs ∧ r = r' := by
  obtain ⟨f, fs, rfl⟩ := List.exists_cons_of_ne_nil hne
  obtain ⟨g, gs, rfl⟩ := List.exists_cons_of_ne_nil hne'
  rw [List.forall_mem_cons] at hfs hgs
  rw [factorsText, factorsText, List.append_assoc, List.append_assoc] at h
  obtain ⟨rfl, htail⟩ := hfs.1 g hgs.1 _ _ (flatMap_append_of endsFactor_dot hr.1)
    (flatMap_append_of endsFactor_dot hr'.1) h
  have hread : ∀ f ∈ fs, ∀ g, Factor g → ∀ r r', EndsFactor r → EndsFactor r' →
      dotText ++ factorText f ++ r = dotText ++ factorText g ++ r' → f = g ∧ r = r' := by
    intro f hf g hg r r' hr hr' h
    rw [List.append_assoc, List.append_assoc, List.append_cancel_left_eq] at h
    exact hfs.2 f hf g hg r r' hr hr' h
  have hend {r : List Char} (hr : EndsAddend r) (f : Expr) (u : List Char) :
      r ≠ dotText ++ factorText f ++ u := by
    rw [List.append_assoc]
    exact hr.2 _
  obtain ⟨rfl, rfl⟩ :=
    flatMap_append_inj hread endsFactor_dot hgs.2 ⟨hr.1, hend hr⟩ ⟨hr'.1, hend hr'⟩ htail
  exact ⟨rfl, rfl⟩

/-- No factor starts with a minus. -/
theorem Factor.stops_minus {f : Expr} (hf : Factor f) (r : List Char) :
    Stops (· == '-') (factorText f ++ r) := by
  induction hf generalizing r with
  | @number q h =>
    rw [factorText, textIn_rational, h, numberText]
    split
    · obtain ⟨c, cs, hdigits, hc⟩ := exists_toDigits q.num
      rw [hdigits]
      rintro d ⟨⟩
      refine beq_eq_false_iff_ne.2 ?_
      rintro rfl
      cases hc
    · rintro d ⟨⟩
      rfl
  | @letter c h =>
    rw [factorText, textIn_symbol]
    rintro d ⟨⟩
    exact beq_eq_false_iff_ne.2 (ne_of_isLetter h (.inr rfl))
  | group nonempty separate factors =>
    rw [factorText_group fun t ht => ⟨separate t ht, factors t ht⟩]
    rintro d ⟨⟩
    rfl
  | @power b n _ hn ih =>
    rw [factorText_power b hn, List.append_assoc]
    exact ih _

/-- A minus sign is told from what follows it, if that has none. -/
theorem minusText_append_inj {s s' : Bool} {r r' : List Char} (hr : Stops (· == '-') r)
    (hr' : Stops (· == '-') r') (h : minusText s ++ r = minusText s' ++ r') : s = s' ∧ r = r' := by
  have hne {r u : List Char} (hr : Stops (· == '-') r) : r ≠ '-' :: u := by
    rintro rfl
    cases hr '-' rfl
  cases s <;> cases s'
  · exact ⟨rfl, h⟩
  · exact absurd h (hne hr)
  · exact absurd h.symm (hne hr')
  · exact ⟨rfl, (List.cons.inj h).2⟩

/-- An addend ends before the sign of the next one. -/
theorem endsAddend_sign (t : Bool × List Expr) (r : List Char) :
    EndsAddend ((if t.1 then '-' else '+') :: factorsText t.2 ++ r) := by
  cases t.1 <;> refine ⟨by rintro c ⟨⟩; rfl, fun u h => ?_⟩ <;> cases h

/-- Where a sum ends no sign of an addend follows. -/
theorem EndsSum.ne_sign {r : List Char} (hr : EndsSum r) (t : Bool × List Expr) (u : List Char) :
    r ≠ (if t.1 then '-' else '+') :: factorsText t.2 ++ u := by
  rintro rfl
  have h := hr.2 (if t.1 then '-' else '+') rfl
  revert h
  cases t.1 <;> decide

/-- The factors of an addend begin with no minus sign. -/
theorem IsAddend.stops_minus {t : Bool × List Expr} (ht : IsAddend t) (r : List Char) :
    Stops (· == '-') (factorsText t.2 ++ r) := by
  obtain ⟨s, fs⟩ := t
  obtain ⟨f, fs, rfl⟩ := List.exists_cons_of_ne_nil ht.separate.1
  rw [factorsText, List.append_assoc]
  exact (ht.factor f List.mem_cons_self).stops_minus _

/-- The addend can be read off. -/
def AddendReads (t : Bool × List Expr) : Prop := IsAddend t ∧ ∀ f ∈ t.2, Reads f

/-- The factors of an addend are read off up to where it ends. -/
theorem AddendReads.factors_eq {t u : Bool × List Expr} (ht : AddendReads t) (hu : IsAddend u)
    {r r' : List Char}
    (hr : EndsAddend r) (hr' : EndsAddend r') (h : factorsText t.2 ++ r = factorsText u.2 ++ r') :
    t.2 = u.2 ∧ r = r' :=
  factorsText_append_inj ht.2 hu.factor ht.1.separate.1 hu.separate.1 hr hr' h

/-- The addends of a sum can be read off. -/
theorem addendsText_append_inj {ts us : List (Bool × List Expr)} {r r' : List Char}
    (hts : ∀ t ∈ ts, AddendReads t) (hus : ∀ u ∈ us, IsAddend u) (hne : ts ≠ []) (hne' : us ≠ [])
    (hr : EndsSum r) (hr' : EndsSum r') (h : addendsText ts ++ r = addendsText us ++ r') :
    ts = us ∧ r = r' := by
  obtain ⟨t, ts, rfl⟩ := List.exists_cons_of_ne_nil hne
  obtain ⟨u, us, rfl⟩ := List.exists_cons_of_ne_nil hne'
  rw [List.forall_mem_cons] at hts hus
  simp only [addendsText, List.append_assoc] at h
  obtain ⟨hsign, hrest⟩ := minusText_append_inj (hts.1.1.stops_minus _) (hus.1.stops_minus _) h
  obtain ⟨hfactors, htail⟩ := hts.1.factors_eq hus.1 (flatMap_append_of endsAddend_sign hr.1)
    (flatMap_append_of endsAddend_sign hr'.1) hrest
  -- every further addend starts with a plus or a minus
  have hread : ∀ t ∈ ts, ∀ u : Bool × List Expr, IsAddend u → ∀ r r', EndsAddend r → EndsAddend r' →
      (if t.1 then '-' else '+') :: factorsText t.2 ++ r =
        (if u.1 then '-' else '+') :: factorsText u.2 ++ r' → t = u ∧ r = r' := by
    intro t ht u hu r r' hr hr' h
    obtain ⟨hsign, h⟩ := List.cons.inj h
    obtain ⟨hfactors, hrest⟩ := (hts.2 t ht).factors_eq hu hr hr' h
    refine ⟨Prod.ext ?_ hfactors, hrest⟩
    revert hsign
    cases t.1 <;> cases u.1 <;> decide
  obtain ⟨htail, hrest⟩ := flatMap_append_inj hread endsAddend_sign hus.2 ⟨hr.1, hr.ne_sign⟩
    ⟨hr'.1, hr'.ne_sign⟩ htail
  exact ⟨congrArg₂ List.cons (Prod.ext hsign hfactors) htail, hrest⟩

/-- A sum ends before a closing parenthesis. -/
theorem endsSum_right (r : List Char) : EndsSum (['\\', 'r', 'i', 'g', 'h', 't', ')'] ++ r) := by
  refine ⟨⟨?_, fun u h => ?_⟩, ?_⟩
  · rintro c ⟨⟩
    rfl
  · cases h
  · rintro c ⟨⟩
    rfl

theorem endsSum_nil : EndsSum [] := ⟨⟨by rintro c ⟨⟩, by rintro u ⟨⟩⟩, by rintro c ⟨⟩⟩

/-- A sum in parentheses is read off up to the parenthesis that closes it. -/
theorem groupText_append_inj {ts us : List (Bool × List Expr)} {r r' : List Char}
    (hts : ∀ t ∈ ts, AddendReads t) (hus : ∀ u ∈ us, IsAddend u) (hne : ts ≠ []) (hne' : us ≠ [])
    (h : groupText (addendsText ts) ++ r = groupText (addendsText us) ++ r') :
    ts = us ∧ r = r' := by
  simp only [groupText, List.append_assoc, List.append_cancel_left_eq] at h
  obtain ⟨hadd, hrest⟩ :=
    addendsText_append_inj hts hus hne hne' (endsSum_right r) (endsSum_right r') h
  exact ⟨hadd, List.append_cancel_left hrest⟩

/-- The shapes of factors without exponents can be told from their texts. -/
theorem Factor.shape_eq_of_text {f g : Expr} (hf : Factor f) (hg : Factor g)
    (hpower : f.shape ≠ .power)
    (hpower' : g.shape ≠ .power) {r r' : List Char} (h : factorText f ++ r = factorText g ++ r') :
    f.shape = g.shape := by
  rw [← hf.shape_eq hpower r, h, hg.shape_eq hpower']

/-- Factors without exponents can be told from their texts; sums since the factors of their addends
can. -/
theorem Factor.rootReads {f : Expr} (hf : Factor f) : RootReads f.root := by
  induction hf with
  | @number q hq =>
    intro g hg hpower r r' hr hr' h
    have hshape := (Factor.number hq).shape_eq_of_text hg (by rintro ⟨⟩) hpower h
    cases hg with
    | @number q' hq' =>
      change factorText (rational q) ++ r = _ at h
      rw [factorText, factorText, textIn_rational, textIn_rational, hq, hq', minusText_false,
        List.nil_append, List.nil_append] at h
      obtain ⟨hnum, hden, hrest⟩ := numberText_append_inj hr hr' h
      obtain ⟨_, _, _, _⟩ := q
      obtain ⟨_, _, _, _⟩ := q'
      cases hq
      cases hq'
      cases hnum
      cases hden
      exact ⟨rfl, hrest⟩
    | letter | group | power => cases hshape
  | @letter c hc =>
    intro g hg hpower r r' hr hr' h
    have hshape := (Factor.letter hc).shape_eq_of_text hg (by rintro ⟨⟩) hpower h
    cases hg with
    | @letter c' hc' =>
      change factorText (symbol false c) ++ r = _ at h
      rw [factorText, factorText, textIn_symbol, textIn_symbol] at h
      obtain ⟨rfl, hrest⟩ := List.cons.inj h
      exact ⟨rfl, hrest⟩
    | number | group | power => cases hshape
  | @group ts nonempty separate factors ih =>
    intro g hg hpower r r' hr hr' h
    have hshape :=
      (Factor.group nonempty separate factors).shape_eq_of_text hg (by rintro ⟨⟩) hpower h
    cases hg with
    | @group us nonempty' separate' factors' =>
      have hts : ∀ t ∈ ts, AddendReads t := fun t ht =>
        ⟨⟨separate t ht, factors t ht⟩, fun f hf => (ih t ht f hf).reads (factors t ht f hf)⟩
      have hus : ∀ u ∈ us, IsAddend u := fun u hu => ⟨separate' u hu, factors' u hu⟩
      change factorText (sum false _) ++ r = _ at h
      rw [factorText_group fun t ht => (hts t ht).1, factorText_group hus] at h
      obtain ⟨rfl, hrest⟩ := groupText_append_inj hts hus nonempty nonempty' h
      exact ⟨rfl, hrest⟩
    | number | letter | power => cases hshape
  | power _ _ ih => exact ih

/-- Every factor is read off, by induction on factors and the addends in their parentheses. -/
theorem Factor.reads {f : Expr} (hf : Factor f) : Reads f := hf.rootReads.reads hf

/-! ### Polynomials -/

/-- Letters are letters. -/
def LetterNode : Expr → Prop
  | symbol _ c => Text.isLetter c = true
  | _ => True

instance : DecidablePred LetterNode
  | symbol _ c => inferInstanceAs (Decidable (Text.isLetter c = true))
  | rational _ | sum .. | product .. | power .. => inferInstanceAs (Decidable True)

/-- A polynomial that simplification has returned. -/
structure SimplePolynomial (e : Expr) : Prop where
  simplified : ∃ e', simplify e' = .ok e
  polynomial : Everywhere PolynomialNode e
  letters : Everywhere LetterNode e

/-- A tidy polynomial with letters as symbols is legible. -/
theorem legible_of_tidy {e : Expr} (ht : Tidy e) (hp : Everywhere PolynomialNode e)
    (hl : Everywhere LetterNode e) : Everywhere LegibleNode e := by
  induction e using children_induction with
  | rational q => exact everywhere_rational_iff.2 trivial
  | symbol s c =>
    have hc := everywhere_symbol_iff.1 hl
    exact everywhere_symbol_iff.2 hc
  | sum s es ih =>
    obtain ⟨htidy, hlength, -, hform⟩ := shaped_sum_iff.1 ht
    have hp := (everywhere_sum_iff.1 hp).2
    have hl := (everywhere_sum_iff.1 hl).2
    exact everywhere_sum_iff.2 ⟨⟨hlength, hform.noSum⟩,
      fun e he => ih e he (htidy e he) (hp e he) (hl e he)⟩
  | product s es ih =>
    obtain ⟨htidy, hlength, -, hform⟩ := shaped_product_iff.1 ht
    have hp := (everywhere_product_iff.1 hp).2
    have hl := (everywhere_product_iff.1 hl).2
    exact everywhere_product_iff.2
      ⟨⟨hlength, fun e he => ⟨hform.unsigned e he, hform.noProduct e he⟩⟩,
      fun e he => ih e he (htidy e he) (hp e he) (hl e he)⟩
  | power s b x ihb ihx =>
    obtain ⟨hb, hx, hform⟩ := shaped_power_iff.1 ht
    obtain ⟨hnode, hpb, hpx⟩ := everywhere_power_iff.1 hp
    obtain ⟨-, hlb, hlx⟩ := everywhere_power_iff.1 hl
    refine everywhere_power_iff.2 ⟨⟨hform.unsigned, ?_⟩, ihb hb hpb hlb, ihx hx hpx hlx⟩
    cases x with
    | rational q =>
      obtain ⟨hnum, hden, hnegated⟩ := hnode
      refine ⟨q.num, hnum, ?_⟩
      obtain ⟨_, _, _, _⟩ := q
      cases hden
      cases hnegated
      rfl
    | symbol | sum | product | power => exact hnode.elim

/-- A simplified polynomial is legible. -/
theorem SimplePolynomial.legible {e : Expr} (h : SimplePolynomial e) :
    Everywhere LegibleNode e := by
  obtain ⟨e', he'⟩ := h.simplified
  exact legible_of_tidy (tidy_of_simplifyWithin he') h.polynomial h.letters

/-- A legible expression shows an addend. -/
theorem shownAddends_ne_nil {e : Expr} (he : LegibleNode e) : e.shownAddends ≠ [] := by
  cases e with
  | sum s es =>
    cases s with
    | false =>
      intro h
      have hlength := he.1
      rw [List.map_eq_nil_iff.1 h] at hlength
      cases hlength
    | true => exact List.cons_ne_nil _ _
  | rational | symbol | product | power => exact List.cons_ne_nil _ _

/-- Polynomials have the same formula exactly if they are the same as they are read. -/
theorem latex_eq_iff_spread_eq {a b : Expr} (ha : Everywhere LegibleNode a)
    (hb : Everywhere LegibleNode b) : a.latex = b.latex ↔ a.spread = b.spread := by
  have hadd := isAddend_of_mem_shownAddends ha
  have hadd' := isAddend_of_mem_shownAddends hb
  rw [← String.toList_inj, toList_latex ha, toList_latex hb, spread_eq_assembled ha.self,
    spread_eq_assembled hb.self]
  constructor
  · intro h
    have hreads : ∀ t ∈ a.shownAddends, AddendReads t := fun t ht =>
      ⟨hadd t ht, fun f hf => ((hadd t ht).factor f hf).reads⟩
    obtain ⟨heq, -⟩ := addendsText_append_inj hreads hadd' (shownAddends_ne_nil ha.self)
      (shownAddends_ne_nil hb.self) endsSum_nil endsSum_nil (congrArg (· ++ []) h)
    rw [heq]
  · intro h
    rw [← readAddends_assembled hadd, h, readAddends_assembled hadd']

/-- No product is raised to a power. -/
def PlainBase : Expr → Prop
  | power _ b _ => b.shape ≠ .product
  | _ => True

instance : DecidablePred PlainBase
  | power _ b _ => inferInstanceAs (Decidable (b.shape ≠ .product))
  | rational _ | symbol .. | sum .. | product .. => inferInstanceAs (Decidable True)

/-- Putting an addend together again gives the expression that it was read from. -/
theorem signedProduct_readAddend {e : Expr} (he : LegibleNode e) :
    signedProduct e.readAddend.1 e.readAddend.2 = e := by
  cases e with
  | product s es =>
    rcases es with _ | ⟨a, _ | ⟨b, es⟩⟩
    · cases he.1
    · exact absurd he.1 (Nat.not_succ_le_self 1)
    · rfl
  | rational | symbol | sum | power => rfl

/-- What shows just its own factors is read as it is. -/
theorem spread_eq_of_shownAddend {e : Expr} (he : LegibleNode e)
    (h : e.shownAddend = e.readAddend) : e.spread = e :=
  (congrArg (fun t : Bool × List Expr => signedProduct t.1 t.2) h).trans
    (signedProduct_readAddend he)

theorem readAddend_of_ne {e : Expr} (h : e.shape ≠ .product) :
    e.readAddend = (e.negated, [e.sign false]) := by
  cases e with
  | product => exact absurd rfl h
  | rational | symbol | sum | power => rfl

/-- Without powers of products an expression shows its own factors. -/
theorem shownAddend_eq_readAddend {e : Expr} (he : Everywhere LegibleNode e)
    (hb : Everywhere PlainBase e) : e.shownAddend = e.readAddend := by
  have hone {e : Expr} (h : e.shownAddend = e.readAddend) (hs : e.negated = false)
      (hshape : e.shape ≠ .product) : e.shownFactors = [e] := by
    rw [readAddend_of_ne hshape, sign_eq_self hs] at h
    exact (Prod.mk.inj h).2
  induction e using children_induction with
  | rational | symbol => rfl
  | sum s es ih =>
    have hes := (everywhere_sum_iff.1 he).2
    have hbs := (everywhere_sum_iff.1 hb).2
    have hself : ∀ e ∈ es, e.spread = e := fun e h =>
      spread_eq_of_shownAddend (hes e h).self (ih e h (hes e h) (hbs e h))
    rw [shownAddend, shownFactors, spreadAll_eq_map, List.map_congr_left hself, List.map_id']
    rfl
  | product s es ih =>
    obtain ⟨⟨-, hunsigned⟩, hes⟩ := everywhere_product_iff.1 he
    have hbs := (everywhere_product_iff.1 hb).2
    have hself : ∀ e ∈ es, e.shownFactors = [e] := fun e h =>
      hone (ih e h (hes e h) (hbs e h)) (hunsigned e h).1 (hunsigned e h).2
    rw [shownAddend, shownFactors, shownFactorsAll_eq_flatMap, List.flatMap_congr hself,
      List.flatMap_singleton']
    rfl
  | power s b x ih _ =>
    obtain ⟨⟨hunsigned, -⟩, hlegible, -⟩ := everywhere_power_iff.1 he
    obtain ⟨hplain, hbase, -⟩ := everywhere_power_iff.1 hb
    rw [shownAddend, shownFactors, hone (ih hlegible hbase) hunsigned hplain]
    rfl

/-- A legible expression without powers of products is read as it is. -/
theorem spread_eq_self {e : Expr} (he : Everywhere LegibleNode e) (hb : Everywhere PlainBase e) :
    e.spread = e :=
  spread_eq_of_shownAddend he.self (shownAddend_eq_readAddend he hb)

/-- The formula of a simplified polynomial shows how it is read and no more; if no product is raised
to a power, that is the polynomial. -/
theorem latex_eq_iff_read_alike {a b : Expr} (ha : SimplePolynomial a) (hb : SimplePolynomial b) :
    (a.latex = b.latex ↔ a.spread = b.spread) ∧
      (Everywhere PlainBase a → Everywhere PlainBase b → a.latex = b.latex → a = b) := by
  have hiff := latex_eq_iff_spread_eq ha.legible hb.legible
  refine ⟨hiff, fun hplain hplain' h => ?_⟩
  rw [← spread_eq_self ha.legible hplain, hiff.1 h, spread_eq_self hb.legible hplain']

/-- The square of twice `x`. -/
abbrev squareOfProduct : Expr := power false (product false [ofNat 2, symbol false 'x']) (ofNat 2)

/-- Twice the square of `x`. -/
abbrev productOfSquare : Expr := product false [ofNat 2, power false (symbol false 'x') (ofNat 2)]

/-- The square of `x` times `1 + y`. -/
abbrev squareTimesSum : Expr :=
  product false [power false (symbol false 'x') (ofNat 2), sum false [ofNat 1, symbol false 'y']]

/-- A square of a product is written like a product with a square, and unlike a square times a
sum. -/
theorem latex_eq_iff_read_alike_square :
    SimplePolynomial squareOfProduct ∧ SimplePolynomial productOfSquare ∧
      SimplePolynomial squareTimesSum ∧
      squareOfProduct.latex = productOfSquare.latex ∧
        productOfSquare.latex ≠ squareTimesSum.latex := by
  have hsquare : SimplePolynomial squareOfProduct :=
    ⟨⟨squareOfProduct, by decide +kernel⟩, by decide, by decide +kernel⟩
  have hproduct : SimplePolynomial productOfSquare :=
    ⟨⟨productOfSquare, by decide +kernel⟩, by decide, by decide +kernel⟩
  have hsum : SimplePolynomial squareTimesSum :=
    ⟨⟨squareTimesSum, by decide +kernel⟩, by decide, by decide +kernel⟩
  have hne : productOfSquare ≠ squareTimesSum := by decide
  exact ⟨hsquare, hproduct, hsum, (latex_eq_iff_read_alike hsquare hproduct).1.2 rfl,
    fun h => hne ((latex_eq_iff_read_alike hproduct hsum).2 (by decide) (by decide) h)⟩

/-- The square of twice `x` is written like twice the square of `x`. -/
theorem not_latex_determines_value :
    simplify squareOfProduct = .ok squareOfProduct ∧
      simplify productOfSquare = .ok productOfSquare ∧
      Everywhere PolynomialNode squareOfProduct ∧ Everywhere PolynomialNode productOfSquare ∧
      squareOfProduct.latex = productOfSquare.latex ∧
      value (fun _ => (1 : ℚ)) squareOfProduct = 4 ∧
        value (fun _ => (1 : ℚ)) productOfSquare = 2 := by
  have htwo : (ofNat 2).integer = 2 := rfl
  refine ⟨by decide +kernel, by decide +kernel, by decide, by decide, by decide +kernel, ?_, ?_⟩ <;>
    norm_num [value, valueProduct, htwo]

end SymScript.Expr
