import SymScript.Proofs.Grammar

/-!
# What the parser reads

How far a parse gets depends on the kinds of the tokens alone, and not on how tightly operators
bind.  A recognizer says what is left of a list of kinds, and the recognizers of expressions and
conditions here have no levels: operands with operators between them, and simple conditions with
connectives between them.  Their equations need no bound on the depth, since every call is made on a
shorter list.
-/

namespace SymScript

/-- What is left of a list of kinds, if its beginning can be read. -/
abbrev Recognizer := List TokenKind → Option (List TokenKind)

namespace TokenKind

/-- An operator between two operands. -/
def isOperator (k : TokenKind) : Bool := k.isSign || k.isFactorOperator || k = caret

/-- An operator that holds operands together more tightly than a sign. -/
def isTight (k : TokenKind) : Bool := k.isFactorOperator || k = caret

/-- A connective between two conditions. -/
def isConnective (k : TokenKind) : Bool := k = and || k = or

def isTruthValue (k : TokenKind) : Bool := k = .true || k = .false

theorem isConnective_iff {k : TokenKind} : k.isConnective ↔ k = and ∨ k = or := by
  simp [isConnective]

theorem isTruthValue_iff {k : TokenKind} : k.isTruthValue ↔ k = .true ∨ k = .false := by
  simp [isTruthValue]

end TokenKind

namespace Recognizer

/-- The next kind; nothing but the end comes after the last one. -/
def next (ks : List TokenKind) : TokenKind := ks.headD .eof

@[simp] theorem next_cons (k : TokenKind) (ks : List TokenKind) : next (k :: ks) = k := rfl

/-! ### Loops -/

/-- The recognizer reads at least one token. -/
def Shrinks (r : Recognizer) : Prop := ∀ {ks us : List TokenKind}, r ks = some us →
    us.length < ks.length

/-- Goes on reading as long as the next kind joins. -/
def loop (r : Recognizer) (joins : TokenKind → Bool) (ks : List TokenKind) :
    Option (List TokenKind) :=
  match ks with
  | [] => some []
  | k :: ks =>
    if joins k then
      match r ks with
      | some us => if us.length ≤ ks.length then loop r joins us else none
      | none => none
    else some (k :: ks)
termination_by ks.length

/-- Reads something once, and again after every kind that joins. -/
def chain (r : Recognizer) (joins : TokenKind → Bool) : Recognizer :=
  fun ks => (r ks).bind (loop r joins)

section Loop

variable {r r' : Recognizer} {p q : TokenKind → Bool} {ks us : List TokenKind} {k : TokenKind}

@[simp] theorem loop_nil : loop r p [] = some [] := by rw [loop]

theorem loop_of_not (h : p k = false) : loop r p (k :: ks) = some (k :: ks) := by
  rw [loop, h]
  rfl

/-- A loop that goes on is a chain. -/
theorem loop_of_joins (hr : Shrinks r) (h : p k = true) : loop r p (k :: ks) = chain r p ks := by
  rw [loop, if_pos h, chain]
  cases hks : r ks with
  | none => rfl
  | some us => exact if_pos (Nat.le_of_lt (hr hks))

/-- A loop leaves no more than it was given. -/
theorem length_of_loop (hr : Shrinks r) (h : loop r p ks = some us) : us.length ≤ ks.length := by
  induction hn : ks.length using Nat.strongRecOn generalizing ks with
  | ind n ih =>
    cases ks with
    | nil =>
      rw [loop_nil] at h
      cases h
      exact Nat.zero_le _
    | cons k ks =>
      cases hk : p k with
      | false =>
        rw [loop_of_not hk] at h
        cases h
        exact Nat.le_of_eq hn
      | true =>
        rw [loop_of_joins hr hk] at h
        obtain ⟨vs, hvs, h⟩ := Option.bind_eq_some_iff.1 h
        have hlt := hr hvs
        rw [List.length_cons] at hn
        have := ih vs.length (by omega) h rfl
        omega

/-- A chain leaves less than it was given, since its first member does. -/
theorem chain_shrinks (hr : Shrinks r) : Shrinks (chain r p) := by
  intro ks us h
  obtain ⟨vs, hvs, h⟩ := Option.bind_eq_some_iff.1 h
  exact Nat.lt_of_le_of_lt (length_of_loop hr h) (hr hvs)

/-- A loop ends where nothing joins. -/
theorem next_of_loop (hr : Shrinks r) (hp : p .eof = false) (h : loop r p ks = some us) :
    p (next us) = false := by
  induction hn : ks.length using Nat.strongRecOn generalizing ks with
  | ind n ih =>
    cases ks with
    | nil =>
      rw [loop_nil] at h
      cases h
      exact hp
    | cons k ks =>
      cases hk : p k with
      | false =>
        rw [loop_of_not hk] at h
        cases h
        exact hk
      | true =>
        rw [loop_of_joins hr hk] at h
        obtain ⟨vs, hvs, h⟩ := Option.bind_eq_some_iff.1 h
        have hlt := hr hvs
        rw [List.length_cons] at hn
        exact ih vs.length (by omega) h rfl

/-- A chain goes on for as long as it can. -/
theorem next_of_chain (hr : Shrinks r) (hp : p .eof = false) (h : chain r p ks = some us) :
    p (next us) = false := by
  obtain ⟨vs, -, h⟩ := Option.bind_eq_some_iff.1 h
  exact next_of_loop hr hp h

/-- A loop over fewer kinds, and then one over more, is the loop over more of them. -/
theorem loop_bind_loop (hr : Shrinks r) (hpq : ∀ k, p k = true → q k = true) (ks : List TokenKind) :
    (loop r p ks).bind (loop r q) = loop r q ks := by
  induction hn : ks.length using Nat.strongRecOn generalizing ks with
  | ind n ih =>
    cases ks with
    | nil => rw [loop_nil, Option.bind_some]
    | cons k ks =>
      cases hk : p k with
      | false => rw [loop_of_not hk, Option.bind_some]
      | true =>
        rw [loop_of_joins hr hk, loop_of_joins hr (hpq k hk), chain, chain, Option.bind_assoc]
        cases hvs : r ks with
        | none => rfl
        | some vs =>
          have hlt := hr hvs
          rw [List.length_cons] at hn
          exact ih vs.length (by omega) vs rfl

/-- A chain with fewer separators, continued with more of them, is the chain with more. -/
theorem chain_bind_loop (hr : Shrinks r) (hpq : ∀ k, p k = true → q k = true)
    (ks : List TokenKind) : (chain r p ks).bind (loop r q) = chain r q ks := by
  rw [chain, chain, Option.bind_assoc]
  exact congrArg (Option.bind (r ks)) (funext (loop_bind_loop hr hpq))

/-- A loop depends on what its body does to shorter lists. -/
theorem loop_congr (h : ∀ us, us.length < ks.length → r us = r' us) :
    loop r p ks = loop r' p ks := by
  induction hn : ks.length using Nat.strongRecOn generalizing ks with
  | ind n ih =>
    cases ks with
    | nil => rw [loop_nil, loop_nil]
    | cons k ks =>
      rw [loop, loop, h ks (Nat.lt_succ_self _)]
      split
      · split
        · rename_i us _
          split
          · rename_i hle
            rw [List.length_cons] at hn
            exact ih us.length (by omega) (fun vs hvs => h vs (by rw [List.length_cons]; omega)) rfl
          · rfl
        · rfl
      · rfl

/-- A chain depends on its recognizer only up to the length of the list. -/
theorem chain_congr (hr : Shrinks r) (h : ∀ us, us.length ≤ ks.length → r us = r' us) :
    chain r p ks = chain r' p ks := by
  rw [chain, chain, ← h ks (Nat.le_refl _)]
  cases hks : r ks with
  | none => rfl
  | some us =>
    have hlt := hr hks
    exact loop_congr fun vs hvs => h vs (by omega)

end Loop

/-! ### Recursion on the length -/

/-- A body that is called on shorter lists only. -/
structure Local (body : Recognizer → Recognizer) : Prop where
  congr : ∀ {r r' : Recognizer} {ks : List TokenKind}, Shrinks r →
    (∀ us, us.length < ks.length → r us = r' us) → body r ks = body r' ks
  shrinks : ∀ {r : Recognizer}, Shrinks r → Shrinks (body r)

def within (body : Recognizer → Recognizer) : Nat → Recognizer
  | 0 => fun _ => none
  | n + 1 => body (within body n)

/-- The recognizer that a body describes. -/
def fix (body : Recognizer → Recognizer) : Recognizer := fun ks => within body (ks.length + 1) ks

section Fix

variable {body : Recognizer → Recognizer} (hbody : Local body)

include hbody

/-- The recursion leaves less at every depth. -/
theorem within_shrinks (n : Nat) : Shrinks (within body n) := by
  induction n with
  | zero =>
    intro ks us h
    cases h
  | succ n ih => exact hbody.shrinks ih

/-- The length of the list is bound enough. -/
theorem within_eq_fix {n : Nat} {ks : List TokenKind} (hn : ks.length < n) :
    within body n ks = fix body ks := by
  induction hl : ks.length using Nat.strongRecOn generalizing n ks with
  | ind l ih =>
    subst hl
    obtain ⟨n, rfl⟩ := Nat.exists_eq_add_one_of_ne_zero (Nat.ne_of_gt (Nat.zero_lt_of_lt hn))
    refine hbody.congr (within_shrinks hbody n) fun us hus => ?_
    rw [ih us.length hus (by omega) rfl, ih us.length hus hus rfl]

/-- The recursion leaves less. -/
theorem fix_shrinks : Shrinks (fix body) := fun h => within_shrinks hbody _ h

/-- The recursion unfolds: what its body calls is applied to shorter lists. -/
theorem fix_eq (ks : List TokenKind) : fix body ks = body (fix body) ks :=
  hbody.congr (within_shrinks hbody _) fun _ hus => within_eq_fix hbody hus

end Fix

/-! ### Expressions -/

def expect (k : TokenKind) : Recognizer
  | [] => none
  | l :: ks => if l = k then some ks else none

def takeAny : Recognizer
  | [] => none
  | _ :: ks => some ks

/-- Operands with operators between them. -/
def sum (operand : Recognizer) : Recognizer := chain operand TokenKind.isOperator

/-- The arguments of a call, after its opening parenthesis. -/
def arguments (operand : Recognizer) (ks : List TokenKind) : Option (List TokenKind) :=
  if next ks = .rightParen then some ks.tail
  else (chain (sum operand) (· = .comma) ks).bind (expect .rightParen)

def operandBody (operand : Recognizer) : Recognizer
  | [] => none
  | k :: ks =>
    if k.isSign then operand ks
    else if k = .leftParen then (sum operand ks).bind (expect .rightParen)
    else if k = .id && next ks = .leftParen then arguments operand ks.tail
    else some ks

/-- A signed operand, an expression in parentheses, a call, or any single token. -/
def operand : Recognizer := fix operandBody

def expression : Recognizer := sum operand

/-- What follows an operand of an expression. -/
def operators : Recognizer := loop operand TokenKind.isOperator

/-- A kind is expected in front, and taken. -/
theorem expect_eq_some_iff {k : TokenKind} {ks us : List TokenKind} :
    expect k ks = some us ↔ ks = k :: us := by
  cases ks with
  | nil =>
    constructor
    · rintro ⟨⟩
    · rintro ⟨⟩
  | cons l ks =>
    rw [expect]
    split
    · rename_i hl
      rw [hl, Option.some_inj, List.cons_inj_right]
    · rename_i hl
      constructor
      · rintro ⟨⟩
      · rintro ⟨⟩
        exact absurd rfl hl

theorem expect_shrinks (k : TokenKind) : Shrinks (expect k) := by
  intro ks us h
  rw [expect_eq_some_iff.1 h]
  exact Nat.lt_succ_self _

/-- Two recognizers in a row leave less. -/
theorem bind_shrinks {r s : Recognizer} (hr : Shrinks r) (hs : Shrinks s) :
    Shrinks fun ks => (r ks).bind s := by
  intro ks us h
  obtain ⟨vs, hvs, h⟩ := Option.bind_eq_some_iff.1 h
  exact Nat.lt_trans (hs h) (hr hvs)

/-- Operands call the recursion on shorter lists only. -/
theorem operandBody_local : Local operandBody where
  congr {r r' ks} hr h := by
    cases ks with
    | nil => rfl
    | cons k ks =>
      have hsum {us : List TokenKind} (hus : us.length ≤ ks.length) : sum r us = sum r' us :=
        chain_congr hr fun vs hvs => h vs (by rw [List.length_cons]; omega)
      have htail : ks.tail.length ≤ ks.length := by rw [List.length_tail]; omega
      have hlist : chain (sum r) (· = .comma) ks.tail = chain (sum r') (· = .comma) ks.tail :=
        chain_congr (chain_shrinks hr) fun vs hvs => hsum (Nat.le_trans hvs htail)
      rw [operandBody, operandBody, h ks (Nat.lt_succ_self _), hsum (Nat.le_refl _),
        arguments, arguments, hlist]
  shrinks {r} hr := by
    intro ks us h
    cases ks with
    | nil => cases h
    | cons k ks =>
      have hsum : Shrinks (sum r) := chain_shrinks hr
      rw [operandBody] at h
      rw [List.length_cons]
      split at h
      · exact Nat.lt_succ_of_lt (hr h)
      split at h
      · exact Nat.lt_succ_of_lt (bind_shrinks hsum (expect_shrinks _) h)
      split at h
      · have htail : ks.tail.length ≤ ks.length := by rw [List.length_tail]; omega
        rw [arguments] at h
        split at h
        · cases h
          rw [List.length_tail]
          omega
        · have := bind_shrinks (chain_shrinks hsum) (expect_shrinks _) h
          omega
      · cases h
        exact Nat.lt_succ_self _

theorem operand_shrinks : Shrinks operand := fix_shrinks operandBody_local

theorem expression_shrinks : Shrinks expression := chain_shrinks operand_shrinks

/-- The alternatives for an operand, by the first token. -/
theorem operand_cons (k : TokenKind) (ks : List TokenKind) : operand (k :: ks) =
    if k.isSign then operand ks
    else if k = .leftParen then (expression ks).bind (expect .rightParen)
    else if k = .id && next ks = .leftParen then arguments operand ks.tail
    else some ks :=
  fix_eq operandBody_local (k :: ks)

@[simp] theorem operand_nil : operand [] = none := fix_eq operandBody_local []

/-- Powers with the operators of products between them. -/
theorem chain_caret_bind (ks : List TokenKind) :
    (chain operand (· = .caret) ks).bind (loop operand TokenKind.isTight) =
      chain operand TokenKind.isTight ks := by
  refine chain_bind_loop operand_shrinks (fun k hk => ?_) ks
  rw [of_decide_eq_true hk]
  rfl

/-- Products with signs between them. -/
theorem chain_tight_bind (ks : List TokenKind) :
    (chain operand TokenKind.isTight ks).bind operators = expression ks := by
  refine chain_bind_loop operand_shrinks (fun k hk => ?_) ks
  rw [TokenKind.isTight] at hk
  rw [TokenKind.isOperator, Bool.or_assoc, hk, Bool.or_true]

/-! ### Conditions -/

/-- Two expressions with any token between them. -/
def comparison : Recognizer := fun ks => ((expression ks).bind takeAny).bind expression

/-- The closing parenthesis of a condition, before something that can follow a condition. -/
def close (ks : List TokenKind) : Option (List TokenKind) :=
  if next ks = .rightParen && (next ks.tail).followsCondition then some ks.tail else none

def simpleBody (simple : Recognizer) : Recognizer
  | [] => none
  | k :: ks =>
    if k = .not then simple ks
    else if k.isTruthValue then some ks
    else if k = .leftParen then
      ((chain simple TokenKind.isConnective ks).bind close).or (comparison (k :: ks))
    else comparison (k :: ks)

/-- A negation, a truth value, a condition in parentheses, or a comparison. -/
def simple : Recognizer := fix simpleBody

/-- Simple conditions with connectives between them. -/
def condition : Recognizer := chain simple TokenKind.isConnective

/-- What follows a simple condition. -/
def connectives : Recognizer := loop simple TokenKind.isConnective

theorem takeAny_shrinks : Shrinks takeAny := by
  intro ks us h
  cases ks with
  | nil => cases h
  | cons k ks =>
    cases h
    exact Nat.lt_succ_self _

theorem comparison_shrinks : Shrinks comparison :=
  bind_shrinks (bind_shrinks expression_shrinks takeAny_shrinks) expression_shrinks

/-- Closing a parenthesis leaves no more. -/
theorem length_of_close {ks us : List TokenKind} (h : close ks = some us) :
    us.length ≤ ks.length := by
  rw [close] at h
  split at h <;> cases h
  rw [List.length_tail]
  omega

/-- Simple conditions call the recursion on shorter lists only. -/
theorem simpleBody_local : Local simpleBody where
  congr {r r' ks} hr h := by
    cases ks with
    | nil => rfl
    | cons k ks =>
      have hchain : chain r TokenKind.isConnective ks = chain r' TokenKind.isConnective ks :=
        chain_congr hr fun vs hvs => h vs (by rw [List.length_cons]; omega)
      rw [simpleBody, simpleBody, h ks (Nat.lt_succ_self _), hchain]
  shrinks {r} hr := by
    intro ks us h
    cases ks with
    | nil => cases h
    | cons k ks =>
      rw [simpleBody] at h
      split at h
      · exact Nat.lt_succ_of_lt (hr h)
      split at h
      · cases h
        exact Nat.lt_succ_self _
      split at h
      · rcases Option.or_eq_some_iff.1 h with h | ⟨-, h⟩
        · obtain ⟨vs, hvs, h⟩ := Option.bind_eq_some_iff.1 h
          have hlt := chain_shrinks hr hvs
          have hle := length_of_close h
          rw [List.length_cons]
          omega
        · exact comparison_shrinks h
      · exact comparison_shrinks h

theorem simple_shrinks : Shrinks simple := fix_shrinks simpleBody_local

/-- The alternatives for a simple condition, by the first token. -/
theorem simple_cons (k : TokenKind) (ks : List TokenKind) : simple (k :: ks) =
    if k = .not then simple ks
    else if k.isTruthValue then some ks
    else if k = .leftParen then ((condition ks).bind close).or (comparison (k :: ks))
    else comparison (k :: ks) :=
  fix_eq simpleBody_local (k :: ks)

@[simp] theorem simple_nil : simple [] = none := fix_eq simpleBody_local []

/-- Conjunctions with disjunctions between them. -/
theorem chain_and_bind (ks : List TokenKind) :
    (chain simple (· = .and) ks).bind connectives = condition ks := by
  refine chain_bind_loop simple_shrinks (fun k hk => ?_) ks
  rw [of_decide_eq_true hk]
  rfl

end Recognizer

end SymScript
