import SymScript.Proofs.Recognizer

/-!
# Derivations of expressions and conditions

The expressions and conditions of the grammar as trees over kinds of tokens.  A derivation says what
stands in parentheses and not how tightly operators bind, so one list of kinds may have many.  The
recognizer of expressions reads every expression to its end, whatever follows that does not make a
call of its last name.
-/

namespace SymScript

namespace TokenKind

/-- A token that is an operand on its own. -/
def isLeaf (k : TokenKind) : Bool := k = id || k = nat || k = sym

theorem isLeaf_iff {k : TokenKind} : k.isLeaf ↔ k = id ∨ k = nat ∨ k = sym := by
  simp [isLeaf, or_assoc]

def compares (k : TokenKind) : Bool := k = leq || k = lt || k = eq || k = gt || k = geq

theorem compares_iff {k : TokenKind} :
    k.compares ↔ k = leq ∨ k = lt ∨ k = eq ∨ k = gt ∨ k = geq := by
  simp [compares, or_assoc]

/-- The kinds that expressions begin with. -/
def opensPhrase (k : TokenKind) : Bool := k.isLeaf || k = leftParen || k.isSign

end TokenKind

/-- A derivation of an expression. -/
inductive Phrase where
  | leaf (k : TokenKind) (h : k.isLeaf = true)
  | call (arguments : List Phrase)
  | group (inner : Phrase)
  | signed (sign : TokenKind) (h : sign.isSign = true) (inner : Phrase)
  | binary (l : Phrase) (op : TokenKind) (h : op.isOperator = true) (r : Phrase)

namespace Phrase

/-- Induction on expressions, with the arguments of a call at once. -/
@[elab_as_elim, induction_eliminator]
theorem induct {motive : Phrase → Prop} (leaf : ∀ k h, motive (leaf k h))
    (call : ∀ es, (∀ e ∈ es, motive e) → motive (call es))
    (group : ∀ e, motive e → motive (group e)) (signed : ∀ s h e, motive e → motive (signed s h e))
    (binary : ∀ l op h r, motive l → motive r → motive (binary l op h r)) (e : Phrase) : motive e :=
  @Phrase.rec motive (fun es => ∀ e ∈ es, motive e) leaf call group signed binary
    (fun _ h => absurd h List.not_mem_nil) (fun _ _ he hes => List.forall_mem_cons.2 ⟨he, hes⟩) e

mutual

/-- The kinds of the tokens of an expression. -/
def kinds : Phrase → List TokenKind
  | leaf k _ => [k]
  | call [] => [.id, .leftParen, .rightParen]
  | call (e :: es) => .id :: .leftParen :: (e.kinds ++ (listed es ++ [.rightParen]))
  | group e => .leftParen :: (e.kinds ++ [.rightParen])
  | signed s _ e => s :: e.kinds
  | binary l op _ r => l.kinds ++ op :: r.kinds

/-- The arguments after the first, each with a comma before it. -/
def listed : List Phrase → List TokenKind
  | [] => []
  | e :: es => .comma :: (e.kinds ++ listed es)

end

section Append

variable (K : List TokenKind)

theorem kinds_group_append (e : Phrase) :
    (group e).kinds ++ K = .leftParen :: (e.kinds ++ .rightParen :: K) := by
  rw [kinds, List.cons_append, List.append_assoc]
  rfl

theorem kinds_binary_append (l : Phrase) (op : TokenKind) (h : op.isOperator = true) (r : Phrase) :
    (binary l op h r).kinds ++ K = l.kinds ++ op :: (r.kinds ++ K) := by
  rw [kinds, List.append_assoc]
  rfl

theorem kinds_call_append (e : Phrase) (es : List Phrase) :
    (call (e :: es)).kinds ++ K =
      .id :: .leftParen :: (e.kinds ++ (listed es ++ .rightParen :: K)) := by
  rw [kinds, List.cons_append, List.cons_append, List.append_assoc, List.append_assoc]
  rfl

theorem listed_cons_append (e : Phrase) (es : List Phrase) :
    listed (e :: es) ++ K = .comma :: (e.kinds ++ (listed es ++ K)) := by
  rw [listed, List.cons_append, List.append_assoc]

end Append

/-- Induction along the beginning of an expression, down to where no parenthesis stands there. -/
@[elab_as_elim]
theorem inductLeft {motive : Phrase → Prop}
    (other : ∀ e, Recognizer.next e.kinds ≠ .leftParen → motive e)
    (group : ∀ e, motive e → motive (group e))
    (binary : ∀ l op h r, motive l → motive (binary l op h r)) (e : Phrase) : motive e := by
  induction e with
  | leaf k h => exact other _ (by rintro rfl; cases h)
  | call es ih => exact other _ (by cases es <;> rintro ⟨⟩)
  | signed s h e ih => exact other _ (by rintro rfl; cases h)
  | group e ih => exact group e ih
  | binary l op h r ihl ihr => exact binary l op h r ihl

/-- The expression is one in parentheses. -/
def isGroup : Phrase → Bool
  | group _ => true
  | _ => false

/-- The expression begins with a sign. -/
def beginsSigned (e : Phrase) : Bool := (Recognizer.next e.kinds).isSign

end Phrase

/-- A derivation of a condition. -/
inductive Clause where
  | truth (k : TokenKind) (h : k.isTruthValue = true)
  | compare (l : Phrase) (op : TokenKind) (h : op.compares = true) (r : Phrase)
  | negation (c : Clause)
  | group (c : Clause)
  | join (l : Clause) (k : TokenKind) (h : k.isConnective = true) (r : Clause)

namespace Clause

/-- The kinds of the tokens of a condition. -/
def kinds : Clause → List TokenKind
  | truth k _ => [k]
  | compare l op _ r => l.kinds ++ op :: r.kinds
  | negation c => .not :: c.kinds
  | group c => .leftParen :: (c.kinds ++ [.rightParen])
  | join l k _ r => l.kinds ++ k :: r.kinds

/-- No comparison within parentheses has an expression in parentheses on its left and a sign right
after its operator.  `inside` says whether the condition itself stands within parentheses. -/
def safe (inside : Bool) : Clause → Bool
  | truth .. => true
  | compare l _ _ r => !(inside && l.isGroup && r.beginsSigned)
  | negation c => c.safe inside
  | group c => c.safe true
  | join l _ _ r => l.safe inside && r.safe inside

end Clause

namespace Recognizer

variable {k : TokenKind} {ks K : List TokenKind}

/-! ### One step of the recognizers -/

/-- A sign in front does not change what is left. -/
theorem expression_sign (hk : k.isSign = true) : expression (k :: ks) = expression ks := by
  rw [expression, sum, chain, operand_cons, if_pos hk]
  rfl

/-- A parenthesis is an expression, then closed, with operators behind it. -/
theorem expression_paren (ks : List TokenKind) :
    expression (.leftParen :: ks) = ((expression ks).bind (expect .rightParen)).bind operators := by
  rw [expression, sum, chain, operand_cons]
  rfl

/-- A single token is an operand, with operators behind it. -/
theorem expression_token (hs : k.isSign = false) (hp : k ≠ .leftParen)
    (hc : k = .id → next ks ≠ .leftParen) : expression (k :: ks) = operators ks := by
  have hcall : ¬(k = .id && next ks = .leftParen) = true := by simpa using hc
  rw [expression, sum, chain, operand_cons, hs, if_neg Bool.false_ne_true, if_neg hp, if_neg hcall]
  rfl

/-- A name before a parenthesis is a call. -/
theorem operand_call (ks : List TokenKind) :
    operand (.id :: .leftParen :: ks) = arguments operand ks := operand_cons .id (.leftParen :: ks)

/-- Behind an operator stands an expression. -/
theorem operators_cons (hk : k.isOperator = true) : operators (k :: ks) = expression ks :=
  loop_of_joins operand_shrinks hk

/-- Without an operator in front there is nothing more to read. -/
theorem operators_of_next (h : (next K).isOperator = false) : operators K = some K := by
  cases K with
  | nil => exact loop_nil
  | cons k K => exact loop_of_not h

/-- After an operand a sign is as good as before one. -/
theorem operators_of_sign (h : (next K).isSign = true) : operators K = expression K := by
  cases K with
  | nil => cases h
  | cons k K =>
    rw [next_cons] at h
    rw [operators_cons (by rw [TokenKind.isOperator, h]; rfl), expression_sign h]

/-! ### Expressions are read to their ends -/

/-- An expression begins with one of the kinds that open one. -/
theorem next_phrase (e : Phrase) (K : List TokenKind) :
    next (e.kinds ++ K) = next e.kinds ∧ (next e.kinds).opensPhrase = true := by
  induction e generalizing K with
  | leaf k h => exact ⟨rfl, by rw [Phrase.kinds, next_cons, TokenKind.opensPhrase, h]; rfl⟩
  | call es ih =>
    cases es with
    | nil => exact ⟨rfl, rfl⟩
    | cons e es => exact ⟨rfl, rfl⟩
  | group e ih => exact ⟨rfl, rfl⟩
  | signed s h e ih =>
    refine ⟨rfl, ?_⟩
    rw [Phrase.kinds, next_cons, TokenKind.opensPhrase, h, Bool.or_true]
  | binary l op h r ihl ihr =>
    rw [Phrase.kinds, List.append_assoc, (ihl _).1, (ihl _).1]
    exact ⟨rfl, (ihl K).2⟩

/-- What follows an argument is no operator and opens nothing. -/
theorem next_listed (es : List Phrase) (K : List TokenKind) :
    (next (Phrase.listed es ++ .rightParen :: K)).isOperator = false ∧
      next (Phrase.listed es ++ .rightParen :: K) ≠ .leftParen := by
  cases es with
  | nil =>
    constructor
    · rfl
    · rintro ⟨⟩
  | cons e es =>
    constructor
    · rfl
    · rintro ⟨⟩

/-- The arguments of a call after the first one. -/
theorem loop_listed {es : List Phrase}
    (hes : ∀ e ∈ es, ∀ {K}, next K ≠ .leftParen → expression (e.kinds ++ K) = operators K) :
    loop expression (· = .comma) (Phrase.listed es ++ .rightParen :: K) =
      some (.rightParen :: K) := by
  induction es with
  | nil => exact loop_of_not rfl
  | cons e es ih =>
    obtain ⟨he, hes⟩ := List.forall_mem_cons.1 hes
    have hnext := next_listed es K
    rw [Phrase.listed_cons_append, loop_of_joins expression_shrinks rfl, chain, he hnext.2,
      operators_of_next hnext.1]
    exact ih hes

/-- Arguments are read up to the parenthesis that closes them. -/
theorem arguments_phrases {e : Phrase} {es : List Phrase}
    (he : ∀ {K}, next K ≠ .leftParen → expression (e.kinds ++ K) = operators K)
    (hes : ∀ e ∈ es, ∀ {K}, next K ≠ .leftParen → expression (e.kinds ++ K) = operators K) :
    arguments operand (e.kinds ++ (Phrase.listed es ++ .rightParen :: K)) = some K := by
  have hfirst : next (e.kinds ++ (Phrase.listed es ++ .rightParen :: K)) ≠ .rightParen := by
    obtain ⟨hnext, hopens⟩ := next_phrase e (Phrase.listed es ++ .rightParen :: K)
    intro heq
    rw [← hnext, heq] at hopens
    cases hopens
  have hrest := next_listed es K
  rw [arguments, if_neg hfirst]
  change (chain expression (· = .comma) _).bind _ = _
  rw [chain, he hrest.2, operators_of_next hrest.1, Option.bind_some, loop_listed hes]
  rfl

/-- An expression is read to its end, and then as far as operators go. -/
theorem expression_phrase (e : Phrase) (hK : next K ≠ .leftParen) :
    expression (e.kinds ++ K) = operators K := by
  induction e generalizing K with
  | leaf k h =>
    have hne : k.isSign = false ∧ k ≠ .leftParen := by
      rcases TokenKind.isLeaf_iff.1 h with rfl | rfl | rfl <;> decide
    exact expression_token hne.1 hne.2 fun _ => hK
  | call es ih =>
    have hcall : operand ((Phrase.call es).kinds ++ K) = some K := by
      cases es with
      | nil => exact operand_call _
      | cons e es =>
        obtain ⟨he, hes⟩ := List.forall_mem_cons.1 ih
        rw [Phrase.kinds_call_append, operand_call]
        exact arguments_phrases he hes
    rw [expression, sum, chain, hcall]
    rfl
  | group e ih =>
    rw [Phrase.kinds_group_append, expression_paren, ih (by rintro ⟨⟩), operators_of_next rfl]
    rfl
  | signed s h e ih =>
    rw [Phrase.kinds, List.cons_append, expression_sign h, ih hK]
  | binary l op h r ihl ihr =>
    rw [Phrase.kinds_binary_append, ihl (by rintro rfl; cases h), operators_cons h, ihr hK]

end Recognizer

end SymScript
