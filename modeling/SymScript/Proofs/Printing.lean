import SymScript.Ast.OfText
import SymScript.Proofs.Grammar
import SymScript.Proofs.Scanning
import SymScript.Proofs.Semantics
import SymScript.Text.Letter

/-!
# Printing an expression and reading it back

An expression is printed with as few parentheses as the levels of its operators allow. The text is
cut into the tokens of a tree of the grammar, the parser gives that tree back, and the tree stands
for the expression that was printed.
-/

namespace SymScript

/-- The next tighter level. -/
def Precedence.tighter : Precedence → Precedence
  | sum => product
  | product => power
  | power | operand => operand

namespace Operator

/-- The level of the expressions that an operator makes. -/
def level : Operator → Precedence
  | sum | sub => .sum
  | mul | div => .product
  | _ => .power

/-- Powers group from the right, all other operators from the left. -/
def leftLevel (op : Operator) : Precedence := if op = pow then op.level.tighter else op.level

def rightLevel (op : Operator) : Precedence := if op = pow then op.level else op.level.tighter

end Operator

namespace Ast

/-- A leaf with its sign. -/
def signed (negated : Bool) (leaf : String) : String := if negated then "-" ++ leaf else leaf

mutual

/-- The text of an expression in a place that takes expressions of the given level. -/
def print (level : Precedence) : Ast → String
  | nat s d => signed s d
  | id s n => signed s n
  | sym s l => signed s l
  | binary s op a b =>
    let inner := print op.leftLevel a ++ op.sign ++ print op.rightLevel b
    if s then "-(" ++ inner ++ ")"
    else if op.level.rank < level.rank then "(" ++ inner ++ ")"
    else inner
  | call f [] => f ++ "()"
  | call f (a :: as) => f ++ "(" ++ print .sum a ++ printRest as ++ ")"
  | _ => ""

/-- The arguments after the first, each with a comma before it. -/
def printRest : List Ast → String
  | [] => ""
  | a :: as => "," ++ print .sum a ++ printRest as

end

/-- One or more decimal digits. -/
def IsNumeral (digits : String) : Prop :=
  ∃ c cs, digits = String.ofList (c :: cs) ∧ c.isDigit ∧ cs.all Char.isDigit

/-- One letter from `a` to `z`. -/
def IsLetter (letter : String) : Prop := ∃ c : Char, letter = c.toString ∧ c.isLower

/-- A capital letter, then letters. -/
def IsName (name : String) : Prop :=
  ∃ c cs, name = String.ofList (c :: cs) ∧ c.isUpper ∧ cs.all Char.isAlpha

/-- The expressions that can be written down: numbers, letters, names, the five operators of
arithmetic, and calls, with any signs. -/
inductive Writable : Ast → Prop
  | nat (s : Bool) {digits : String} (hdigits : IsNumeral digits) : Writable (.nat s digits)
  | id (s : Bool) {name : String} (hname : IsName name) : Writable (.id s name)
  | sym (s : Bool) {letter : String} (hletter : IsLetter letter) : Writable (.sym s letter)
  | binary (s : Bool) {op : Operator} {a b : Ast} (hop : Semantics.isArithmetic op)
      (ha : Writable a) (hb : Writable b) : Writable (.binary s op a b)
  | call {name : String} {as : List Ast} (hname : IsName name) (has : ∀ a ∈ as, Writable a) :
      Writable (.call name as)

end Ast

/-! ### Plain letters and digits in the tables -/

namespace Text

/-- What lies between the ends of a range without gaps is in the table. -/
theorem CodeRange.mem_of_between {table : Array CodeRange} {first last : Nat} {c : Char}
    (hr : ⟨first, last, 1⟩ ∈ table) (hc : first ≤ c.toNat ∧ c.toNat ≤ last) :
    CodeRange.mem table c := by
  refine Array.find?_isSome.2 ⟨_, hr, ?_⟩
  simp [CodeRange.holds, hc, Nat.mod_one]

/-- The capital letters of the grammar are capitals in the table. -/
theorem isCapital_of_isUpper {c : Char} (hc : c.isUpper) : isCapital c :=
  CodeRange.mem_of_between ⟨.head _⟩ (Token.isUpper_iff.1 hc)

/-- The small letters of the grammar are small letters in the table. -/
theorem isSmall_of_isLower {c : Char} (hc : c.isLower) : isSmall c :=
  CodeRange.mem_of_between ⟨.head _⟩ (Token.isLower_iff.1 hc)

/-- A row of digits is numeric. -/
theorem isNumeric_of_isDigit {cs : List Char} (hne : cs ≠ []) (hcs : ∀ c ∈ cs, c.isDigit) :
    isNumeric (String.ofList cs) := by
  rw [isNumeric, String.toList_ofList, Bool.and_eq_true, List.all_eq_true]
  refine ⟨by simp [hne], ?_⟩
  intro c hc
  exact CodeRange.mem_of_between ⟨.head _⟩ (Token.isDigit_iff.1 (hcs c hc))

end Text

/-! ### What trees of the grammar stand for -/

namespace Ast

open ParseTree

variable {t l r : ParseTree} {e a b : Ast}

/-- A single token stands for what it is. -/
theorem meaning_single {t : Token} (ht : t.kind = .id ∨ t.kind = .nat ∨ t.kind = .sym) :
    meaning (.node .expression [.leaf t]) = terminal t := by
  have hmeaning : meaning (.node .expression [.leaf t]) = expressionOf t [terminal t] := rfl
  rw [hmeaning, expressionOf]
  rcases ht with h | h | h <;> rw [h] <;> rfl

/-- A minus sign stands for the expression with the opposite sign. -/
theorem meaning_signed {sign : Token} {e' : Ast} (hsign : sign.kind = .minus)
    (ht : meaning t = .ok (.node e)) (he : e.flip? = some e') :
    meaning (.node .expression [.leaf sign, t]) = .ok (.node e') := by
  have hmeaning : meaning (.node .expression [.leaf sign, t]) =
      expressionOf sign [terminal sign, meaning t] := rfl
  rw [hmeaning, expressionOf, hsign, ht]
  show Meaning.flip (.node e) = _
  rw [Meaning.flip, he]

/-- Parentheses do not matter. -/
theorem meaning_grouped {opening closing : Token} (ho : opening.kind = .leftParen) :
    meaning (.node .expression [.leaf opening, t, .leaf closing]) = meaning t := by
  have hmeaning : meaning (.node .expression [.leaf opening, t, .leaf closing]) =
      expressionOf opening [terminal opening, meaning t, terminal closing] := rfl
  rw [hmeaning, expressionOf, ho]
  rfl

/-- An operator between two expressions stands for the operation. -/
theorem meaning_binary {level : Precedence} {t : Token} {op : Operator} (hl : Derives level l)
    (ha : meaning l = .ok (.node a)) (ha' : a.isOperand) (ht : terminal t = .ok (.operator op))
    (hb : meaning r = .ok (.node b)) (hb' : b.isOperand) :
    meaning (.node .expression [l, .leaf t, r]) = .ok (.node (.binary false op a b)) := by
  obtain ⟨cs, rfl⟩ := hl.exists_eq_node
  have hmeaning : meaning (.node .expression [.node .expression cs, .leaf t, r]) = (do
      let parts ← [meaning (.node .expression cs), terminal t, meaning r].mapM fun m => m
      .node <$> binaryOf parts) := rfl
  have hbinary : binaryOf [.node a, .operator op, .node b] = .ok (.binary false op a b) := by
    rw [binaryOf, Meaning.operand, Meaning.operand, if_pos ha', if_pos hb']
    rfl
  have hparts : [meaning (.node .expression cs), terminal t, meaning r].mapM (fun m => m) =
      .ok [.node a, .operator op, .node b] := by
    rw [ha, ht, hb]
    rfl
  rw [hmeaning, hparts]
  show Meaning.node <$> binaryOf _ = _
  rw [hbinary]
  rfl

/-- A call without arguments. -/
theorem meaning_emptyCall {name opening closing : Token} {f : String}
    (hn : terminal name = .ok (.node (.id false f))) :
    meaning (.node .expression [.node .call [.leaf name, .leaf opening, .leaf closing]]) =
      .ok (.node (.call f [])) := by
  have hmeaning : meaning (.node .expression [.node .call
      [.leaf name, .leaf opening, .leaf closing]]) =
      Meaning.node <$> callOf [terminal name, terminal opening, terminal closing] := rfl
  rw [hmeaning, hn]
  rfl

/-- The members at even places of a list of arguments are all but the commas. -/
theorem evens_meanings (first : ParseTree) (rest : List (Token × ParseTree)) :
    evens (meanings (first :: listed rest)) = meaning first :: rest.map fun p => meaning p.2 := by
  induction rest generalizing first with
  | nil => rfl
  | cons p rest ih =>
    have htail := ih p.2
    rw [List.map_cons, ← htail]
    rfl

theorem mapM_ok_node (es : List Ast) :
    (es.map fun e => (.ok (.node e) : Except AstFault Meaning)).mapM (fun m => m) =
      .ok (es.map .node) := by
  induction es with
  | nil => rfl
  | cons e es ih =>
    rw [List.map_cons, List.mapM_cons, ih]
    rfl

theorem mapM_child_node (es : List Ast) : (es.map Meaning.node).mapM Meaning.child = .ok es := by
  induction es with
  | nil => rfl
  | cons e es ih =>
    rw [List.map_cons, List.mapM_cons, ih]
    rfl

/-- A call stands for the call of what its arguments stand for. -/
theorem meaning_call {name opening closing : Token} {f : String} {first : ParseTree}
    {rest : List (Token × ParseTree)} {es : List Ast}
    (hn : terminal name = .ok (.node (.id false f))) (hfirst : meaning first = .ok (.node e))
    (hrest : rest.map (fun p => meaning p.2) = es.map fun e => .ok (.node e)) :
    meaning (.node .expression [.node .call
      [.leaf name, .leaf opening, .node .expressionList (first :: listed rest), .leaf closing]]) =
      .ok (.node (.call f (e :: es))) := by
  have hlist : meaning (.node .expressionList (first :: listed rest)) =
      .ok (.list ((e :: es).map .node)) := by
    have hmeaning : meaning (.node .expressionList (first :: listed rest)) = (do
      return .list (← (evens (meanings (first :: listed rest))).mapM fun m => m)) := rfl
    have hmembers := mapM_ok_node (e :: es)
    rw [List.map_cons] at hmembers
    rw [hmeaning, evens_meanings, hfirst, hrest, hmembers]
    rfl
  have hmeaning : meaning (.node .expression [.node .call
      [.leaf name, .leaf opening, .node .expressionList (first :: listed rest), .leaf closing]]) =
      Meaning.node <$> callOf [terminal name, terminal opening,
        meaning (.node .expressionList (first :: listed rest)), terminal closing] := rfl
  have hcall : callOf [terminal name, terminal opening,
      meaning (.node .expressionList (first :: listed rest)), terminal closing] = (do
      let args ← ((e :: es).map Meaning.node).mapM Meaning.child
      return .call f args) := by
    rw [hn, hlist]
    rfl
  rw [hmeaning, hcall, mapM_child_node]
  rfl

/-! ### The tokens of a printed expression -/

open Token

/-- The tokens of a tree of the grammar that stands for the expression. -/
def Denotes (level : Precedence) (e : Ast) (ts : List Token) : Prop :=
  ∃ t, Derives level t ∧ t.terminals = ts ∧ meaning t = .ok (.node e)

namespace Denotes

variable {level k : Precedence} {ts us vs : List Token}

/-- What is tight enough for a level is so for all looser ones. -/
theorem loosen (h : Denotes level e ts) (hk : k.rank ≤ level.rank) : Denotes k e ts := by
  obtain ⟨t, ht, hts, hmeaning⟩ := h
  exact ⟨t, ht.loosen hk, hts, hmeaning⟩

/-- A single token denotes what it stands for. -/
theorem single {t : Token} (ht : t.kind = .id ∨ t.kind = .nat ∨ t.kind = .sym)
    (he : terminal t = .ok (.node e)) : Denotes .operand e [t] := by
  refine ⟨_, .single ht, by simp [terminals, terminalsAll], ?_⟩
  rw [meaning_single ht, he]

/-- A minus sign before an operand denotes it with the opposite sign. -/
theorem signed {sign : Token} {e' : Ast} (hsign : sign.kind = .minus) (h : Denotes .operand e ts)
    (he : e.flip? = some e') : Denotes .operand e' (sign :: ts) := by
  obtain ⟨t, ht, rfl, hmeaning⟩ := h
  refine ⟨_, .signed (by rw [hsign]; rfl) ht, by simp [terminals, terminalsAll], ?_⟩
  exact meaning_signed hsign hmeaning he

/-- Whatever stands in parentheses is an operand. -/
theorem grouped {opening closing : Token} (ho : opening.kind = .leftParen)
    (h : Denotes level e ts) (hc : closing.kind = .rightParen) :
    Denotes .operand e (opening :: (ts ++ [closing])) := by
  have hsum : Denotes .sum e ts := h.loosen (Nat.zero_le _)
  obtain ⟨t, ht, rfl, hmeaning⟩ := hsum
  refine ⟨_, .grouped ho ht hc, by simp [terminals, terminalsAll], ?_⟩
  rw [meaning_grouped ho, hmeaning]

/-- Two sides that are tight enough for an operator, with the operator between them. -/
theorem binary {op : Operator} {t : Token} (hop : Semantics.isArithmetic op) (ha' : a.isOperand)
    (hb' : b.isOperand) (ha : Denotes op.leftLevel a us) (ht : t.kind = operatorKind op.sign)
    (hb : Denotes op.rightLevel b vs) :
    Denotes op.level (.binary false op a b) (us ++ t :: vs) := by
  obtain ⟨l, hl, rfl, hla⟩ := ha
  obtain ⟨r, hr, rfl, hrb⟩ := hb
  have hterminal : terminal t = .ok (.operator op) := by
    rw [terminal, ht]
    cases op <;> first | rfl | cases hop
  refine ⟨.node .expression [l, .leaf t, r], ?_, terminals_binary _ _ _ _,
    meaning_binary hl hla ha' hterminal hrb hb'⟩
  cases op with
  | sum | sub => exact .sum hl (by rw [ht]; rfl) hr
  | mul | div => exact .product hl (by rw [ht]; rfl) hr
  | pow => exact .power hl ht hr
  | _ => cases hop

/-- A name with empty parentheses denotes a call. -/
theorem emptyCall {name opening closing : Token} {f : String} (hn : name.kind = .id)
    (hf : terminal name = .ok (.node (.id false f))) (ho : opening.kind = .leftParen)
    (hc : closing.kind = .rightParen) : Denotes .operand (.call f []) [name, opening, closing] :=
  ⟨_, .emptyCall hn ho hc, by simp [terminals, terminalsAll], meaning_emptyCall hf⟩

end Denotes

/-- The tokens of the arguments after the first. -/
def DenotesRest (es : List Ast) (ts : List Token) : Prop :=
  ∃ rest : List (Token × ParseTree), terminalsAll (listed rest) = ts ∧
    (∀ p ∈ rest, p.1.kind = .comma) ∧ (∀ p ∈ rest, Derives .sum p.2) ∧
    rest.map (fun p => meaning p.2) = es.map fun e => .ok (.node e)

theorem DenotesRest.nil : DenotesRest [] [] := ⟨[], rfl, nofun, nofun, rfl⟩

/-- One more argument behind a comma. -/
theorem DenotesRest.cons {comma : Token} {es : List Ast} {us vs : List Token}
    (hcomma : comma.kind = .comma) (he : Denotes .sum e us) (hes : DenotesRest es vs) :
    DenotesRest (e :: es) (comma :: (us ++ vs)) := by
  obtain ⟨t, ht, rfl, hmeaning⟩ := he
  obtain ⟨rest, rfl, hcommas, hrest, hes⟩ := hes
  refine ⟨(comma, t) :: rest, terminalsAll_listed_cons _ _, ?_, ?_, ?_⟩
  · rintro p (_ | ⟨_, hp⟩)
    · exact hcomma
    · exact hcommas p hp
  · rintro p (_ | ⟨_, hp⟩)
    · exact ht
    · exact hrest p hp
  · rw [List.map_cons, List.map_cons, hes, hmeaning]

/-- A name with arguments in parentheses denotes a call. -/
theorem Denotes.call {name opening closing : Token} {f : String} {es : List Ast}
    {us vs : List Token} (hn : name.kind = .id) (hf : terminal name = .ok (.node (.id false f)))
    (ho : opening.kind = .leftParen) (he : Denotes .sum e us) (hes : DenotesRest es vs)
    (hc : closing.kind = .rightParen) :
    Denotes .operand (.call f (e :: es)) (name :: opening :: (us ++ vs ++ [closing])) := by
  obtain ⟨t, ht, rfl, hmeaning⟩ := he
  obtain ⟨rest, rfl, hcommas, hrest, hes⟩ := hes
  exact ⟨_, .call hn ho ht hcommas hrest hc, by simp [terminals, terminalsAll],
    meaning_call hf hmeaning hes⟩

/-- A name is scanned as one token. -/
theorem IsName.spells {name : String} (hname : IsName name) :
    Spells name.toList fun ts => ∃ t, ts = [t] ∧ t.kind = .id ∧ t.text = name := by
  obtain ⟨c, cs, rfl, hc, hcs⟩ := hname
  rw [String.toList_ofList]
  exact Spells.name hc (List.all_eq_true.1 hcs)

theorem IsName.terminal_eq {t : Token} {name : String} (hname : IsName name) (hkind : t.kind = .id)
    (htext : t.text = name) : terminal t = .ok (.node (.id false name)) := by
  obtain ⟨c, cs, rfl, hc, -⟩ := hname
  rw [terminal, hkind, htext]
  simp only [mkId, String.toList_ofList, Text.isCapital_of_isUpper hc, if_true]
  rfl

/-- A numeral is scanned as one token, which denotes the number. -/
theorem IsNumeral.spells {digits : String} (hdigits : IsNumeral digits) :
    Spells digits.toList (Denotes .operand (.nat false digits)) := by
  obtain ⟨c, cs, rfl, hc, hall⟩ := hdigits
  have hcs := List.all_eq_true.1 hall
  have hnumeric : Text.isNumeric (String.ofList (c :: cs)) :=
    Text.isNumeric_of_isDigit (by simp) (List.forall_mem_cons.2 ⟨hc, hcs⟩)
  rw [String.toList_ofList]
  refine (Spells.digits hc hcs).mono ?_
  rintro _ ⟨t, rfl, hkind, htext⟩
  refine Denotes.single (.inr (.inl hkind)) ?_
  rw [terminal, hkind, htext]
  simp only [mkNat, hnumeric, if_true]
  rfl

/-- A letter is scanned as one token, which denotes the symbol. -/
theorem IsLetter.spells {letter : String} (hletter : IsLetter letter) :
    Spells letter.toList (Denotes .operand (.sym false letter)) := by
  obtain ⟨c, rfl, hc⟩ := hletter
  have hchars : c.toString.toList = [c] := by simp [Char.toString]
  rw [hchars]
  refine (Spells.letter hc).mono ?_
  rintro _ ⟨t, rfl, hkind, htext⟩
  refine Denotes.single (.inr (.inr hkind)) ?_
  rw [terminal, hkind, htext]
  simp only [mkSym, hchars, Text.isSmall_of_isLower hc, if_true]
  rfl

/-- A minus sign before a leaf spells the leaf with the opposite sign. -/
theorem spells_signed {leaf : String} {e e' : Ast} (h : Spells leaf.toList (Denotes .operand e))
    (he : e.flip? = some e') :
    Spells (signed true leaf).toList (Denotes .operand e') := by
  have hchars : (signed true leaf).toList = '-' :: leaf.toList := by simp [signed]
  rw [hchars]
  refine (Spells.mark (by decide) h).mono ?_
  rintro _ ⟨sign, us, rfl, hsign, hus⟩
  exact hus.signed hsign he

/-- Parentheses around a text spell an operand. -/
theorem spells_grouped {inner : String} {level : Precedence}
    (h : Spells inner.toList (Denotes level e)) :
    Spells ("(" ++ inner ++ ")").toList (Denotes .operand e) := by
  have hchars : ("(" ++ inner ++ ")").toList = '(' :: (inner.toList ++ [')']) := by simp
  rw [hchars]
  refine (Spells.mark (by decide) (h.append_mark (by decide) Spells.nil)).mono ?_
  rintro _ ⟨opening, _, rfl, ho, us, closing, _, rfl, hc, hus, rfl⟩
  exact hus.grouped ho hc

/-- Two texts with an operator between them spell the operation. -/
theorem spells_binary {op : Operator} {left right : String} (hop : Semantics.isArithmetic op)
    (ha' : a.isOperand) (hb' : b.isOperand) (ha : Spells left.toList (Denotes op.leftLevel a))
    (hb : Spells right.toList (Denotes op.rightLevel b)) :
    Spells (left ++ op.sign ++ right).toList (Denotes op.level (.binary false op a b)) := by
  obtain ⟨c, hc, hsign⟩ : ∃ c ∈ marks, op.sign = String.ofList [c] := by
    cases op with
    | sum => exact ⟨'+', by decide, rfl⟩
    | sub => exact ⟨'-', by decide, rfl⟩
    | mul => exact ⟨'*', by decide, rfl⟩
    | div => exact ⟨'/', by decide, rfl⟩
    | pow => exact ⟨'^', by decide, rfl⟩
    | _ => cases hop
  have hchars : (left ++ op.sign ++ right).toList = left.toList ++ c :: right.toList := by
    simp [hsign]
  rw [hchars]
  refine (ha.append_mark hc hb).mono ?_
  rintro _ ⟨us, t, vs, rfl, ht, hus, hvs⟩
  exact Denotes.binary hop ha' hb' hus (by rw [ht, hsign]) hvs

theorem toList_printRest_cons (a : Ast) (as : List Ast) :
    (printRest (a :: as)).toList = ',' :: ((print .sum a).toList ++ (printRest as).toList) := by
  simp [printRest]

/-- What follows an argument ends a token: a comma, or nothing. -/
theorem ends_printRest (as : List Ast) : Ends (printRest as).toList := by
  cases as with
  | nil => exact Ends.nil
  | cons a as =>
    rw [toList_printRest_cons]
    exact Ends.cons (by decide) _

/-- The arguments behind the first one, by induction on their list. -/
theorem spells_printRest {as : List Ast}
    (has : ∀ a ∈ as, Spells (print .sum a).toList (Denotes .sum a)) :
    Spells (printRest as).toList (DenotesRest as) := by
  induction as with
  | nil =>
    refine Spells.nil.mono ?_
    rintro _ rfl
    exact DenotesRest.nil
  | cons a as ih =>
    have ha := has a List.mem_cons_self
    have hrest := ih fun b hb => has b (List.mem_cons_of_mem _ hb)
    rw [toList_printRest_cons]
    refine (Spells.mark (by decide) (ha.append hrest (ends_printRest as))).mono ?_
    rintro _ ⟨comma, _, rfl, hcomma, us, vs, rfl, hus, hvs⟩
    exact DenotesRest.cons hcomma hus hvs

/-- A call is spelled by its name and its arguments in parentheses. -/
theorem spells_call {name : String} {as : List Ast} (hname : IsName name)
    (has : ∀ a ∈ as, Spells (print .sum a).toList (Denotes .sum a)) (level : Precedence) :
    Spells (print level (.call name as)).toList (Denotes .operand (.call name as)) := by
  cases as with
  | nil =>
    have hchars : (print level (.call name [])).toList = name.toList ++ '(' :: [')'] := by
      simp [print]
    rw [hchars]
    refine (hname.spells.append_mark (by decide) (Spells.mark (by decide) Spells.nil)).mono ?_
    rintro _ ⟨_, opening, _, rfl, ho, ⟨t, rfl, hkind, ht⟩, closing, _, rfl, hc, rfl⟩
    exact Denotes.emptyCall hkind (hname.terminal_eq hkind ht) ho hc
  | cons a as =>
    have hchars : (print level (.call name (a :: as))).toList =
        name.toList ++ '(' :: ((print .sum a).toList ++ (printRest as).toList ++ [')']) := by
      simp [print]
    have ha := has a List.mem_cons_self
    have hrest := spells_printRest fun b hb => has b (List.mem_cons_of_mem _ hb)
    rw [hchars]
    refine (hname.spells.append_mark (by decide)
      ((ha.append hrest (ends_printRest as)).append_mark (by decide) Spells.nil)).mono ?_
    rintro _ ⟨_, opening, _, rfl, ho, ⟨t, rfl, hkind, ht⟩, _, closing, _, rfl, hc,
      ⟨us, vs, rfl, hus, hvs⟩, rfl⟩
    exact Denotes.call hkind (hname.terminal_eq hkind ht) ho hus hvs hc

/-- What can be written can be an operand. -/
theorem Writable.isOperand (he : Writable e) : e.isOperand := by
  cases he <;> rfl

/-- The text of an expression is cut into the tokens of a tree that stands for it. By induction on
the expression, at all levels at once: what does not fit its place is made an operand. -/
theorem Writable.spells (he : Writable e) (level : Precedence) :
    Spells (print level e).toList (Denotes level e) := by
  have hloose {e : Ast} {level : Precedence} {cs : List Char}
      (h : Spells cs (Denotes .operand e)) : Spells cs (Denotes level e) :=
    h.mono fun ts hts => hts.loosen (by cases level <;> decide)
  induction he generalizing level with
  | nat s hdigits =>
    cases s with
    | false => exact hloose hdigits.spells
    | true => exact hloose (spells_signed hdigits.spells rfl)
  | @id s name hname =>
    have hid : Spells name.toList (Denotes .operand (.id false name)) := by
      refine hname.spells.mono ?_
      rintro _ ⟨t, rfl, hkind, ht⟩
      exact Denotes.single (.inl hkind) (hname.terminal_eq hkind ht)
    cases s with
    | false => exact hloose hid
    | true => exact hloose (spells_signed hid rfl)
  | sym s hletter =>
    cases s with
    | false => exact hloose hletter.spells
    | true => exact hloose (spells_signed hletter.spells rfl)
  | @binary s op a b hop ha hb iha ihb =>
    have hinner := spells_binary hop ha.isOperand hb.isOperand (iha op.leftLevel)
      (ihb op.rightLevel)
    cases s with
    | false =>
      rw [print]
      simp only [Bool.false_eq_true, if_false]
      split
      · exact hloose (spells_grouped hinner)
      · rename_i hrank
        exact hinner.mono fun ts hts => hts.loosen (Nat.le_of_not_lt hrank)
    | true =>
      have htext : print level (.binary true op a b) = signed true
          ("(" ++ (print op.leftLevel a ++ op.sign ++ print op.rightLevel b) ++ ")") := by
        rw [print, ← String.toList_inj]
        simp [signed]
      rw [htext]
      exact hloose (spells_signed (spells_grouped hinner) rfl)
  | call hname _ ih => exact hloose (spells_call hname (fun a ha => ih a ha .sum) level)

end Ast

end SymScript
