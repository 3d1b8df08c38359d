import SymScript.Proofs.Legibility
import SymScript.Proofs.MadeNodes
import SymScript.Term

/-!
# Raw text and signs

The raw text of a term does not show its signs.  All the rest, the skeleton of the term, can be read
off: a leaf ends before a blank or a parenthesis, a number starts with a digit where a letter does
not, and the mark of a compound node is told from a letter by the parenthesis before it.  Letters
may therefore be called like the marks.  What cannot be told is a leaf that was given children
afterwards, or a compound node that lost all of its own; no description makes such nodes.
-/

namespace SymScript

open SymScript.Expr (Stops Everywhere FilledNode)

/-- What is left of a term without its signs. -/
inductive Skeleton where
  | node (shape : Shape) (payload : String) (children : List Skeleton)

namespace Skeleton

mutual

def text : Skeleton → String
  | node _ payload children => RawText.node payload (textAll children)

def textAll : List Skeleton → List String
  | [] => []
  | t :: ts => text t :: textAll ts

end

/-- The texts of children are those of each one. -/
theorem textAll_eq_map (ts : List Skeleton) : textAll ts = ts.map text := by
  induction ts with
  | nil => rfl
  | cons t ts ih => rw [textAll, ih, List.map_cons]

/-! ### Payloads -/

/-- The character is written as it is and does not end a payload. -/
def isPlain (c : Char) : Bool := !List.contains [' ', '(', ')', '\t', '\n', '\r'] c

/-- The blank and the parentheses come before all other characters that names have. -/
theorem isPlain_of_le {c : Char} (h : 42 ≤ c.toNat) : isPlain c = true := by
  rw [isPlain, Bool.not_eq_true', Bool.eq_false_iff, Ne, List.contains_iff_mem]
  intro hc
  simp only [List.mem_cons, List.not_mem_nil, or_false] at hc
  rcases hc with rfl | rfl | rfl | rfl | rfl | rfl <;> revert h <;> decide

/-- Letters are plain. -/
theorem isPlain_of_isLetter {c : Char} (h : Text.isLetter c = true) : isPlain c = true := by
  have hrange := Expr.range_of_isLetter h
  exact isPlain_of_le (by omega)

/-- Plain characters are written as they are. -/
theorem escapeChar_of_isPlain {c : Char} (h : isPlain c = true) : RawText.escapeChar c = [c] := by
  unfold RawText.escapeChar
  split
  · cases h
  · cases h
  · cases h
  · rfl

/-- A payload of plain characters is written as it is. -/
theorem escape_of_isPlain {payload : String} (h : ∀ c ∈ payload.toList, isPlain c = true) :
    RawText.escape payload = payload := by
  have hchars : payload.toList.flatMap RawText.escapeChar = payload.toList := by
    rw [List.flatMap_congr fun c hc => escapeChar_of_isPlain (h c hc), List.flatMap_singleton']
  rw [RawText.escape, hchars, String.ofList_toList]

/-- A payload that starts with a digit is a number. -/
def shapeOfStart (c : Char) : Shape := if c.isDigit then .rational else .symbol

/-- The leaf of this shape can be told from its payload, which is one word. -/
def Word (shape : Shape) (payload : String) : Prop :=
  (∀ c ∈ payload.toList, isPlain c = true) ∧ payload.toList.head?.map shapeOfStart = some shape

/-- A payload shows whether it is a number or a letter. -/
theorem Word.shape_eq {shape shape' : Shape} {payload : String} (h : Word shape payload)
    (h' : Word shape' payload) : shape = shape' :=
  Option.some.inj (h.2.symm.trans h'.2)

/-- A word does not start like a compound node. -/
theorem Word.toList_append_ne {shape : Shape} {payload : String} (h : Word shape payload)
    (r cs : List Char) : payload.toList ++ r ≠ '(' :: cs := by
  obtain ⟨hplain, hstart⟩ := h
  intro hparen
  cases hpayload : payload.toList with
  | nil =>
    rw [hpayload] at hstart
    cases hstart
  | cons c ds =>
    rw [hpayload] at hplain hparen
    have hc := hplain c List.mem_cons_self
    rw [(List.cons.inj hparen).1] at hc
    cases hc

/-- A letter is a word for a symbol. -/
theorem word_toString {c : Char} (h : Text.isLetter c = true) : Word .symbol c.toString := by
  rw [Word, Char.toString_eq_singleton, String.toList_singleton]
  refine ⟨List.forall_mem_singleton.2 (isPlain_of_isLetter h), ?_⟩
  rw [List.head?_cons, Option.map_some, shapeOfStart, Expr.isDigit_of_isLetter h]
  rfl

theorem isPlain_of_mem_toDigits {c : Char} {n : Nat} (h : c ∈ Nat.toDigits 10 n) :
    isPlain c = true := by
  have hrange := Token.isDigit_iff.1 (Nat.isDigit_of_mem_toDigits (by decide) (by decide) h)
  exact isPlain_of_le (by omega)

/-- What begins with a numeral and goes on plainly is a word for a number. -/
theorem word_of_digits {payload : String} {n : Nat} {r : List Char}
    (hpayload : payload.toList = Nat.toDigits 10 n ++ r) (hr : ∀ c ∈ r, isPlain c = true) :
    Word .rational payload := by
  obtain ⟨d, ds, hn, hd⟩ := Expr.exists_toDigits n
  rw [Word, hpayload]
  refine ⟨List.forall_mem_append.2 ⟨fun c hc => isPlain_of_mem_toDigits hc, hr⟩, ?_⟩
  rw [hn, List.cons_append, List.head?_cons, Option.map_some, shapeOfStart, if_pos hd]

/-- The texts of a number are words for numbers, with a denominator or without one. -/
theorem word_of_mem_texts {p d : Nat} {text : String} (h : text ∈ (TermHead.rational p d).texts) :
    Word .rational text := by
  rw [TermHead.texts] at h
  rcases List.mem_cons.1 h with rfl | h
  · refine word_of_digits (n := p) (r := '/' :: Nat.toDigits 10 d) ?_ ?_
    · simp only [String.toList_append, Nat.toString_eq_repr, Nat.toList_repr, List.append_assoc]
      rfl
    · exact List.forall_mem_cons.2 ⟨rfl, fun c hc => isPlain_of_mem_toDigits hc⟩
  · split at h
    · rw [List.mem_singleton.1 h]
      refine word_of_digits (n := p) (r := []) ?_ (List.forall_mem_nil _)
      rw [Nat.toString_eq_repr, Nat.toList_repr, List.append_nil]
    · cases h

/-- The marks of compound nodes are plain. -/
theorem isPlain_of_mem_mark {shape : Shape} : ∀ c ∈ shape.mark.toList, isPlain c = true :=
  List.all_eq_true.1 (by cases shape <;> rfl)

/-- The mark of a compound node tells its shape. -/
theorem mark_injective : Function.Injective Shape.mark := by
  intro shape shape'
  cases shape <;> cases shape' <;> decide

/-! ### Reading skeletons off -/

/-- The leaves are words, and a node with children has the mark of its shape. -/
inductive Readable : Skeleton → Prop
  | leaf {shape : Shape} {payload : String} (word : Word shape payload) :
      Readable (node shape payload [])
  | compound {shape : Shape} {children : List Skeleton} (nonempty : children ≠ [])
    (readable : ∀ t ∈ children, Readable t) : Readable (node shape shape.mark children)

/-- A child and the blank before it. -/
def spaced (t : Skeleton) : List Char := ' ' :: t.text.toList

/-- A leaf is written as its payload. -/
theorem Word.text_eq {shape : Shape} {payload : String} (h : Word shape payload) :
    (node shape payload []).text = payload := by
  rw [text, textAll, RawText.node, escape_of_isPlain h.1]

/-- A compound node is written as its mark and its children in parentheses. -/
theorem toList_text_compound {shape : Shape} {children : List Skeleton} (hne : children ≠ []) :
    (node shape shape.mark children).text.toList =
      '(' :: (shape.mark.toList ++ (children.flatMap spaced ++ [')'])) := by
  obtain ⟨t, ts, rfl⟩ := List.exists_cons_of_ne_nil hne
  have hnode : (node shape shape.mark (t :: ts)).text =
      "(" ++ shape.mark ++ " " ++ String.intercalate " " ((t :: ts).map text) ++ ")" := by
    rw [text, textAll_eq_map, List.map_cons, RawText.node, escape_of_isPlain isPlain_of_mem_mark]
    rintro ⟨⟩
  unfold spaced
  simp [hnode, String.toList_intercalate, Expr.intercalate_cons, List.flatMap_map]

/-- A word ends before a child, since a blank comes first. -/
theorem stops_spaced (t : Skeleton) (r : List Char) : Stops isPlain (t.spaced ++ r) := by
  rintro c ⟨⟩
  rfl

/-- A word ends before a closing parenthesis, and so do the children. -/
theorem stops_paren (r : List Char) :
    Stops isPlain (')' :: r) ∧ ∀ (t : Skeleton) u, ')' :: r ≠ t.spaced ++ u := by
  refine ⟨?_, by rintro t u ⟨⟩⟩
  rintro c ⟨⟩
  rfl

/-- Where a payload cannot go on, a skeleton can be told from its text. -/
theorem Readable.text_append_inj {t u : Skeleton} (ht : t.Readable) (hu : u.Readable)
    {r r' : List Char}
    (hr : Stops isPlain r) (hr' : Stops isPlain r') (h : t.text.toList ++ r = u.text.toList ++ r') :
    t = u ∧ r = r' := by
  induction ht generalizing u r r' with
  | leaf word =>
    rw [word.text_eq] at h
    cases hu with
    | leaf word' =>
      rw [word'.text_eq] at h
      obtain ⟨hpayload, hrest⟩ := Expr.append_inj_of_stops word.1 word'.1 hr hr' h
      obtain rfl := String.toList_inj.1 hpayload
      rw [word.shape_eq word']
      exact ⟨rfl, hrest⟩
    | compound hne _ =>
      rw [toList_text_compound hne] at h
      exact absurd h (word.toList_append_ne r _)
  | compound hne _ ih =>
    rw [toList_text_compound hne] at h
    cases hu with
    | leaf word =>
      rw [word.text_eq] at h
      exact absurd h.symm (word.toList_append_ne r' _)
    | compound hne' readable =>
      rw [toList_text_compound hne'] at h
      simp only [List.cons_append, List.append_assoc, List.nil_append, List.cons.injEq, true_and]
        at h
      obtain ⟨hmark, hchildren⟩ := Expr.append_inj_of_stops isPlain_of_mem_mark isPlain_of_mem_mark
        (Expr.flatMap_append_of stops_spaced (stops_paren r).1)
        (Expr.flatMap_append_of stops_spaced (stops_paren r').1) h
      obtain rfl := mark_injective (String.toList_inj.1 hmark)
      obtain ⟨rfl, hrest⟩ := Expr.flatMap_append_inj (P := Readable)
        (fun a ha b hb _ _ hr hr' hab => ih a ha hb hr hr' (List.cons.inj hab).2)
        stops_spaced readable (stops_paren r) (stops_paren r') hchildren
      exact ⟨rfl, (List.cons.inj hrest).2⟩

/-- Readable skeletons are determined by their texts. -/
theorem Readable.text_eq_iff {t u : Skeleton} (ht : t.Readable) (hu : u.Readable) :
    t.text = u.text ↔ t = u := by
  refine ⟨fun h => ?_, congrArg text⟩
  have hstops : Stops isPlain [] := by rintro c ⟨⟩
  exact (ht.text_append_inj hu hstops hstops (congrArg (·.toList ++ []) h)).1

end Skeleton

/-! ### Skeletons of expressions -/

namespace Expr

mutual

def skeleton : Expr → Skeleton
  | rational q => .node .rational q.digits []
  | symbol _ c => .node .symbol c.toString []
  | sum _ es => .node .sum Shape.sum.mark (skeletonAll es)
  | product _ es => .node .product Shape.product.mark (skeletonAll es)
  | power _ b x => .node .power Shape.power.mark [skeleton b, skeleton x]

def skeletonAll : List Expr → List Skeleton
  | [] => []
  | e :: es => skeleton e :: skeletonAll es

end

mutual

/-- The raw text of an expression is the text of its skeleton. -/
theorem raw_eq_text : ∀ e : Expr, e.raw = e.skeleton.text
  | .rational _ | .symbol _ _ => rfl
  | .sum _ es | .product _ es => by rw [raw, skeleton, Skeleton.text, rawAll_eq_textAll es]
  | .power _ b x => by
    rw [raw, skeleton, Skeleton.text, Skeleton.textAll, Skeleton.textAll, Skeleton.textAll,
      raw_eq_text b, raw_eq_text x]

theorem rawAll_eq_textAll : ∀ es : List Expr, rawAll es = Skeleton.textAll (skeletonAll es)
  | [] => rfl
  | e :: es => by rw [rawAll, skeletonAll, Skeleton.textAll, raw_eq_text e, rawAll_eq_textAll es]

end

theorem skeletonAll_eq_map (es : List Expr) : skeletonAll es = es.map skeleton := by
  induction es with
  | nil => rfl
  | cons e es ih => rw [skeletonAll, ih, List.map_cons]

mutual

/-- The expression without its signs; the children stay in their order. -/
def signless : Expr → Expr
  | rational q => rational (q.withSign false)
  | symbol _ c => symbol false c
  | sum _ es => sum false (signlessAll es)
  | product _ es => product false (signlessAll es)
  | power _ b x => power false (signless b) (signless x)

def signlessAll : List Expr → List Expr
  | [] => []
  | e :: es => signless e :: signlessAll es

end

mutual

/-- The skeleton does not show signs. -/
theorem skeleton_signless : ∀ e : Expr, e.signless.skeleton = e.skeleton
  | .rational _ | .symbol _ _ => rfl
  | .sum _ es | .product _ es => by rw [signless, skeleton, skeleton, skeletonAll_signlessAll es]
  | .power _ b x => by rw [signless, skeleton, skeleton, skeleton_signless b, skeleton_signless x]

theorem skeletonAll_signlessAll : ∀ es : List Expr, skeletonAll (signlessAll es) = skeletonAll es
  | [] => rfl
  | e :: es => by
    rw [signlessAll, skeletonAll, skeletonAll, skeleton_signless e, skeletonAll_signlessAll es]

end

mutual

/-- The skeleton shows everything but signs. -/
theorem signless_eq_of_skeleton_eq : ∀ {e f : Expr}, e.skeleton = f.skeleton →
    e.signless = f.signless
  | .rational q, f, h => by
    cases f with
    | rational q' =>
      injection h with _ hdigits
      obtain ⟨hnum, hden⟩ := Fraction.eq_of_digits_eq hdigits
      exact congrArg Expr.rational (Fraction.ext rfl hnum hden)
    | symbol | sum | product | power => cases h
  | .symbol s c, f, h => by
    cases f with
    | symbol s' c' =>
      injection h with _ hletter
      rw [Char.toString_eq_singleton, Char.toString_eq_singleton, String.singleton_inj] at hletter
      exact congrArg (Expr.symbol false) hletter
    | rational | sum | product | power => cases h
  | .sum s es, f, h => by
    cases f with
    | sum s' fs =>
      injection h with _ _ hes
      exact congrArg (Expr.sum false) (signlessAll_eq_of_skeletonAll_eq hes)
    | rational | symbol | product | power => cases h
  | .product s es, f, h => by
    cases f with
    | product s' fs =>
      injection h with _ _ hes
      exact congrArg (Expr.product false) (signlessAll_eq_of_skeletonAll_eq hes)
    | rational | symbol | sum | power => cases h
  | .power s b x, f, h => by
    cases f with
    | power s' b' x' =>
      injection h with _ _ hchildren
      obtain ⟨hb, hx⟩ := List.cons.inj hchildren
      rw [signless, signless, signless_eq_of_skeleton_eq hb,
        signless_eq_of_skeleton_eq (List.cons.inj hx).1]
    | rational | symbol | sum | product => cases h

theorem signlessAll_eq_of_skeletonAll_eq : ∀ {es fs : List Expr},
    skeletonAll es = skeletonAll fs → signlessAll es = signlessAll fs
  | [], [], _ => rfl
  | [], _ :: _, h | _ :: _, [], h => by cases h
  | e :: es, f :: fs, h => by
    obtain ⟨he, hes⟩ := List.cons.inj h
    rw [signlessAll, signlessAll, signless_eq_of_skeleton_eq he,
      signlessAll_eq_of_skeletonAll_eq hes]

end

/-- Expressions have the same skeleton if and only if they become equal without their signs. -/
theorem skeleton_eq_iff {e f : Expr} : e.skeleton = f.skeleton ↔ e.signless = f.signless := by
  refine ⟨signless_eq_of_skeleton_eq, fun h => ?_⟩
  rw [← skeleton_signless e, h, skeleton_signless f]

/-- A compound node has children, and a symbol is a letter. -/
def ReadableNode (e : Expr) : Prop := FilledNode e ∧ LetterNode e

/-- A compound node with readable children is readable. -/
theorem readable_compound {shape : Shape} {es : List Expr} (hne : es ≠ [])
    (hes : ∀ e ∈ es, e.skeleton.Readable) :
    (Skeleton.node shape shape.mark (skeletonAll es)).Readable := by
  rw [skeletonAll_eq_map]
  exact .compound (List.map_eq_nil_iff.not.2 hne) (List.forall_mem_map.2 hes)

/-- Expressions with letters as symbols and with children at their compound nodes are readable. -/
theorem readable_skeleton {e : Expr} (h : Everywhere ReadableNode e) : e.skeleton.Readable := by
  induction e using children_induction with
  | rational q => exact .leaf (Skeleton.word_of_mem_texts (TermGraph.digits_mem_texts q))
  | symbol s c => exact .leaf (Skeleton.word_toString (everywhere_symbol_iff.1 h).2)
  | sum s es ih =>
    obtain ⟨⟨hfilled, -⟩, hes⟩ := everywhere_sum_iff.1 h
    exact readable_compound (hfilled (sum_compound s es)) fun e he => ih e he (hes e he)
  | product s es ih =>
    obtain ⟨⟨hfilled, -⟩, hes⟩ := everywhere_product_iff.1 h
    exact readable_compound (hfilled (product_compound s es)) fun e he => ih e he (hes e he)
  | power s b x ihb ihx =>
    obtain ⟨-, hb, hx⟩ := everywhere_power_iff.1 h
    exact .compound (List.cons_ne_nil _ _)
      (List.forall_mem_cons.2 ⟨ihb hb, List.forall_mem_singleton.2 (ihx hx)⟩)

end Expr

/-! ### Skeletons of nodes -/

/-- A symbol is a letter. -/
def TermHead.Lettered : TermHead → Prop
  | symbol c => Text.isLetter c = true
  | _ => True

instance : DecidablePred TermHead.Lettered
  | .symbol c => inferInstanceAs (Decidable (Text.isLetter c = true))
  | .rational .. | .sum | .product | .power => inferInstanceAs (Decidable True)

namespace TermNode

/-- The node is formed, a number shows itself, and a symbol is a letter. -/
def Readable (n : TermNode) : Prop :=
  n.Formed ∧ (n.shape = .rational → n.payload ∈ n.head.texts) ∧ n.head.Lettered

instance : DecidablePred Readable := fun _ => inferInstanceAs (Decidable (_ ∧ (_ → _) ∧ _))

/-- A node that is as it was made is readable, if its symbol is a letter. -/
theorem Made.readable {n : TermNode} (hn : n.Made) (hletter : n.head.Lettered) : n.Readable := by
  refine ⟨hn.1, fun hshape => ?_, hletter⟩
  obtain ⟨-, text, htext, hname⟩ := hn
  rw [shape] at hshape
  have hpayload : n.payload = text := by
    cases hhead : n.head <;> rw [hhead] at hshape <;> cases hshape
    rw [payload, hhead, hname]
    cases n.negated <;> simp
  rwa [hpayload]

/-- A readable node over readable children gives a readable skeleton. -/
theorem Readable.skeleton {n : TermNode} (hn : n.Readable) {ts : List Skeleton}
    (hlength : n.children.length = ts.length) (hts : ∀ t ∈ ts, t.Readable) :
    (Skeleton.node n.shape n.payload ts).Readable := by
  obtain ⟨hformed, hnumber, hletter⟩ := hn
  have hnil : ts = [] ↔ n.shape = .rational ∨ n.shape = .symbol := by
    refine Iff.trans ?_ hformed
    rw [← List.length_eq_zero_iff, ← hlength, List.length_eq_zero_iff]
  rw [shape] at hnil hnumber ⊢
  cases hhead : n.head with
  | rational p d =>
    rw [hhead] at hnil hnumber
    rw [hnil.2 (.inl rfl)]
    exact .leaf (Skeleton.word_of_mem_texts (hnumber rfl))
  | symbol c =>
    rw [hhead] at hnil hletter
    rw [hnil.2 (.inr rfl), payload, hhead]
    exact .leaf (Skeleton.word_toString hletter)
  | sum | product | power =>
    rw [hhead] at hnil
    rw [payload, hhead]
    exact .compound (hnil.not.2 (by rintro (⟨⟨⟩⟩ | ⟨⟨⟩⟩))) hts

end TermNode

namespace TermGraph

variable {g h : TermGraph} {r : Ref} {n : Nat}

def skeletonWithin (g : TermGraph) : Nat → Ref → Except AlgebraError Skeleton
  | 0, _ => .error .endless
  | fuel + 1, r => do
    let n := g.node r
    return .node n.shape n.payload (← n.children.mapM (g.skeletonWithin fuel))

/-- The shapes and payloads of a node and of those below it. -/
def skeleton (g : TermGraph) (r : Ref) : Except AlgebraError Skeleton :=
  g.skeletonWithin g.depthBound r

/-- The raw text of a readable node is that of its skeleton. -/
theorem Below.exists_skeleton (hr : Below TermNode.Readable g n r) :
    ∃ t, g.skeletonWithin n r = .ok t ∧ g.rawWithin n r = .ok t.text ∧ t.Readable := by
  induction n generalizing r with
  | zero => cases hr
  | succ n ih =>
    obtain ⟨-, hnode, hchildren⟩ := hr
    obtain ⟨ts, hts⟩ := exists_forall₂ fun c hc => ih (hchildren c hc)
    refine ⟨.node (g.node r).shape (g.node r).payload ts, ?_, ?_,
      hnode.skeleton hts.length_eq (forall_of_forall₂ hts fun _ _ ht => ht.2.2)⟩
    · rw [skeletonWithin, mapM_eq_ok_iff.2 (hts.imp fun _ _ => And.left)]
      rfl
    · have hraw : (g.node r).children.mapM (g.rawWithin n) = .ok (ts.map Skeleton.text) :=
        mapM_eq_ok_iff.2 (List.forall₂_map_right_iff.2 (hts.imp fun _ _ ht => ht.2.1))
      rw [rawWithin, hraw, Skeleton.text, Skeleton.textAll_eq_map]
      rfl

/-! ### What descriptions make -/

/-- All symbols are letters. -/
def Lettered (g : TermGraph) : Prop := ∀ n ∈ g.nodes, n.head.Lettered

theorem Lettered.node (hg : g.Lettered) (r : Ref) : (g.node r).head.Lettered := by
  by_cases hr : r < g.nodes.size
  · rw [node_eq, Array.getElem?_eq_getElem hr]
    exact hg _ (Array.getElem_mem hr)
  · rw [node_of_size_le (Nat.le_of_not_lt hr)]
    trivial

/-- Adding a node with a letter as its symbol keeps the symbols letters. -/
theorem Lettered.push (hg : g.Lettered) {n : TermNode} (hn : n.head.Lettered) :
    (g.push n).2.Lettered := by
  intro m hm
  rcases Array.mem_push.1 hm with hm | rfl
  · exact hg m hm
  · exact hn

theorem letterNode_assemble {n : TermNode} (hn : n.head.Lettered) (es : List Expr) :
    Expr.LetterNode (assemble n es) := by
  unfold assemble
  split
  · split <;> trivial
  · rename_i hhead
    rewrite [hhead] at hn
    exact hn
  all_goals trivial

/-- What is read off a graph with letters has letters as symbols. -/
theorem Lettered.everywhere_exprWithin (hg : g.Lettered) {e : Expr}
    (he : g.exprWithin n r = .ok e) : Everywhere Expr.LetterNode e := by
  induction n generalizing r e with
  | zero => cases he
  | succ n ih =>
    rw [exprWithin] at he
    obtain ⟨es, hes, he⟩ := bind_eq_ok he
    cases he
    refine .of_children (letterNode_assemble (hg.node r) es) fun c hc => ?_
    exact forall_of_forall₂ (mapM_eq_ok_iff.1 hes) (fun _ _ => ih) c
      (children_assemble_subset _ es hc)

mutual

/-- Adding an expression with letters as symbols keeps the symbols letters. -/
theorem Lettered.addBelow {parent : Option (Shape × String)} : ∀ {e : Expr} {g : TermGraph},
    g.Lettered → Everywhere Expr.LetterNode e → (TermGraph.addBelow parent e g).2.Lettered
  | .rational q, g, hg, _ => by
    rw [TermGraph.addBelow]
    exact hg.push trivial
  | .symbol s c, g, hg, he => by
    rw [TermGraph.addBelow]
    exact hg.push (Expr.everywhere_symbol_iff.1 he)
  | .sum s es, g, hg, he => by
    rw [TermGraph.addBelow]
    exact (hg.addAllBelow (Expr.everywhere_sum_iff.1 he).2).push trivial
  | .product s es, g, hg, he => by
    rw [TermGraph.addBelow]
    exact (hg.addAllBelow (Expr.everywhere_product_iff.1 he).2).push trivial
  | .power s b x, g, hg, he => by
    obtain ⟨-, hb, hx⟩ := Expr.everywhere_power_iff.1 he
    rw [TermGraph.addBelow]
    exact ((hg.addBelow hb).addBelow hx).push trivial

theorem Lettered.addAllBelow {parent : Option (Shape × String)} :
    ∀ {es : List Expr} {g : TermGraph},
    g.Lettered → (∀ e ∈ es, Everywhere Expr.LetterNode e) →
      (TermGraph.addAllBelow parent es g).2.Lettered
  | [], _, hg, _ => hg
  | e :: es, g, hg, hes => by
    obtain ⟨he, hes⟩ := List.forall_mem_cons.1 hes
    rw [TermGraph.addAllBelow]
    exact (hg.addBelow he).addAllBelow hes

end

/-- Made nodes over a graph with letters are readable all the way down. -/
theorem Below.readable (hg : g.Lettered) (hr : Below TermNode.Made g n r) :
    Below TermNode.Readable g n r := by
  induction n generalizing r with
  | zero => cases hr
  | succ n ih =>
    obtain ⟨hsize, hmade, hchildren⟩ := hr
    exact ⟨hsize, hmade.readable (hg.node r), fun c hc => ih (hchildren c hc)⟩

namespace Edit

variable {α β : Type} {x : Edit α}

/-- If all symbols are letters before, they are so afterwards. -/
def KeepsLetters (x : Edit α) : Prop := ∀ ⦃g a h⦄, g.Lettered → Gives x g a h → h.Lettered

theorem keepsLetters_pure (a : α) : KeepsLetters (pure a : Edit α) := by
  intro g b h hg hgives
  obtain ⟨-, rfl⟩ := gives_pure.1 hgives
  exact hg

theorem keepsLetters_throw (error : AlgebraError) : KeepsLetters (throw error : Edit α) :=
  fun _ _ _ _ hgives => absurd hgives not_gives_throw

/-- Computations in a row keep the symbols letters if each does. -/
theorem KeepsLetters.bind (hx : KeepsLetters x) {f : α → Edit β} (hf : ∀ a, KeepsLetters (f a)) :
    KeepsLetters (x >>= f) := by
  intro g b h hg hgives
  obtain ⟨a, k, ha, hb⟩ := gives_bind.1 hgives
  exact hf a (hx hg ha) hb

theorem KeepsLetters.map (hx : KeepsLetters x) (f : α → β) : KeepsLetters (f <$> x) := by
  intro g b h hg hgives
  obtain ⟨a, ha, -⟩ := gives_map.1 hgives
  exact hx hg ha

theorem keepsLetters_add {e : Expr} (he : Everywhere Expr.LetterNode e) : KeepsLetters (add e) := by
  intro g r h hg hgives
  obtain ⟨-, rfl⟩ := gives_add.1 hgives
  exact hg.addBelow he

/-- Making a number brings in no symbol. -/
theorem keepsLetters_addRational (num den : Int) (negated : Bool) :
    KeepsLetters (addRational num den negated) := by
  rw [addRational]
  split
  · exact keepsLetters_throw _
  · intro g r h hg hgives
    obtain ⟨-, rfl⟩ := (gives_of_run_eq rfl).1 hgives
    exact hg.push trivial

/-- A symbol is made of a letter only. -/
theorem keepsLetters_addSymbol (letter : Option String) (negated : Bool) :
    KeepsLetters (addSymbol letter negated) := by
  rw [addSymbol]
  split
  · exact keepsLetters_throw _
  · split
    · rename_i hletter
      exact keepsLetters_add (Expr.everywhere_symbol_iff.2 hletter)
    · exact keepsLetters_throw _
  · exact keepsLetters_throw _

/-- What a datum reads as has letters as symbols, if the graph does. -/
theorem Reads.letters {d : Datum} {e : Expr} (hg : g.Lettered) (hd : Reads g d e) :
    Everywhere Expr.LetterNode e := by
  obtain ⟨r, -, he⟩ := hd
  exact hg.everywhere_exprWithin he

theorem letterNode_copy (e : Expr) : Expr.LetterNode e.copy ↔ Expr.LetterNode e := by
  cases e <;> exact Iff.rfl

/-- A compound node made of parts has the symbols of its parts. -/
theorem keepsLetters_addParts {error : AlgebraError} {make : List Expr → Expr} {ds : List Datum}
    (hmake : ∀ es, (∀ e ∈ es, Everywhere Expr.LetterNode e) →
      Everywhere Expr.LetterNode (make es)) :
    KeepsLetters (do
      if ds.length < 2 then throw error
      add (make (← ds.mapM partOf))) := by
  intro g r h hg hgives
  obtain ⟨-, es, hes, hadd⟩ := gives_addParts.1 hgives
  have hletters := forall_of_forall₂ hes fun _ _ hd => hd.letters hg
  exact keepsLetters_add (hmake es hletters) hg (gives_add.2 (Prod.ext_iff.1 hadd))

theorem keepsLetters_addSum (ds : List Datum) (s : Bool) : KeepsLetters (addSum ds s) :=
  keepsLetters_addParts fun _ hes => (Expr.everywhere_mkSum_iff letterNode_copy).2 ⟨trivial, hes⟩

theorem keepsLetters_addProduct (ds : List Datum) (s : Bool) : KeepsLetters (addProduct ds s) :=
  keepsLetters_addParts fun _ hes => (Expr.everywhere_mkProduct_iff letterNode_copy).2
    ⟨trivial, hes⟩

theorem keepsLetters_addPower (b x : Datum) (s : Bool) : KeepsLetters (addPower b x s) := by
  intro g r h hg hgives
  rw [addPower] at hgives
  obtain ⟨-, hgives⟩ := gives_unless.1 hgives
  obtain ⟨-, hgives⟩ := gives_unless.1 hgives
  obtain ⟨e, _, hpart, hgives⟩ := gives_bind.1 hgives
  obtain ⟨he, rfl⟩ := gives_partOf.1 hpart
  obtain ⟨f, _, hpart, hgives⟩ := gives_bind.1 hgives
  obtain ⟨hf, rfl⟩ := gives_partOf.1 hpart
  refine keepsLetters_add ((Expr.everywhere_copy_iff letterNode_copy (.power s e f)).2 ?_) hg hgives
  exact Expr.everywhere_power_iff.2 ⟨trivial, he.letters hg, hf.letters hg⟩

mutual

/-- Descriptions keep the symbols letters, by induction on the description. -/
theorem keepsLetters_build (registers : List (String × Datum)) : ∀ spec : TermSpec,
    KeepsLetters (build registers spec)
  | .rational num den negated => by
    rw [build]
    exact (keepsLetters_addRational num den negated).map _
  | .symbol letter negated => by
    rw [build]
    exact (keepsLetters_addSymbol letter negated).map _
  | .sum specs negated => by
    rw [build]
    exact (keepsLetters_buildAll registers specs).bind fun ds =>
      (keepsLetters_addSum ds negated).bind fun r => keepsLetters_pure _
  | .product specs negated => by
    rw [build]
    exact (keepsLetters_buildAll registers specs).bind fun ds =>
      (keepsLetters_addProduct ds negated).bind fun r => keepsLetters_pure _
  | .power b x negated => by
    rw [build]
    exact (keepsLetters_build registers b).bind fun base =>
      (keepsLetters_build registers x).bind fun exponent =>
        (keepsLetters_addPower base exponent negated).bind fun r => keepsLetters_pure _
  | .listless shape => by
    cases shape <;> exact keepsLetters_throw _
  | .register name => by
    rw [build]
    exact keepsLetters_pure _
  | .plain value => by
    rw [build]
    exact keepsLetters_pure _

theorem keepsLetters_buildAll (registers : List (String × Datum)) : ∀ specs : List TermSpec,
    KeepsLetters (buildAll registers specs)
  | [] => by
    rw [buildAll]
    exact keepsLetters_pure _
  | spec :: specs => by
    rw [buildAll]
    exact (keepsLetters_build registers spec).bind fun d =>
      (keepsLetters_buildAll registers specs).bind fun ds => keepsLetters_pure _

end

end Edit

end TermGraph

/-! ### Terms -/

namespace Term

def skeleton : Term → Except AlgebraError Skeleton
  | tree e => .ok e.skeleton
  | graph g r => g.skeleton r

/-- The term ends, its compound nodes are those with children, its numbers show themselves and its
symbols are letters. -/
def Readable : Term → Prop
  | tree e => Everywhere Expr.ReadableNode e
  | graph g r => TermGraph.Below TermNode.Readable g g.depthBound r

/-- A readable term has a skeleton, and its raw text is the text of that. -/
theorem Readable.exists_skeleton {t : Term} (ht : t.Readable) :
    ∃ s, t.skeleton = .ok s ∧ t.raw = .ok s.text ∧ s.Readable := by
  cases t with
  | tree e => exact ⟨e.skeleton, rfl, congrArg Except.ok e.raw_eq_text, Expr.readable_skeleton ht⟩
  | graph g r => exact TermGraph.Below.exists_skeleton ht

open TermGraph TermGraph.Edit

/-- Readable terms have a raw text, and it is the same for two of them exactly if they agree in
everything but their signs.  Expressions agree so if they become equal without their signs.  What a
description makes is readable. -/
theorem raw_eq_iff_skeleton_eq :
    (∀ a b : Term, a.Readable → b.Readable → ∃ s t u v, a.raw = .ok s ∧ b.raw = .ok t ∧
      a.skeleton = .ok u ∧ b.skeleton = .ok v ∧ (s = t ↔ u = v)) ∧
    (∀ e f : Expr, e.skeleton = f.skeleton ↔ e.signless = f.signless) ∧
    ∀ registers spec g r h, g.Lettered → (∀ p ∈ registers, p.2.MadeIn g) →
      Gives (build registers spec) g (.term r) h → h.Lettered ∧ h.Made r ∧
        (graph h r).Readable := by
  refine ⟨fun a b ha hb => ?_, fun e f => Expr.skeleton_eq_iff, ?_⟩
  · obtain ⟨u, hu, hs, hreadable⟩ := ha.exists_skeleton
    obtain ⟨v, hv, ht, hreadable'⟩ := hb.exists_skeleton
    exact ⟨u.text, v.text, u, v, hs, ht, hu, hv, hreadable.text_eq_iff hreadable'⟩
  · intro registers spec g r h hg hregisters hgives
    have hletters := keepsLetters_build registers spec hg hgives
    have hmade : h.Made r := (made_build spec hregisters hgives).2
    exact ⟨hletters, hmade, hmade.readable hletters⟩

/-- The sums -(-5 - S) and 5 + S of a number with its denominator and of a letter like the mark of a
sum, and the second sum with the denominator left out. -/
def threeSums : TermGraph where
  nodes := #[
    { head := .rational 5 1, negated := true, name := "-5/1" },
    { head := .symbol 'S', negated := true, name := "-S" },
    { head := .sum, negated := true, name := "-Add", children := [0, 1] },
    { head := .rational 5 1, negated := false, name := "5/1" },
    { head := .symbol 'S', negated := false, name := "S" },
    { head := .sum, negated := false, name := "Add", children := [3, 4] },
    { head := .rational 5 1, negated := false, name := "5" },
    { head := .sum, negated := false, name := "Add", children := [6, 4] }]

/-- Three sums with a symbol called like the mark: two that differ in signs and one that differs in
how its number is written. -/
theorem raw_eq_iff_skeleton_eq_threeSums :
    (∀ r ∈ [2, 5, 7], (graph threeSums r).Readable) ∧ threeSums.Lettered ∧ threeSums.Made 2 ∧
    (graph threeSums 2).skeleton = (graph threeSums 5).skeleton ∧
    (graph threeSums 5).skeleton ≠ (graph threeSums 7).skeleton ∧
    (Expr.sum true [.symbol true 'S', .ofNat 5]).skeleton =
      (Expr.sum false [.symbol false 'S', .ofNat 5]).skeleton ∧
    ∃ h, Gives (build [("a", .term 2)] (.product [.rational 2 (-3) true, .register "a"] true))
      threeSums (.term 13) h ∧ (graph h 13).Readable := by
  obtain ⟨hraw, hsignless, hbuild⟩ := raw_eq_iff_skeleton_eq
  have hreadable : ∀ r ∈ [2, 5, 7], Below TermNode.Readable threeSums threeSums.depthBound r := by
    decide +kernel
  have hletters : ∀ n ∈ threeSums.nodes, n.head.Lettered := by decide +kernel
  have hmade : Below TermNode.Made threeSums threeSums.depthBound 2 := by decide +kernel
  have htexts : (graph threeSums 2).raw = .ok "(S 5/1 S)" ∧
      (graph threeSums 5).raw = .ok "(S 5/1 S)" ∧
      (graph threeSums 7).raw = .ok "(S 5 S)" := ⟨rfl, rfl, rfl⟩
  obtain ⟨htwo, hfive, hseven⟩ := htexts
  refine ⟨hreadable, hletters, hmade, ?_, ?_, ?_, ?_⟩
  · obtain ⟨s, t, u, v, hs, ht, hu, hv, hiff⟩ :=
      hraw (graph threeSums 2) (graph threeSums 5) (hreadable 2 (by decide))
        (hreadable 5 (by decide))
    rw [hu, hv, hiff.1 (Except.ok.inj ((hs.symm.trans htwo).trans (hfive.symm.trans ht)))]
  · obtain ⟨s, t, u, v, hs, ht, hu, hv, hiff⟩ :=
      hraw (graph threeSums 5) (graph threeSums 7) (hreadable 5 (by decide))
        (hreadable 7 (by decide))
    obtain rfl := Except.ok.inj (hs.symm.trans hfive)
    obtain rfl := Except.ok.inj (ht.symm.trans hseven)
    rw [hu, hv]
    exact fun h => absurd (hiff.2 (Except.ok.inj h)) (by decide)
  · exact (hsignless _ _).2 rfl
  · obtain ⟨g, hgives⟩ : ∃ g, Gives (build [("a", .term 2)]
        (.product [.rational 2 (-3) true, .register "a"] true)) threeSums (.term 13) g := by
      with_unfolding_all exact ⟨_, Prod.ext rfl rfl⟩
    obtain ⟨-, -, h⟩ :=
      hbuild [("a", .term 2)] _ _ _ _ hletters (List.forall_mem_singleton.2 hmade) hgives
    exact ⟨_, hgives, h⟩

end Term

end SymScript
