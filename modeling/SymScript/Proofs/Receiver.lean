import SymScript.Proofs.Powers
import SymScript.Proofs.SimplifyInPlace
import SymScript.Proofs.Unshared

/-!
# What simplifying leaves behind

Simplifying a term gives another term and changes the one that it is called on.
`Expr.simplifyReceiver` says what that one has become, and for terms that share nothing the edit
does exactly this.

A sum keeps its value, since its addends are replaced by simplified ones. A product that is no
number loses the signs of its simplified factors, and nothing makes up for them in the product
itself: its value changes to the opposite if there was an odd number of them. The result has the
value that the term had before.
-/

namespace SymScript

namespace Expr

/-! ### Simplifying by way of the children -/

/-- What an expression has become when it has been simplified: its children are simplified, the
factors of a product that is no number have lost their signs, and a power has taken over the sign of
its base. -/
def simplifyReceiver : Expr → Except AlgebraError Expr
  | rational q => .ok (rational q)
  | symbol s c => .ok (symbol s c)
  | sum s es => do return sum s (← es.mapM simplify)
  | product s es => do
    let rs ← es.mapM simplify
    return product s (if (numbers? rs).isNone then unsigned rs else rs)
  | power s b x => do
    let b ← simplify b
    let x ← simplify x
    let exact ← exactPower? b x
    return power (s != (exact.isNone && powerRule b x == .negatedBase)) b x

theorem exists_simplify_eq (e : Expr) : ∃ n, simplify e = simplifyWithin (n + 1) e :=
  ⟨e.simplifyBound - 1,
    by rw [simplify, Nat.sub_add_cancel (Nat.one_le_of_lt (mass_lt_simplifyBound e))]⟩

/-- Results at some depth are the results. -/
theorem mapM_simplify_of_within {n : Nat} {es rs : List Expr}
    (h : es.mapM (simplifyWithin n) = .ok rs) : es.mapM simplify = .ok rs :=
  mapM_eq_ok_iff.2 ((mapM_eq_ok_iff.1 h).imp fun _ _ => simplify_eq_of_simplifyWithin)

theorem Refines.eq_ok {α : Type} {x y : Except AlgebraError α} {a : α} (h : Refines x y)
    (hx : x = .ok a) : y = .ok a := by
  rw [h (by rw [hx]; rintro ⟨⟩), hx]

/-- A simplified sum was finished from simplified addends. -/
theorem simplify_sum_inv {s : Bool} {es : List Expr} {a : Expr} (h : simplify (sum s es) = .ok a) :
    ∃ rs, es.mapM simplify = .ok rs ∧ finishSum simplify s rs = .ok a := by
  obtain ⟨n, hn⟩ := exists_simplify_eq (sum s es)
  rw [hn] at h
  obtain ⟨rs, hrs, h⟩ := bind_eq_ok h
  exact ⟨rs, mapM_simplify_of_within hrs, (Refines.finishSum (refines_simplify n) s rs).eq_ok h⟩

/-- A simplified product was finished from simplified factors. -/
theorem simplify_product_inv {s : Bool} {es : List Expr} {a : Expr}
    (h : simplify (product s es) = .ok a) :
    ∃ rs, es.mapM simplify = .ok rs ∧ finishProduct simplify s rs = .ok a := by
  obtain ⟨n, hn⟩ := exists_simplify_eq (product s es)
  rw [hn] at h
  obtain ⟨rs, hrs, h⟩ := bind_eq_ok h
  exact ⟨rs, mapM_simplify_of_within hrs, (Refines.finishProduct (refines_simplify n) s rs).eq_ok h⟩

/-- A simplified power was finished from its simplified parts. -/
theorem simplify_power_inv {s : Bool} {b x a : Expr} (h : simplify (power s b x) = .ok a) :
    ∃ b' x', simplify b = .ok b' ∧ simplify x = .ok x' ∧ finishPower simplify s b' x' = .ok a := by
  obtain ⟨n, hn⟩ := exists_simplify_eq (power s b x)
  rw [hn] at h
  obtain ⟨b', hb, h⟩ := bind_eq_ok h
  obtain ⟨x', hx, h⟩ := bind_eq_ok h
  exact ⟨b', x', simplify_eq_of_simplifyWithin hb, simplify_eq_of_simplifyWithin hx,
    (Refines.finishPower (refines_simplify n) s b' x').eq_ok h⟩

end Expr

namespace TermGraph

variable {g h k : TermGraph} {t u : Subtree} {ts us : List Subtree} {r s : Ref}
  {e e' a : Expr} {n : Nat}

/-! ### Changing a term -/

/-- The root of the subtree has come to read as the expression. Other nodes are fresh or as they
were. -/
structure Becomes (g : TermGraph) (t : Subtree) (e : Expr) (k : TermGraph) : Prop where
  size_le : g.nodes.size ≤ k.nodes.size
  node_eq : ∀ i < g.nodes.size, i ∉ t.places → k.node i = g.node i
  unshared : ∃ places, Unshared k ⟨t.root, e, places⟩

theorem Becomes.negated_eq (hb : Becomes g t e k) : (k.node t.root).negated = e.negated := by
  obtain ⟨places, _, _, _, hnegated⟩ := hb.unshared
  exact hnegated

theorem Unshared.root_mem (ht : Unshared g t) : t.root ∈ t.places := by
  cases ht with
  | intro _ _ _ _ _ _ places =>
    rw [places]
    exact List.mem_cons_self

namespace Becomes

theorem refl (ht : Unshared g t) : Becomes g t t.expr g :=
  ⟨Nat.le_refl _, fun _ _ _ => rfl, t.places, ht⟩

/-- The root gets other children. -/
theorem setChildren (ht : Unshared g t) (hb : Becomes g t e k) (hv : Visited k ts us h) (e' : Expr)
    (hts : ∀ i ∈ placesOf ts, i ∈ t.places ∧ i ≠ t.root) (hhead : headOf e' = headOf e)
    (hnegated : e'.negated = e.negated) (hexprs : e'.children = us.map Subtree.expr) :
    Becomes g t e' (h.setChildren t.root (us.map Subtree.root)) ∧
      Forest (h.setChildren t.root (us.map Subtree.root)) us := by
  obtain ⟨places, hunshared⟩ := hb.unshared
  have hroot : t.root ∉ placesOf ts := fun hmem => (hts _ hmem).2 rfl
  cases hunshared with
  | intro _ hlt hhead' hnegated' =>
    obtain ⟨hforest, hnew⟩ := hv.setChildren hlt hroot (hhead'.trans hhead.symm)
      (hnegated'.trans hnegated.symm) hexprs
    refine ⟨⟨?_, fun i hi hmem => ?_, _, hnew⟩, hforest⟩
    · rw [TermGraph.setChildren, size_update]
      exact Nat.le_trans hb.size_le hv.size_le
    · have hne : i ≠ t.root := by
        rintro rfl
        exact hmem ht.root_mem
      rw [TermGraph.setChildren, node_update_of_ne hne,
        hv.node_eq i (Nat.lt_of_lt_of_le hi hb.size_le) fun hi => hmem (hts i hi).1,
        hb.node_eq i hi hmem]

/-- The root gets another sign. -/
theorem setSign (ht : Unshared g t) (hb : Becomes g t e k) {f : TermNode → TermNode}
    (hf : f (k.node t.root) = { k.node t.root with negated := e'.negated })
    (hhead : headOf e' = headOf e)
    (hchildren : e'.children = e.children) : Becomes g t e' (k.update t.root f) := by
  obtain ⟨places, hunshared⟩ := hb.unshared
  cases hunshared with
  | intro below lt head negated roots exprs hplaces nodup trees =>
    have hnode : (k.update t.root f).node t.root = _ := (node_update_self lt f).trans hf
    refine ⟨?_, fun i hi hmem => ?_, _, below, ?_, ?_, ?_, ?_, hchildren.trans exprs,
      hplaces, nodup, ?_⟩
    · rw [size_update]
      exact hb.size_le
    · have hne : i ≠ t.root := by
        rintro rfl
        exact hmem ht.root_mem
      rw [node_update_of_ne hne, hb.node_eq i hi hmem]
    · rwa [size_update]
    · rw [hnode]
      exact head.trans hhead.symm
    · rw [hnode]
    · rw [hnode]
      exact roots
    · intro v hv
      refine (trees v hv).of_node_eq (Nat.le_of_eq (size_update _ _ _).symm) fun i hi =>
        node_update_of_ne ?_ _
      rintro rfl
      rw [hplaces] at nodup
      exact (List.nodup_cons.1 nodup).1 (mem_placesOf.2 ⟨v, hv, hi⟩)

/-- The result is added. -/
theorem addResult (hb : Becomes g t e k) (a : Expr) :
    ∃ u h, Edit.Gives (Edit.addResult (.ok a)) k u.root h ∧ Visited g [t] [u] h ∧ u.expr = a ∧
      Becomes g t e h := by
  obtain ⟨u, h, hgives, hv, rfl⟩ := Edit.add_visited k a
  obtain ⟨hroot, hgraph⟩ := Edit.gives_add.1 hgives
  obtain ⟨places, hunshared⟩ := hb.unshared
  have hsize := Nat.le_trans hb.size_le hv.size_le
  have hnode : ∀ i < g.nodes.size, i ∉ t.places → h.node i = g.node i := fun i hi hmem => by
    rw [hv.node_eq i (Nat.lt_of_lt_of_le hi hb.size_le) List.not_mem_nil, hb.node_eq i hi hmem]
  refine ⟨u, h, Edit.gives_addResult.2 ⟨u.expr, rfl, hroot, hgraph⟩,
    ⟨hsize, ?_, hv.forest, ?_⟩, rfl, hsize, hnode, places, ?_⟩
  · rw [placesOf_singleton]
    exact hnode
  · exact fun i hi =>
      .inr (Nat.le_trans hb.size_le ((hv.places i hi).resolve_left List.not_mem_nil))
  · exact (hv.keeps hunshared.forest fun i _ => List.not_mem_nil).trees _ List.mem_cons_self

end Becomes

namespace Edit

/-! ### One visit -/

/-- Run on `k`, the computation ends a visit of the subtree of `g`: it gives the expression `a` and
leaves the root of the subtree as `e`. -/
def EndsVisit (x : Edit Ref) (g : TermGraph) (t : Subtree) (k : TermGraph) (a e : Expr) : Prop :=
  ∃ u h, Gives x k u.root h ∧ Visited g [t] [u] h ∧ u.expr = a ∧ Becomes g t e h

/-- What comes before the end of a visit may be left out. -/
theorem EndsVisit.of_gives {α : Type} {x : Edit α} {f : α → Edit Ref} {b : α} (hx : Gives x k b h)
    (hf : EndsVisit (f b) g t h a e) : EndsVisit (x >>= f) g t k a e := by
  obtain ⟨u, l, hgives, hrest⟩ := hf
  exact ⟨u, l, gives_bind.2 ⟨b, h, hx, hgives⟩, hrest⟩

/-- Adding a result ends a visit that has not changed the node. -/
theorem endsVisit_addResult (hb : Becomes g t e k) {x : Except AlgebraError Expr} (hx : x = .ok a) :
    EndsVisit (addResult x) g t k a e := by
  subst hx
  exact hb.addResult a

/-- The last step of every visit reads the sign of its node. -/
theorem endsVisit_signed (hb : Becomes g t e k) {f : Bool → Except AlgebraError Expr}
    (ha : f e.negated = .ok a) : EndsVisit (do addResult (f (← node t.root).negated)) g t k a e :=
  .of_gives (gives_node.2 ⟨rfl, rfl⟩) (endsVisit_addResult hb (hb.negated_eq ▸ ha))

/-- A visit to a sum leaves it with its simplified addends. -/
theorem simplifySum_endsVisit {s : Bool} {es : List Expr} (hb : Becomes g t (.sum s es) k)
    (ha : Expr.finishSum Expr.simplify s es = .ok a) :
    EndsVisit (simplifySum t.root es) g t k a (.sum s es) :=
  endsVisit_signed (f := fun s => Expr.finishSum Expr.simplify s es) hb ha

/-- A visit to a product may also take the signs of its factors away. -/
theorem simplifyProduct_endsVisit {s : Bool} {es : List Expr} (ht : Unshared g t)
    (hb : Becomes g t (.product s es) k) (ha : Expr.finishProduct Expr.simplify s es = .ok a) :
    EndsVisit (simplifyProduct t.root es) g t k a
      (.product s (if (Expr.numbers? es).isNone then Expr.unsigned es else es)) := by
  have hend {k : TermGraph} {fs : List Expr} (hb : Becomes g t (.product s fs) k) :=
    endsVisit_signed (f := fun s => Expr.finishProduct Expr.simplify s es) hb ha
  rw [simplifyProduct]
  split
  · -- the factors without their signs are added and take the places of the factors
    obtain ⟨us, l, hgives, hv, hexprs⟩ := mapM_add_visited k (Expr.unsigned es)
    obtain ⟨hbecomes, -⟩ :=
      hb.setChildren ht hv (.product s (Expr.unsigned es)) (List.forall_mem_nil _)
      rfl rfl hexprs.symm
    exact .of_gives hgives (.of_gives (b := ()) (gives_setChildren.2 rfl) (hend hbecomes))
  · exact hend hb

/-- A visit to a power may also change its sign. -/
theorem simplifyPower_endsVisit {s : Bool} {b x : Expr} {exact : Option Fraction}
    (ht : Unshared g t)
    (hb : Becomes g t (.power s b x) k) (hexact : Expr.exactPower? b x = .ok exact)
    (ha : Expr.finishPower Expr.simplify s b x = .ok a) :
    EndsVisit (simplifyPower t.root b x) g t k a
      (.power (s != (exact.isNone && Expr.powerRule b x == .negatedBase)) b x) := by
  have hend {k : TermGraph} {s' : Bool} (hb : Becomes g t (.power s' b x) k) :=
    endsVisit_addResult hb ha
  rw [simplifyPower]
  refine .of_gives (gives_node.2 ⟨rfl, rfl⟩) (.of_gives (gives_ofExcept.2 ⟨hexact, rfl⟩) ?_)
  rw [hb.negated_eq]
  split
  · rename_i hrule
    rw [hrule]
    refine .of_gives (b := ()) (gives_modify.2 rfl) (hend (hb.setSign ht ?_ rfl rfl))
    rw [hb.negated_eq]
    cases s <;> rfl
  · rename_i hrule
    rw [eq_false_of_ne_true hrule, Bool.bne_false]
    exact hend hb

/-- The children are simplified and replaced, and what they have become is read. -/
theorem replaceChildren_endsVisit (ht : Unshared g t) {es : List Expr}
    (hes : t.expr.children.mapM Expr.simplify = .ok es)
    (ih : ∀ {c g a}, Unshared g c → c.expr.size ≤ n → c.expr.simplify = .ok a →
      ∃ u h, Gives (simplifyWithin n c.root) g u.root h ∧ Visited g [c] [u] h ∧ u.expr = a)
    (hn : t.expr.size ≤ n + 1) (e' : Expr) (hhead : headOf e' = headOf t.expr)
    (hnegated : e'.negated = t.expr.negated) (hchildren : e'.children = es)
    {F : List Expr → Edit Ref} (hF : ∀ k, Becomes g t e' k → EndsVisit (F es) g t k a e) :
    EndsVisit (do
      let cs ← (g.node t.root).children.mapM (simplifyWithin n)
      setChildren t.root cs
      F (← exprs cs)) g t g a e := by
  cases id ht with
  | intro below _ _ _ roots exprs places nodup trees =>
    rw [places, List.nodup_cons] at nodup
    rw [exprs] at hes
    have hforest : Forest g below := ⟨trees, nodup.2⟩
    have hvisit : ∀ c ∈ below, ∀ {g}, Unshared g c →
        ∃ u h, Gives (simplifyWithin n c.root) g u.root h ∧
        Visited g [c] [u] h ∧ c.expr.simplify = .ok u.expr := by
      intro c hc g hunshared
      have hmem := List.mem_map_of_mem (f := Subtree.expr) hc
      obtain ⟨a, -, ha⟩ := exists_of_forall₂ (mapM_eq_ok_iff.1 hes) hmem
      have hlt := Expr.size_lt_of_mem_children (exprs ▸ hmem)
      obtain ⟨u, h, hgives, hv, rfl⟩ := ih hunshared (by omega) ha
      exact ⟨u, h, hgives, hv, ha⟩
    obtain ⟨us, k, hgives, hv, hread⟩ := mapM_visited hvisit hforest
    obtain rfl : us.map Subtree.expr = es := by
      have hmap := mapM_eq_ok_iff.2
        (List.forall₂_map_left_iff.2 (List.forall₂_map_right_iff.2 hread))
      exact Except.ok.inj (hmap.symm.trans hes)
    have hplaces : ∀ i ∈ placesOf below, i ∈ t.places ∧ i ≠ t.root := by
      intro i hi
      refine ⟨places ▸ List.mem_cons_of_mem _ hi, ?_⟩
      rintro rfl
      exact nodup.1 hi
    obtain ⟨hbecomes, hset⟩ :=
      (Becomes.refl ht).setChildren ht hv e' hplaces hhead hnegated hchildren
    rw [roots]
    exact .of_gives hgives (.of_gives (b := ()) (gives_setChildren.2 rfl)
      (.of_gives (gives_exprs_of_forest hset) (hF _ hbecomes)))

/-- A visit of a term that shares nothing, by induction on its depth: the children are visited one
after another, and none of them changes the others. -/
theorem simplifyWithin_endsVisit (ht : Unshared g t) (hn : t.expr.size ≤ n)
    (ha : t.expr.simplify = .ok a) :
    ∃ e, t.expr.simplifyReceiver = .ok e ∧ EndsVisit (simplifyWithin n t.root) g t g a e := by
  induction n generalizing g t a with
  | zero => exact absurd hn (Nat.not_le_of_gt t.expr.size_pos)
  | succ n ih =>
    have hchildren {c : Subtree} {g : TermGraph} {a : Expr} (hc : Unshared g c)
        (hn : c.expr.size ≤ n) (ha : c.expr.simplify = .ok a) :
        ∃ u h, Gives (simplifyWithin n c.root) g u.root h ∧ Visited g [c] [u] h ∧ u.expr = a := by
      obtain ⟨-, -, u, h, hgives, hv, hu, -⟩ := ih hc hn ha
      exact ⟨u, h, hgives, hv, hu⟩
    have hhead : (g.node t.root).head = headOf t.expr := by
      cases ht
      assumption
    rw [simplifyWithin]
    cases hexpr : t.expr with
    | rational q =>
      refine ⟨.rational q, rfl, .of_gives (gives_node.2 ⟨rfl, rfl⟩) ?_⟩
      rw [hhead, hexpr]
      exact .of_gives (gives_expr.2 ⟨ht.expr_eq, rfl⟩) (endsVisit_addResult (hexpr ▸ .refl ht) ha)
    | symbol s c =>
      refine ⟨.symbol s c, rfl, .of_gives (gives_node.2 ⟨rfl, rfl⟩) ?_⟩
      rw [hhead, hexpr]
      obtain rfl : t.expr = a := Except.ok.inj (by rw [← ha, hexpr]; rfl)
      exact ⟨t, g, gives_pure.2 ⟨rfl, rfl⟩, .refl ht.forest, rfl, hexpr ▸ .refl ht⟩
    | sum s es =>
      rw [hexpr] at ha
      obtain ⟨rs, hrs, ha⟩ := Expr.simplify_sum_inv ha
      refine ⟨.sum s rs, by rw [Expr.simplifyReceiver, hrs]; rfl,
        .of_gives (gives_node.2 ⟨rfl, rfl⟩) ?_⟩
      rw [hhead, hexpr]
      exact replaceChildren_endsVisit ht (hexpr ▸ hrs) hchildren hn (.sum s rs) (hexpr ▸ rfl)
        (hexpr ▸ rfl) rfl fun k hb => simplifySum_endsVisit hb ha
    | product s es =>
      rw [hexpr] at ha
      obtain ⟨rs, hrs, ha⟩ := Expr.simplify_product_inv ha
      refine ⟨_, by rw [Expr.simplifyReceiver, hrs]; rfl, .of_gives (gives_node.2 ⟨rfl, rfl⟩) ?_⟩
      rw [hhead, hexpr]
      exact replaceChildren_endsVisit ht (hexpr ▸ hrs) hchildren hn (.product s rs) (hexpr ▸ rfl)
        (hexpr ▸ rfl) rfl fun k hb => simplifyProduct_endsVisit ht hb ha
    | power s b x =>
      rw [hexpr] at ha
      obtain ⟨b', x', hb, hx, ha⟩ := Expr.simplify_power_inv ha
      obtain ⟨exact, hexact, -⟩ := bind_eq_ok ha
      have hrs : t.expr.children.mapM Expr.simplify = .ok [b', x'] := by
        rw [hexpr]
        exact mapM_eq_ok_iff.2 (.cons hb (.cons hx .nil))
      have hreceiver : (Expr.power s b x).simplifyReceiver = .ok (.power
          (s != (exact.isNone && Expr.powerRule b' x' == .negatedBase)) b' x') := by
        rw [Expr.simplifyReceiver, hb, hx]
        change (Expr.exactPower? b' x' >>= _) = _
        rw [hexact]
        rfl
      refine ⟨_, hreceiver, .of_gives (gives_node.2 ⟨rfl, rfl⟩) ?_⟩
      rw [hhead, hexpr]
      exact replaceChildren_endsVisit ht hrs hchildren hn (.power s b' x') (hexpr ▸ rfl)
        (hexpr ▸ rfl) rfl fun k hb => simplifyPower_endsVisit ht hb hexact ha

/-- On a term that shares nothing the edit simplifies the expression and leaves behind what
`Expr.simplifyReceiver` says, again without anything shared. -/
theorem simplify_unshared (ht : Unshared g t) (ha : t.expr.simplify = .ok a) :
    ∃ s h e places, Gives (simplify t.root) g s h ∧ h.expr s = .ok a ∧
      t.expr.simplifyReceiver = .ok e ∧ Unshared h ⟨t.root, e, places⟩ := by
  have hn : t.expr.size ≤ g.depthBound := Nat.le_succ_of_le ht.size_le
  obtain ⟨e, he, u, h, hgives, hv, rfl, hb⟩ := simplifyWithin_endsVisit ht hn ha
  obtain ⟨places, hunshared⟩ := hb.unshared
  refine ⟨u.root, h, e, places, gives_bind.2 ⟨g, g, gives_get.2 ⟨rfl, rfl⟩, hgives⟩, ?_,
    he, hunshared⟩
  exact (hv.forest.trees u List.mem_cons_self).expr_eq

end Edit

end TermGraph

/-! ### Values -/

namespace Expr

/-- Simplifying changes the value of its receiver to the opposite: the receiver is a product, its
factors do not all simplify to numbers, and an odd number of them simplifies to something
negated. -/
def flipsReceiver : Expr → Bool
  | product _ es =>
    match es.mapM simplify with
    | .ok rs => (numbers? rs).isNone && productSign false rs
    | .error _ => false
  | _ => false

/-- The second expression has a value everywhere, the one of the first. -/
def SameTotal (e r : Expr) : Prop := Total r ∧ ∀ ρ : Char → ℚ, value ρ r = value ρ e

/-- Simplifying keeps a total expression total, with the same value. -/
theorem sameTotal_of_simplify {e r : Expr} (he : Total e) (hr : simplify e = .ok r) :
    SameTotal e r := by
  obtain ⟨r', hr', -, hgrouped, hvalue⟩ := he.1.simplify_defined
  cases hr.symm.trans hr'
  exact ⟨⟨hgrouped, fun ρ => (hvalue ρ (he.2 ρ)).1⟩, fun ρ => (hvalue ρ (he.2 ρ)).2⟩

/-- Simplifying keeps the values of a list. -/
theorem forall₂_sameTotal {es rs : List Expr} (hes : ∀ e ∈ es, Total e)
    (hrs : es.mapM simplify = .ok rs) : List.Forall₂ SameTotal es rs :=
  ((List.forall₂_and_left _ _).2 ⟨hes, mapM_eq_ok_iff.1 hrs⟩).imp fun _ _ h =>
    sameTotal_of_simplify h.1 h.2

theorem map_value_of_sameTotal {es rs : List Expr} (h : List.Forall₂ SameTotal es rs)
    (ρ : Char → ℚ) : rs.map (value ρ) = es.map (value ρ) :=
  map_value_of_forall₂ (h.imp fun _ _ hr => ⟨hr.1, hr.2 ρ⟩)

/-- Factors that lose their signs change the value of the product by the sign that they make up. -/
theorem valueProduct_unsigned {K : Type*} [Field K] (ρ : Char → K) (es : List Expr) :
    valueProduct ρ (unsigned es) = signed (productSign false es) (valueProduct ρ es) := by
  have h := signed_productSign (ρ := ρ) false es
  rw [signed_false] at h
  rw [← h, signed_signed, bne_self_eq_false, signed_false]

/-- What a visit leaves in the node has the value of the expression, up to a sign. -/
theorem value_simplifyReceiver {e r : Expr} (he : Total e) (hshape : e.shape ≠ .power)
    (hr : simplifyReceiver e = .ok r) :
    Total r ∧ ∀ ρ : Char → ℚ, value ρ r = signed e.flipsReceiver (value ρ e) := by
  cases e with
  | rational q =>
    cases hr
    exact ⟨he, fun _ => rfl⟩
  | symbol s c =>
    cases hr
    exact ⟨he, fun _ => rfl⟩
  | sum s es =>
    obtain ⟨rs, hrs, hr⟩ := bind_eq_ok hr
    cases hr
    have hsame := forall₂_sameTotal (hereditary_total.sum_iff.1 he) hrs
    refine ⟨hereditary_total.sum_iff.2 (forall_of_forall₂ hsame fun _ _ h => h.1), fun ρ => ?_⟩
    rw [value, valueSum_eq, map_value_of_sameTotal hsame, ← valueSum_eq, value]
    rfl
  | product s es =>
    obtain ⟨rs, hrs, hr⟩ := bind_eq_ok hr
    cases hr
    have hsame := forall₂_sameTotal (hereditary_total.product_iff.1 he) hrs
    have htotal : ∀ r ∈ rs, Total r := forall_of_forall₂ hsame fun _ _ h => h.1
    have hvalue (ρ : Char → ℚ) : valueProduct ρ rs = valueProduct ρ es := by
      rw [valueProduct_eq, map_value_of_sameTotal hsame, ← valueProduct_eq]
    rw [flipsReceiver, hrs]
    cases hnumbers : (numbers? rs).isNone with
    | false =>
      exact ⟨hereditary_total.product_iff.2 htotal, fun ρ => by simp [value, hvalue, hnumbers]⟩
    | true =>
      refine ⟨hereditary_total.product_iff.2 ?_, fun ρ => ?_⟩
      · exact List.forall_mem_map.2 fun r hr => hereditary_total.withSign (htotal r hr) false
      · simp only [hnumbers, if_true, value, valueProduct_unsigned, hvalue, Bool.true_and,
          signed_signed]
        rw [bne_comm]
  | power => exact absurd rfl hshape

/-- The opposite of `x` times `y + 1`. -/
abbrev oppositeTimesSum : Expr :=
  product false [symbol true 'x', sum false [symbol false 'y', ofNat 1]]

/-- The opposite of `x` times `y`. -/
abbrev oppositeTimes : Expr := product false [symbol true 'x', symbol false 'y']

/-- The product of `x` with `y`, or its opposite. -/
abbrev xTimesY (s : Bool) : Expr := product s [symbol false 'x', symbol false 'y']

end Expr

namespace TermGraph.Edit

open SymScript.Expr

/-- Simplifying a polynomial gives something of the same value and leaves the polynomial with its
value, or with the opposite one if it flips; simplified again, it gives something of the value that
it was left with. -/
theorem simplify_receiver_value {g : TermGraph} {t : Subtree} (ht : Unshared g t)
    (he : PowerFree t.expr) :
    g.expr t.root = .ok t.expr ∧ ∃ s h a e s' h' a',
      Gives (simplify t.root) g s h ∧ h.expr s = .ok a ∧ h.expr t.root = .ok e ∧
      Gives (simplify t.root) h s' h' ∧ h'.expr s' = .ok a' ∧
      ∀ ρ : Char → ℚ, value ρ a = value ρ t.expr ∧
        value ρ e = signed t.expr.flipsReceiver (value ρ t.expr) ∧ value ρ a' = value ρ e := by
  obtain ⟨a, ha, -⟩ := he.total.1.simplify_defined
  obtain ⟨s, h, e, places, hgives, hs, hreceiver, hunshared⟩ := simplify_unshared ht ha
  obtain ⟨htotal, hvalue⟩ := value_simplifyReceiver he.total he.self hreceiver
  obtain ⟨a', ha', -⟩ := htotal.1.simplify_defined
  obtain ⟨s', h', -, -, hgives', hs', -, -⟩ := simplify_unshared hunshared ha'
  exact ⟨ht.expr_eq, s, h, a, e, s', h', a', hgives, hs, hunshared.expr_eq, hgives', hs', fun ρ =>
    ⟨(sameTotal_of_simplify he.total ha).2 ρ, hvalue ρ, (sameTotal_of_simplify htotal ha').2 ρ⟩⟩

theorem simplify_receiver_value_sum : PowerFree oppositeTimesSum ∧ ∃ g r s h a e s' h' a',
    g.expr r = .ok oppositeTimesSum ∧ Gives (simplify r) g s h ∧ h.expr s = .ok a ∧
      h.expr r = .ok e ∧
      Gives (simplify r) h s' h' ∧ h'.expr s' = .ok a' ∧ value (fun _ => (2 : ℚ)) a = -6 ∧
      value (fun _ => (2 : ℚ)) e = 6 ∧ value (fun _ => (2 : ℚ)) a' = 6 := by
  obtain ⟨places, hunshared⟩ := exists_unshared_add {} oppositeTimesSum
  have hfree : PowerFree oppositeTimesSum := by decide
  obtain ⟨hr, s, h, a, e, s', h', a', hs, ha, he, hs', ha', hvalue⟩ :=
    simplify_receiver_value hunshared hfree
  obtain ⟨hfirst, hleft, hsecond⟩ := hvalue fun _ => 2
  have hflips : oppositeTimesSum.flipsReceiver = true := by decide +kernel
  have hbefore : value (fun _ => (2 : ℚ)) oppositeTimesSum = -6 := by
    norm_num [value, valueProduct, valueSum, value_ofNat]
  rw [hbefore] at hfirst
  rw [hflips, hbefore, signed_true, neg_neg] at hleft
  exact ⟨hfree, _, _, s, h, a, e, s', h', a', hr, hs, ha, he, hs', ha', hfirst, hleft,
    hsecond.trans hleft⟩

/-- The opposite of `x` times `y` is left as the product of `x` with `y`, and simplifying that gives
no opposite. -/
theorem not_simplify_keeps_receiver : ∃ g r s h s' h', g.expr r = .ok oppositeTimes ∧
    Gives (simplify r) g s h ∧ h.expr s = .ok (xTimesY true) ∧ h.expr r = .ok (xTimesY false) ∧
      Gives (simplify r) h s' h' ∧ h'.expr s' = .ok (xTimesY false) ∧
      value (fun _ => (1 : ℚ)) oppositeTimes = -1 ∧
        value (fun _ => (1 : ℚ)) (xTimesY false) = 1 := by
  obtain ⟨places, hbefore⟩ := exists_unshared_add {} oppositeTimes
  have hfirst : oppositeTimes.simplify = .ok (xTimesY true) := by decide +kernel
  have hleft : oppositeTimes.simplifyReceiver = .ok (xTimesY false) := by decide +kernel
  have hsecond : (xTimesY false).simplify = .ok (xTimesY false) := by decide +kernel
  obtain ⟨s, h, e, places', hs, ha, he, hafter⟩ := simplify_unshared hbefore hfirst
  obtain rfl : xTimesY false = e := Except.ok.inj (hleft.symm.trans he)
  obtain ⟨s', h', -, -, hs', ha', -, -⟩ := simplify_unshared hafter hsecond
  refine ⟨_, _, s, h, s', h', hbefore.expr_eq, hs, ha, hafter.expr_eq, hs', ha', ?_, ?_⟩ <;>
    norm_num [value, valueProduct]

end TermGraph.Edit

end SymScript
