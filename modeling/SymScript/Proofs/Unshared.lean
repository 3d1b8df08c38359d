import SymScript.Proofs.MadeNodes

/-!
# Terms that share nothing

A subtree of a term graph is a node together with the expression that it reads as and the places of
all nodes below it. If no place occurs twice, nothing in it is shared, and an edit of one subtree
leaves every other one alone that has no place in common with it. What a visit makes of some
subtrees are subtrees again: their places are fresh, or they were those of the subtrees before.
-/

namespace SymScript

/-- The size counts the node and what is below it. -/
theorem Expr.size_eq (e : Expr) : e.size = (e.children.map size).sum + 1 := by
  have hall (es : List Expr) : sizeAll es = (es.map size).sum := by
    induction es with
    | nil => rfl
    | cons e es ih => rw [sizeAll, ih, List.map_cons, List.sum_cons]
  cases e with
  | rational | symbol => rfl
  | sum s es | product s es => rw [size, hall, children]
  | power s b x =>
    rw [size, children]
    simp

namespace TermGraph

/-- A node, the expression that it reads as, and the places of the nodes from it down. -/
structure Subtree where
  root : Ref
  expr : Expr
  places : List Ref

/-- The places of a row of subtrees. -/
def placesOf (ts : List Subtree) : List Ref := ts.flatMap Subtree.places

theorem placesOf_singleton (t : Subtree) : placesOf [t] = t.places := List.append_nil _

theorem placesOf_append (ts us : List Subtree) : placesOf (ts ++ us) = placesOf ts ++ placesOf us :=
  List.flatMap_append

theorem mem_placesOf {ts : List Subtree} {i : Ref} : i ∈ placesOf ts ↔ ∃ t ∈ ts, i ∈ t.places :=
  List.mem_flatMap

/-- The graph has the subtree, and no place occurs in it twice. -/
inductive Unshared (g : TermGraph) : Subtree → Prop
  | intro {t : Subtree} (below : List Subtree) (lt : t.root < g.nodes.size)
    (head : (g.node t.root).head = headOf t.expr) (negated : (g.node t.root).negated =
      t.expr.negated)
    (roots : (g.node t.root).children = below.map Subtree.root)
    (exprs : t.expr.children = below.map Subtree.expr)
    (places : t.places = t.root :: placesOf below) (nodup : t.places.Nodup)
    (trees : ∀ u ∈ below, Unshared g u) : Unshared g t

/-- The graph has the subtrees, and no place occurs in them twice. -/
structure Forest (g : TermGraph) (ts : List Subtree) : Prop where
  trees : ∀ t ∈ ts, Unshared g t
  nodup : (placesOf ts).Nodup

variable {g h k : TermGraph} {t u : Subtree} {ts us : List Subtree} {r s : Ref} {e : Expr} {n : Nat}

/-! ### Subtrees -/

namespace Unshared

/-- The places of a subtree are in the graph. -/
theorem lt_of_mem (ht : Unshared g t) : ∀ i ∈ t.places, i < g.nodes.size := by
  induction ht with
  | intro below lt _ _ _ _ places _ _ ih =>
    intro i hi
    rw [places] at hi
    rcases List.mem_cons.1 hi with rfl | hi
    · exact lt
    · obtain ⟨u, hu, hi⟩ := mem_placesOf.1 hi
      exact ih u hu i hi

/-- The places of a subtree are different. -/
theorem nodup_places (ht : Unshared g t) : t.places.Nodup := by
  cases ht
  assumption

/-- The subtree stays if its nodes do. -/
theorem of_node_eq (ht : Unshared g t) (hsize : g.nodes.size ≤ h.nodes.size)
    (hnode : ∀ i ∈ t.places, h.node i = g.node i) : Unshared h t := by
  induction ht with
  | @intro t below lt head negated roots exprs places nodup _ ih =>
    have hroot : h.node t.root = g.node t.root := hnode _ (by rw [places]; exact List.mem_cons_self)
    refine ⟨below, Nat.lt_of_lt_of_le lt hsize, by rw [hroot, head], by rw [hroot, negated],
      by rw [hroot, roots], exprs, places, nodup, fun u hu => ih u hu fun i hi => hnode i ?_⟩
    rw [places]
    exact List.mem_cons_of_mem _ (mem_placesOf.2 ⟨u, hu, hi⟩)

/-- A subtree has as many places as its expression has nodes. -/
theorem length_places (ht : Unshared g t) : t.places.length = t.expr.size := by
  induction ht with
  | @intro t below _ _ _ _ exprs places _ _ ih =>
    have hsum : (placesOf below).length = ((below.map Subtree.expr).map Expr.size).sum := by
      rw [placesOf, List.length_flatMap, List.map_map]
      exact congrArg List.sum (List.map_congr_left ih)
    rw [places, List.length_cons, hsum, t.expr.size_eq, exprs]

/-- An expression that is a subtree is no larger than the graph. -/
theorem size_le (ht : Unshared g t) : t.expr.size ≤ g.nodes.size := by
  rw [← ht.length_places]
  have hsub : t.places ⊆ List.range g.nodes.size := fun i hi => List.mem_range.2 (ht.lt_of_mem i hi)
  exact (ht.nodup_places.subperm hsub).length_le.trans (Nat.le_of_eq List.length_range)

/-- Reading a subtree gives its expression, if the depth suffices. -/
theorem exprWithin (ht : Unshared g t) (hn : t.expr.size ≤ n) :
    g.exprWithin n t.root = .ok t.expr := by
  induction ht generalizing n with
  | @intro t below _ head negated roots exprs _ _ _ ih =>
    obtain ⟨n, rfl⟩ : ∃ m, n = m + 1 := ⟨n - 1, by have := t.expr.size_pos; omega⟩
    have hbelow : (below.map Subtree.root).mapM (g.exprWithin n) =
        .ok (below.map Subtree.expr) := by
      refine mapM_eq_ok_iff.2 (List.forall₂_map_left_iff.2 (List.forall₂_map_right_iff.2 ?_))
      refine List.forall₂_same.2 fun u hu => ih u hu ?_
      have hlt := Expr.size_lt_of_mem_children (exprs ▸ List.mem_map_of_mem hu)
      omega
    have hassemble : assemble (g.node t.root) t.expr.children = t.expr := by
      cases he : t.expr with
      | rational q =>
        rw [he] at head negated
        simp only [assemble, head, headOf, q.den_ne, dite_false, negated]
        rfl
      | _ =>
        rw [he] at head negated
        simp only [assemble, head, headOf, negated]
        rfl
    rw [TermGraph.exprWithin, roots, hbelow, ← exprs]
    exact congrArg Except.ok hassemble

/-- Reading a subtree gives its expression. -/
theorem expr_eq (ht : Unshared g t) : g.expr t.root = .ok t.expr :=
  ht.exprWithin (Nat.le_succ_of_le ht.size_le)

end Unshared

theorem Forest.nil : Forest g [] := ⟨List.forall_mem_nil _, List.nodup_nil⟩

theorem Forest.lt_of_mem (hts : Forest g ts) : ∀ i ∈ placesOf ts, i < g.nodes.size := by
  intro i hi
  obtain ⟨t, ht, hi⟩ := mem_placesOf.1 hi
  exact (hts.trees t ht).lt_of_mem i hi

/-- A forest stays one while its nodes stay. -/
theorem Forest.of_node_eq (hts : Forest g ts) (hsize : g.nodes.size ≤ h.nodes.size)
    (hnode : ∀ i ∈ placesOf ts, h.node i = g.node i) : Forest h ts :=
  ⟨fun t ht => (hts.trees t ht).of_node_eq hsize fun i hi => hnode i (mem_placesOf.2 ⟨t, ht, hi⟩),
    hts.nodup⟩

theorem Unshared.forest (ht : Unshared g t) : Forest g [t] where
  trees := List.forall_mem_singleton.2 ht
  nodup := by
    rw [placesOf_singleton]
    exact ht.nodup_places

/-- Two forests are one if they have no place in common. -/
theorem forest_append_iff : Forest g (ts ++ us) ↔
    Forest g ts ∧ Forest g us ∧ ∀ i ∈ placesOf ts, i ∉ placesOf us := by
  constructor
  · rintro ⟨htrees, hnodup⟩
    rw [placesOf_append] at hnodup
    obtain ⟨hts, hus⟩ := List.forall_mem_append.1 htrees
    obtain ⟨hnts, hnus, hdisjoint⟩ := List.nodup_append'.1 hnodup
    exact ⟨⟨hts, hnts⟩, ⟨hus, hnus⟩, fun i hi => hdisjoint hi⟩
  · rintro ⟨hts, hus, hdisjoint⟩
    refine ⟨List.forall_mem_append.2 ⟨hts.trees, hus.trees⟩, ?_⟩
    rw [placesOf_append]
    exact List.nodup_append'.2 ⟨hts.nodup, hus.nodup, fun i hi => hdisjoint i hi⟩

/-- A node above a forest is the root of a subtree. -/
theorem Forest.unshared (hts : Forest g ts) (hlt : r < g.nodes.size)
    (hhead : (g.node r).head = headOf e)
    (hnegated : (g.node r).negated = e.negated) (hroots : (g.node r).children = ts.map Subtree.root)
    (hexprs : e.children = ts.map Subtree.expr) (hr : r ∉ placesOf ts) :
    Unshared g ⟨r, e, r :: placesOf ts⟩ :=
  ⟨ts, hlt, hhead, hnegated, hroots, hexprs, rfl, List.nodup_cons.2 ⟨hr, hts.nodup⟩, hts.trees⟩

/-! ### Fresh subtrees -/

/-- Subtrees in nodes that the second graph has and the first has not. -/
structure Grown (g h : TermGraph) (ts : List Subtree) (k : TermGraph) : Prop where
  forest : Forest k ts
  fresh : ∀ i ∈ placesOf ts, IsFresh g h i

/-- A new node above new subtrees is a new subtree. -/
theorem Grown.push {n : TermNode} (hts : Grown g h ts k) (hgh : Extends g h)
    (hk : AgreesSince g (h.push n).2 k) (hsize : (h.push n).2.nodes.size ≤ k.nodes.size)
    (hhead : n.head = headOf e) (hnegated : n.negated = e.negated)
    (hroots : n.children = ts.map Subtree.root) (hexprs : e.children = ts.map Subtree.expr) :
    Grown g (h.push n).2 [⟨(h.push n).1, e, (h.push n).1 :: placesOf ts⟩] k := by
  have hnode : k.node h.nodes.size = n := hk.node_push hgh
  rw [size_push] at hsize
  have hroot : (h.push n).1 ∉ placesOf ts := fun hmem => Nat.lt_irrefl _ (hts.fresh _ hmem).2
  refine ⟨(hts.forest.unshared hsize ?_ ?_ ?_ hexprs hroot).forest, ?_⟩
  · rw [hnode, hhead]
  · rw [hnode, hnegated]
  · rw [hnode, hroots]
  · intro i hi
    rw [placesOf_singleton] at hi
    rcases List.mem_cons.1 hi with rfl | hi
    · exact hgh.isFresh_push n
    · exact ⟨(hts.fresh i hi).1, by rw [size_push]; exact Nat.lt_succ_of_lt (hts.fresh i hi).2⟩

/-- What has grown later has no place in common with what has grown before. -/
theorem Grown.append {l : TermGraph} (hts : Grown g h ts k) (hus : Grown h l us k)
    (hgh : Extends g h) (hhl : Extends h l) : Grown g l (ts ++ us) k := by
  refine ⟨forest_append_iff.2 ⟨hts.forest, hus.forest, fun i hi hi' => ?_⟩, fun i hi => ?_⟩
  · exact Nat.not_lt.2 (hus.fresh i hi').1 (hts.fresh i hi).2
  · rw [placesOf_append] at hi
    rcases List.mem_append.1 hi with hi | hi
    · exact (hts.fresh i hi).mono hhl
    · exact (hus.fresh i hi).of_extends hgh

mutual

/-- The nodes made for an expression share nothing, whatever the other nodes are. -/
theorem grown_addBelow {parent : Option (Shape × String)} : ∀ (e : Expr) {g k : TermGraph},
    AgreesSince g (addBelow parent e g).2 k → (addBelow parent e g).2.nodes.size ≤ k.nodes.size →
      ∃ places, Grown g (addBelow parent e g).2 [⟨(addBelow parent e g).1, e, places⟩] k
  | .rational q, g, k, hk, hsize | .symbol s c, g, k, hk, hsize => by
    rw [addBelow] at hk hsize ⊢
    have hnone : Grown g g [] k := ⟨.nil, List.forall_mem_nil _⟩
    exact ⟨_, hnone.push (.refl g) hk hsize rfl rfl rfl rfl⟩
  | .sum s es, g, k, hk, hsize | .product s es, g, k, hk, hsize => by
    rw [addBelow] at hk hsize ⊢
    have hle := Nat.le_of_succ_le (Nat.le_trans (Nat.le_of_eq (size_push _ _).symm) hsize)
    obtain ⟨ts, hts, hroots, hexprs⟩ := grown_addAllBelow es hk.of_push hle
    exact ⟨_, hts.push (addAllBelow_extends _ es g).1 hk hsize rfl rfl hroots.symm hexprs.symm⟩
  | .power s b x, g, k, hk, hsize => by
    rw [addBelow] at hk hsize ⊢
    have hb := (addBelow_extends (some (.power, (Expr.power s b x).name)) b g).1
    have hx := (addBelow_extends (some (.power, (Expr.power s b x).name)) x
      (addBelow (some (.power, (Expr.power s b x).name)) b g).2).1
    have hle := Nat.le_of_succ_le (Nat.le_trans (Nat.le_of_eq (size_push _ _).symm) hsize)
    obtain ⟨bs, hbs⟩ := grown_addBelow b (hk.of_push.left hx) (Nat.le_trans hx.size_le hle)
    obtain ⟨xs, hxs⟩ := grown_addBelow x (hk.of_push.right hb) hle
    exact ⟨_, (hbs.append hxs hb hx).push (hb.trans hx) hk hsize rfl rfl rfl rfl⟩

/-- Adding expressions gives new subtrees, also while their parent is not there yet. -/
theorem grown_addAllBelow {parent : Option (Shape × String)} : ∀ (es : List Expr) {g k : TermGraph},
    AgreesSince g (addAllBelow parent es g).2 k →
      (addAllBelow parent es g).2.nodes.size ≤ k.nodes.size →
      ∃ ts, Grown g (addAllBelow parent es g).2 ts k ∧
        ts.map Subtree.root = (addAllBelow parent es g).1 ∧ ts.map Subtree.expr = es
  | [], _, _, _, _ => ⟨[], ⟨.nil, List.forall_mem_nil _⟩, rfl, rfl⟩
  | e :: es, g, k, hk, hsize => by
    rw [addAllBelow] at hk hsize ⊢
    have he := (addBelow_extends parent e g).1
    have hes := (addAllBelow_extends parent es (addBelow parent e g).2).1
    obtain ⟨places, ht⟩ := grown_addBelow e (hk.left hes) (Nat.le_trans hes.size_le hsize)
    obtain ⟨ts, hts, hroots, hexprs⟩ := grown_addAllBelow es (hk.right he) hsize
    refine ⟨⟨_, e, places⟩ :: ts, ht.append hts he hes, ?_, ?_⟩
    · rw [List.map_cons, hroots]
    · rw [List.map_cons, hexprs]

end

theorem grown_add (g : TermGraph) (e : Expr) :
    ∃ places, Grown g (g.add e).2 [⟨(g.add e).1, e, places⟩] (g.add e).2 :=
  grown_addBelow e (fun _ _ => rfl) (Nat.le_refl _)

/-- An expression that is added is a subtree of its own. -/
theorem exists_unshared_add (g : TermGraph) (e : Expr) :
    ∃ places, Unshared (g.add e).2 ⟨(g.add e).1, e, places⟩ := by
  obtain ⟨places, hgrown⟩ := grown_add g e
  exact ⟨places, hgrown.forest.trees _ List.mem_cons_self⟩

/-! ### Visits -/

/-- A visit of the first subtrees has given the second ones. Only nodes of the first have been
changed, and each place of the second is fresh or was one of theirs. -/
structure Visited (g : TermGraph) (ts us : List Subtree) (h : TermGraph) : Prop where
  size_le : g.nodes.size ≤ h.nodes.size
  node_eq : ∀ i < g.nodes.size, i ∉ placesOf ts → h.node i = g.node i
  forest : Forest h us
  places : ∀ i ∈ placesOf us, i ∈ placesOf ts ∨ g.nodes.size ≤ i

namespace Visited

theorem refl (hts : Forest g ts) : Visited g ts ts g :=
  ⟨Nat.le_refl _, fun _ _ _ => rfl, hts, fun _ => .inl⟩

theorem nil (g : TermGraph) : Visited g [] [] g := refl .nil

/-- Subtrees that have no place in common with those that are visited stay. -/
theorem keeps (hv : Visited g ts us h) {ws : List Subtree} (hws : Forest g ws)
    (hdisjoint : ∀ i ∈ placesOf ws, i ∉ placesOf ts) : Forest h ws :=
  hws.of_node_eq hv.size_le fun i hi => hv.node_eq i (hws.lt_of_mem i hi) (hdisjoint i hi)

/-- Some subtrees are visited and then others. -/
theorem append {ts' us' : List Subtree} (hv : Visited g ts us k) (hv' : Visited k ts' us' h)
    (hforest : Forest g (ts ++ ts')) : Visited g (ts ++ ts') (us ++ us') h := by
  obtain ⟨-, hts', hdisjoint⟩ := forest_append_iff.1 hforest
  have hapart : ∀ i ∈ placesOf us, i ∉ placesOf ts' := by
    intro i hi hmem
    rcases hv.places i hi with hi | hi
    · exact hdisjoint i hi hmem
    · exact Nat.not_lt.2 hi (hts'.lt_of_mem i hmem)
  refine ⟨Nat.le_trans hv.size_le hv'.size_le, fun i hi hmem => ?_, ?_, fun i hi => ?_⟩
  · rw [placesOf_append, List.mem_append, not_or] at hmem
    rw [hv'.node_eq i (Nat.lt_of_lt_of_le hi hv.size_le) hmem.2, hv.node_eq i hi hmem.1]
  · refine forest_append_iff.2 ⟨hv'.keeps hv.forest hapart, hv'.forest, fun i hi hmem => ?_⟩
    rcases hv'.places i hmem with hmem | hmem
    · exact hapart i hi hmem
    · exact Nat.not_lt.2 hmem (hv.forest.lt_of_mem i hi)
  · rw [placesOf_append, List.mem_append] at hi ⊢
    rcases hi with hi | hi
    · exact (hv.places i hi).imp_left .inl
    · exact (hv'.places i hi).imp .inr (Nat.le_trans hv.size_le)

/-- The subtrees become the children of a node that is not in them. -/
theorem setChildren (hv : Visited g ts us h) (hlt : r < g.nodes.size) (hr : r ∉ placesOf ts)
    (hhead : (g.node r).head = headOf e) (hnegated : (g.node r).negated = e.negated)
    (hexprs : e.children = us.map Subtree.expr) :
    Forest (h.setChildren r (us.map Subtree.root)) us ∧
      Unshared (h.setChildren r (us.map Subtree.root)) ⟨r, e, r :: placesOf us⟩ := by
  have hrus : r ∉ placesOf us := fun hmem =>
    (hv.places r hmem).elim hr fun hle => Nat.not_lt.2 hle hlt
  have hsize : (h.setChildren r (us.map Subtree.root)).nodes.size = h.nodes.size :=
    size_update _ _ _
  have hforest : Forest (h.setChildren r (us.map Subtree.root)) us := by
    refine hv.forest.of_node_eq (Nat.le_of_eq hsize.symm) fun i hi => node_update_of_ne ?_ _
    rintro rfl
    exact hrus hi
  have hlt' : r < h.nodes.size := Nat.lt_of_lt_of_le hlt hv.size_le
  have hnode : (h.setChildren r (us.map Subtree.root)).node r =
      { g.node r with children := us.map Subtree.root } := by
    rw [TermGraph.setChildren, node_update_self hlt', hv.node_eq r hlt hr]
  refine ⟨hforest, hforest.unshared (by rwa [hsize]) ?_ ?_ ?_ hexprs hrus⟩
  · rw [hnode, ← hhead]
  · rw [hnode, ← hnegated]
  · rw [hnode]

end Visited

namespace Edit

/-- Adding an expression touches nothing that was there. -/
theorem add_visited (g : TermGraph) (e : Expr) :
    ∃ u h, Gives (add e) g u.root h ∧ Visited g [] [u] h ∧ u.expr = e := by
  obtain ⟨places, hgrown⟩ := grown_add g e
  have hext := (addBelow_extends none e g).1
  exact ⟨_, _, gives_add.2 ⟨rfl, rfl⟩,
    ⟨hext.size_le, fun i hi _ => hext.node_eq i hi, hgrown.forest,
      fun i hi => .inr (hgrown.fresh i hi).1⟩, rfl⟩

/-- Every subtree is visited in turn. -/
theorem mapM_visited {f : Ref → Edit Ref} {P : Subtree → Subtree → Prop}
    (hf : ∀ t ∈ ts, ∀ {g}, Unshared g t → ∃ u h, Gives (f t.root) g u.root h ∧
      Visited g [t] [u] h ∧ P t u)
    (hts : Forest g ts) : ∃ us h, Gives ((ts.map Subtree.root).mapM f) g (us.map Subtree.root) h ∧
      Visited g ts us h ∧ List.Forall₂ P ts us := by
  induction ts generalizing g with
  | nil => exact ⟨[], g, gives_pure.2 ⟨rfl, rfl⟩, .nil g, .nil⟩
  | cons t ts ih =>
    obtain ⟨hft, hfts⟩ := List.forall_mem_cons.1 hf
    obtain ⟨ht, hrest, hdisjoint⟩ := forest_append_iff.1 (show Forest g ([t] ++ ts) from hts)
    obtain ⟨u, k, hgives, hv, hP⟩ := hft (ht.trees t List.mem_cons_self)
    have hk : Forest k ts := hv.keeps hrest fun i hi hmem => hdisjoint i hmem hi
    obtain ⟨us, h, hgives', hvs, hPs⟩ := ih hfts hk
    refine ⟨u :: us, h, ?_, hv.append hvs hts, .cons hP hPs⟩
    rw [List.map_cons, List.mapM_cons]
    exact gives_bind.2 ⟨_, _, hgives, gives_bind.2 ⟨_, _, hgives', gives_pure.2 ⟨rfl, rfl⟩⟩⟩

/-- Adding expressions touches nothing that was there. -/
theorem mapM_add_visited (g : TermGraph) (es : List Expr) :
    ∃ us h, Gives (es.mapM add) g (us.map Subtree.root) h ∧ Visited g [] us h ∧
      us.map Subtree.expr = es := by
  induction es generalizing g with
  | nil => exact ⟨[], g, gives_pure.2 ⟨rfl, rfl⟩, .nil g, rfl⟩
  | cons e es ih =>
    obtain ⟨u, k, hgives, hv, rfl⟩ := add_visited g e
    obtain ⟨us, h, hgives', hvs, rfl⟩ := ih k
    refine ⟨u :: us, h, ?_, hv.append hvs .nil, rfl⟩
    rw [List.mapM_cons]
    exact gives_bind.2 ⟨_, _, hgives, gives_bind.2 ⟨_, _, hgives', gives_pure.2 ⟨rfl, rfl⟩⟩⟩

/-- Reading a forest gives its expressions and changes nothing. -/
theorem gives_exprs_of_forest (hus : Forest g us) :
    Gives (exprs (us.map Subtree.root)) g (us.map Subtree.expr) g := by
  have hread := hus.trees
  clear hus
  induction us with
  | nil => exact gives_pure.2 ⟨rfl, rfl⟩
  | cons u us ih =>
    obtain ⟨hu, hus⟩ := List.forall_mem_cons.1 hread
    rw [exprs, List.map_cons, List.mapM_cons]
    exact gives_bind.2 ⟨_, _, gives_expr.2 ⟨hu.expr_eq, rfl⟩,
      gives_bind.2 ⟨_, _, ih hus, gives_pure.2 ⟨rfl, rfl⟩⟩⟩

end Edit

end TermGraph

end SymScript
