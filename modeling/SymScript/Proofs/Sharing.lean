import SymScript.Proofs.Canonical
import SymScript.Proofs.Receiver
import SymScript.Proofs.Refinement

/-!
# Terms with shared nodes

A term without shared nodes is simplified as its expression is, so what is said of the
simplification of expressions holds of it: values are kept, and sums of monomials come to the same
expression exactly if they are the same polynomial.

Nothing of this is claimed where a node stands in several places.  Substituting puts one node in all
places of a letter.  Simplifying at the first of them may leave the node with the opposite value,
which is then what the others hold.
-/

namespace SymScript

open SymScript.Expr (Laurent MonomialSum polynomial value)

namespace TermGraph.Edit

variable {g g' : TermGraph} {t t' : Subtree}

/-- Simplifying a term that shares nothing keeps the value of a Laurent polynomial. -/
theorem simplify_unshared_value (ht : Unshared g t) (he : Laurent t.expr) :
    ∃ s h a, Gives (simplify t.root) g s h ∧ h.expr s = .ok a ∧
      ∀ ρ : Char → ℚ, (∀ c, ρ c ≠ 0) → value ρ a = value ρ t.expr := by
  obtain ⟨a, ha, -, -, hvalue⟩ := he.grouped.simplify_defined
  obtain ⟨s, h, -, -, hgives, hs, -⟩ := simplify_unshared ht ha
  exact ⟨s, h, a, hgives, hs, fun ρ hρ => (hvalue ρ (he.grouped.defined hρ)).2⟩

/-- Terms that share nothing and are sums of monomials simplify to the same expression exactly if
they are the same polynomial. -/
theorem simplify_unshared_eq_iff {es fs : List Expr} (ht : Unshared g t) (ht' : Unshared g' t')
    (he : t.expr = .sum false es) (hf : t'.expr = .sum false fs) (hes : ∀ e ∈ es, MonomialSum e)
    (hfs : ∀ e ∈ fs, MonomialSum e) :
    ∃ s h a s' h' b, Gives (simplify t.root) g s h ∧ h.expr s = .ok a ∧
      Gives (simplify t'.root) g' s' h' ∧ h'.expr s' = .ok b ∧
      (a = b ↔ polynomial t.expr = polynomial t'.expr) := by
  obtain ⟨a, -, ha, -⟩ := Expr.exists_addends_of_simplify hes
  obtain ⟨b, -, hb, -⟩ := Expr.exists_addends_of_simplify hfs
  obtain ⟨s, h, -, -, hgives, hs, -⟩ := simplify_unshared ht (he.symm ▸ ha)
  obtain ⟨s', h', -, -, hgives', hs', -⟩ := simplify_unshared ht' (hf.symm ▸ hb)
  refine ⟨s, h, a, s', h', b, hgives, hs, hgives', hs', ?_⟩
  rw [he, hf]
  exact Expr.eq_iff_polynomial_eq hes hfs ha hb

end TermGraph.Edit

/-! ### A node in two places -/

/-- The product of `-y` and `z`, in which `-y` has been put for a letter, put for `a` in `a + a *
b`. -/
def substitutedTwice : Except AlgebraError Term := do
  let a : Expr := .symbol false 'a'
  let x : Expr := .symbol false 'x'
  let inner ← Term.call .substitute [some (.tree (.product false [x, .symbol false 'z'])),
    some (.tree x), some (.tree (.symbol true 'y'))]
  Term.call .substitute [some (.tree (.sum false [.product false [a, .symbol false 'b'], a])),
    some (.tree a), some inner]

/-- A program that returns it. -/
def substitutingTwice : List Ast :=
  let a : Ast := .sym false "a"
  let x : Ast := .sym false "x"
  [.function "Main" [] (.block [.giveBack (.call "Substitute"
    [.binary false .sum a (.binary false .mul (.sym false "b") a), a,
      .call "Substitute" [.binary false .mul x (.sym false "z"), x, .sym true "y"]])])]

/-- Where a node is shared, simplifying can change the value of a polynomial: here `-y * z` stands
in two places, and only at the first of them its sign counts. -/
theorem simplify_shared_value :
    let z : Expr := .symbol false 'z'
    let inner : Expr := .product false [.symbol true 'y', z]
    let before : Expr := .sum false [.product false [inner, .symbol false 'b'], inner]
    let after : Expr := .sum false [.product true [.symbol false 'b', .symbol false 'y', z],
      .product false [.symbol false 'y', z]]
    (substitutedTwice >>= Term.expr) = .ok before ∧
    (substitutedTwice >>= Term.simplify) = .ok after ∧
      Laurent before ∧ value (fun _ => (1 : ℚ)) before = -2 ∧ value (fun _ => (1 : ℚ)) after = 0 ∧
      ∃ functions, FunctionDef.load substitutingTwice = .ok functions ∧
        Machine.outcome 60 functions "Main" [] = .ok (.tree after) := by
  intro z inner before after
  refine ⟨by decide +kernel, by decide +kernel, ?_, ?_, ?_, _, rfl, by decide +kernel⟩
  · simp [before, inner, z, Laurent, Expr.LaurentAll]
  · norm_num [before, inner, z, value, Expr.valueSum, Expr.valueProduct]
  · norm_num [after, z, value, Expr.valueSum, Expr.valueProduct]

end SymScript
