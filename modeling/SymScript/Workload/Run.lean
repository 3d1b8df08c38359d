import SymScript.Workload.Output

/-!
# Running workloads
-/

namespace SymScript.Workload

/-- The findings of one run; some workloads tell a single thing. -/
def run (w : Workload) (size : Int) : Except SessionError Finding :=
  let n := size.toNat
  match w with
  | simplification => .list <$> onTerms (simplify n)
  | expansion => .list <$> onTerms (expand n)
  | programs => .list <$> readMany n
  | interpretation => .list <$> interpret size
  | controlFlow => loop size
  | mistakes => .ok (.list (fail n))
  | drawing => .list <$> draw n
  | conversion => .list <$> convert n
  | output => .list <$> report n

end SymScript.Workload
