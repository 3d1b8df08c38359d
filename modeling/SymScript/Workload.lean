import SymScript.Session

/-!
# Workloads

A workload is a fixed piece of work on the library that comes in sizes. It gives a list of findings,
so that two runs can be compared.
-/

namespace SymScript

/-- Something that a workload tells of its work. -/
inductive Finding where
  | text (s : String)
  | number (n : Int)
  | truth (b : Bool)
  /-- Work that is to fail, and did. -/
  | failure (e : SessionError)
  | list (rs : List Finding)

namespace Finding

instance : Inhabited Finding := ⟨.number 0⟩

/-- The failure of a piece of work; one that succeeds tells nothing. -/
def ofFailure {α : Type} : Except SessionError α → List Finding
  | .ok _ => []
  | .error e => [.failure e]

end Finding

inductive Workload where
  | simplification
  | expansion
  | programs
  | interpretation
  | controlFlow
  | mistakes
  | drawing
  | conversion
  | output
deriving DecidableEq, Repr

namespace Workload

/-- The size where none is given. -/
def standardSize : Workload → Int
  | simplification => 40
  | expansion => 5
  | programs => 10
  | interpretation => 30
  | controlFlow => 60
  | mistakes => 24
  | drawing => 30
  | conversion => 20
  | output => 30

end Workload

end SymScript
