import SymScript.Decimal
import SymScript.Json
import SymScript.Profile
import SymScript.Text.Lines

/-!
# Coverage tables

A table has a row for every file, those that are covered least first, and a row for the whole.
-/

namespace SymScript

/-- A number of a record; what is missing counts as zero. -/
def Json.amount : Json → Float
  | .int n => Float.ofInt n
  | .float x => x
  | _ => 0.0

def Json.count (j : Json) : Int := (j.int?).getD 0

structure CoverageRow where
  file : String
  statements : Int
  missing : Int
  percent : Float
  missingLines : List String

namespace CoverageRow

/-- The path from the folder of the project to a file. -/
def relative (file : String) : String :=
  let p := ProfileEntry.place file
  let home := ProfileEntry.home
  let common := ((p.zip home).takeWhile fun (a, b) => a == b).length
  String.intercalate "/" (List.replicate (home.length - common) ".." ++ p.drop common)

def ofJson (file : String) (record : Json) : CoverageRow :=
  let summary := record.get "summary"
  { file := relative file
    statements := (summary.get "num_statements").count
    missing := (summary.get "missing_lines").count
    percent := (summary.get "percent_covered").amount
    missingLines := (((record.get "missing_lines").arr?).getD []).map fun n => toString n.count }

/-- Less coverage comes first, and more missing statements among equal coverage. -/
def before (a b : CoverageRow) : Bool :=
  a.percent < b.percent || (a.percent == b.percent && decide (b.missing ≤ a.missing))

/-- At most a dozen lines are shown. -/
def shownLines (r : CoverageRow) : String :=
  String.intercalate "," (r.missingLines.take 12) ++
    (if r.missingLines.length > 12 then "…" else "")

end CoverageRow

structure Coverage where
  rows : List CoverageRow
  statements : Json
  covered : Json
  percent : Json
  /-- The number of benchmarks that failed while coverage was measured. -/
  failures : Nat

namespace Coverage

def ofJson (j : Json) : Coverage :=
  let totals := j.get "totals"
  let number (name : String) (zero : Json) : Json := (totals.get? name).getD zero
  { rows := (((j.get "files").obj?).getD []).map fun (file, record) =>
      CoverageRow.ofJson file record
    statements := number "num_statements" (.int 0)
    covered := number "covered_lines" (.int 0)
    percent := number "percent_covered" (.float 0.0)
    failures := ((((j.get "meta").get "_pti_bench_errors").obj?).getD []).length }

/-- Files are shown by sixty characters at most. -/
def widest : Nat := 60

def width (c : Coverage) : Nat :=
  c.rows.foldl (fun w r => max w (min widest r.file.length)) 4

def cells (width : Nat) (name : String) (statements missing : Int) (percent : Float) : String :=
  Text.padRight width (String.ofList (name.toList.take widest)) ++ "  " ++
    Text.padLeft 5 (toString statements) ++ "  " ++ Text.padLeft 4 (toString missing) ++ "  " ++
    Text.padLeft 4 (Decimal.fixed percent 0) ++ "%"

/-- The lines of the table. -/
def table (c : Coverage) : List String :=
  let w := c.width
  let rule := String.ofList (List.replicate (w + 42) '-')
  let total := c.statements.count
  [Text.padRight w "Name" ++ "  Stmts  Miss  Cover  Missing", rule] ++
    ((c.rows.mergeSort CoverageRow.before).map fun r =>
      cells w r.file r.statements r.missing r.percent ++ "  " ++ r.shownLines) ++
    [rule, cells w "TOTAL" total (total - c.covered.count) c.percent.amount, ""]

end Coverage

end SymScript
