import SymScript.Json.Writer
import SymScript.Profile
import SymScript.Sample

/-!
# Benchmarks

A benchmark gives a value and a time profile, or it fails. Two surveys are made of all benchmarks:
how much of the time is spent in the project itself, and whether the values depend on what they
should.
-/

namespace SymScript

structure Benchmark where
  name : String
  isFunction : Bool := true
  /-- The name of the error with which it stops. -/
  failure : Option String := none
  /-- The value, and the values under certain parameters. -/
  value : Sample := .nothing
  variants : List (Json × Sample) := []
  /-- Gives a new value each time. -/
  isUnstable : Bool := false
  parameters : List Json := []
  profile : Profile := []

namespace Benchmark

/-- The benchmarks among the names of a module, in order. -/
def survey (all : List Benchmark) : List Benchmark :=
  (all.filter fun b => b.isFunction && b.name.startsWith "bench_").mergeSort
    fun a b => decide (a.name ≤ b.name)

def notLoaded (text : String) : Json := .obj [("_import_error", .str ("ImportError: " ++ text))]

/-! ### Time -/

/-- The share of the project in hundredths; a benchmark that fails has none. -/
def ownPercent (b : Benchmark) : Float :=
  match b.failure with
  | some _ => -1.0
  | none => b.profile.percent b.profile.own

def hottest (b : Benchmark) : List (Float × String) :=
  match b.failure with
  | some name => [(0.0, "<" ++ name ++ ">")]
  | none => b.profile.hottest

/-- How much of the time is spent in the project. -/
def timeSurvey (all : List Benchmark) : Json :=
  let bs := survey all
  .obj [("repo_time_pct", .obj (bs.map fun b => (b.name, .float b.ownPercent))),
    ("hot_ext", .obj (bs.map fun b =>
      (b.name, .arr (b.hottest.map fun (t, n) => .arr [.float t, .str n]))))]

/-! ### Values -/

/-- The value under parameters. -/
def valueUnder (b : Benchmark) (parameters : Json) : Sample :=
  match b.variants.find? fun v => v.1.write == parameters.write with
  | some v => v.2
  | none => b.value

/-- The values of two calls; `count` calls of unstable benchmarks came before. -/
def twoValues (b : Benchmark) (count : Nat) : Sample × Sample × Nat :=
  if b.isUnstable then (.int (count + 1), .int (count + 2), count + 2)
    else (b.value, b.value, count)

/-- What is found out about the values of one benchmark. -/
def check (b : Benchmark) (count : Nat) : Json × Nat :=
  match b.failure with
  | some name => (.obj [("error", .str name)], count)
  | none =>
    let (first, second, count) := b.twoValues count
    let labels := if b.parameters.isEmpty then ["<default>"] else b.parameters.map Json.write
    let prints := b.parameters.map fun p => (p.write, (b.valueUnder p).fingerprint)
    let each (x : Float) : Json := .obj (labels.map fun l => (l, .float x))
    (.obj [
      ("ret_type", .str first.kind),
      ("fp_stable", .arr [.str first.fingerprint, .str second.fingerprint]),
      ("fp_by_param", .obj (prints.map fun (l, f) => (l, .str f))),
      ("param_fps", .arr (prints.map fun (_, f) => .str f)),
      ("repo_frac", each (Decimal.round (b.profile.share b.profile.own) 4)),
      ("ext_frac", each (Decimal.round (b.profile.share b.profile.builtin) 4)),
      ("repo_tt_ms", each (Decimal.round (b.profile.own * 1000.0) 3))], count)

/-- What is found out about the values of all benchmarks. -/
def valueSurvey (all : List Benchmark) : Json :=
  let step := fun (acc : List (String × Json) × Nat) (b : Benchmark) =>
    let (j, count) := b.check acc.2
    (acc.1 ++ [(b.name, j)], count)
  .obj [("semcheck", .obj ((survey all).foldl step ([], 0)).1)]

end Benchmark

end SymScript
