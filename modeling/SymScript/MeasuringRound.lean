import SymScript.Coverage
import SymScript.Json.Reader
import SymScript.Json.Writer
import SymScript.Plateau

/-!
# Measuring rounds

A round measures coverage and the share of time that benchmarks spend in the project. It prints a
report and leaves a checkpoint for later rounds, from which a later round sees whether going on is
worth while. Whether the values of benchmarks depend on what they should is judged elsewhere: a
round takes up the verdicts and the lines that tell them.
-/

namespace SymScript

/-- What another program did. -/
structure Child where
  exitCode : Int := 0
  output : String := ""
  errors : String := ""
deriving DecidableEq, Repr

/-- Another program ended, could not be run to its end, or is not there. -/
inductive ChildRun where
  | ended (c : Child)
  | failed (reason : String)
  | absent
deriving DecidableEq, Repr

/-- What is said of the values of benchmarks: a verdict on each, and lines for the report. -/
structure Judgement where
  verdicts : List (String × String) := []
  lines : List String := []
deriving DecidableEq, Repr

structure RoundInput where
  coverage : Option Json := none
  /-- The text with the benchmarks. -/
  benchmarks : Option String := none
  /-- The lines that earlier rounds left. -/
  checkpoints : List String := []
  runner : Child := {}
  timeSurvey : ChildRun := .absent
  valueSurvey : ChildRun := .absent
  /-- The judgement on the answer of the survey of values. -/
  judge : Json → Judgement := fun _ => {}
  started : Float := 10.0
  ended : Float := 12.5
  now : Json := .float 1000.0

structure RoundOutput where
  exitCode : Option Int := none
  printed : List String := []
  errors : String := ""
  checkpoint : String := ""

namespace MeasuringRound

/-- Below this share of time, in hundredths, a benchmark is marked. -/
def leastShare : Float := 45.0

/-- Coverage, in hundredths, from which on a round can be the last. -/
def leastCoverage : Float := 60.0

/-! ### Surveys made by other programs -/

/-- The answer of a survey, which is its last line, and what is told on the error output. -/
def readSurvey (name : String) : ChildRun → Json × String
  | .absent => (.null, "")
  | .failed reason => (.null, "[" ++ name ++ " runner: " ++ reason ++ "]\n")
  | .ended c =>
    match (Text.lines c.output).getLast? with
    | none => (.null, c.errors)
    | some line =>
      match Json.read line with
      | .ok j => (j, c.errors)
      | .error e =>
        (.null, c.errors ++ "[" ++ name ++ " runner: JSONDecodeError: " ++ e.message line ++ "]\n")

/-! ### Shares of time -/

def isMarked (share : Float) : Bool := 0.0 ≤ share && share < leastShare

/-- Where the time of a benchmark went. -/
def hotText (hot : Json) : String :=
  let places := ((hot.arr?).getD []).filterMap fun j =>
    match j with
    | .arr [t, .str n] => some (n ++ " " ++ Decimal.fixed t.amount 0 ++ "%")
    | _ => none
  if places.isEmpty then "" else " (hot: " ++ String.intercalate " " places ++ ")"

def shareLine (hot : Json) (name : String) (share : Float) : String :=
  let marked := isMarked share
  "  " ++ (if marked then "*" else " ") ++ " " ++ Text.padRight 32 name ++ " " ++
    Text.padLeft 5 (Decimal.fixed (if share < 0.0 then 0.0 else share) 1) ++ "%" ++
    (if share < 0.0 then "  <error>" else if marked then hotText (hot.get name) else "")

def shareTable (hot : Json) (shares : List (String × Float)) : List String :=
  if shares.isEmpty then []
  else
    "repo_time (target 50%; * = below 45%):" ::
      ((shares.mergeSort fun a b => a.2 ≤ b.2).map fun (n, s) => shareLine hot n s) ++ [""]

/-! ### Earlier rounds -/

def isBlankLine (l : String) : Bool :=
  l.toList.all fun c => c == ' ' || c == '\t' || c == '\n' || c == '\r'

/-- The lines that hold a round. -/
def roundLines (checkpoints : List String) : List String :=
  checkpoints.filter fun l => !isBlankLine l

/-- The record of a round, which is an object. -/
def readRound? (line : String) : Option Json :=
  match Json.read line with
  | .ok (.obj ms) => some (.obj ms)
  | _ => none

/-- The rounds up to the first that cannot be read. -/
def readRounds : List String → List Json
  | [] => []
  | l :: ls => ((readRound? l).map fun r => r :: readRounds ls).getD []

/-- The last round is read first. If that fails, no other is read. -/
def earlierRounds (lines : List String) : List Json :=
  ((lines.getLast?.bind readRound?).map fun _ => readRounds lines).getD []

/-- Whether all earlier rounds can be read. -/
def isIntact (lines : List String) : Bool := lines.all fun l => (readRound? l).isSome

/-- The time since the last of the rounds, in seconds. -/
def sinceLast (now : Json) (rounds : List Json) : Float :=
  match (rounds.getLast?.getD .null).get "ts" with
  | .null => 0.0
  | t => Decimal.round (now.amount - t.amount) 2

/-- The counts below the target in earlier rounds. -/
def earlierCounts (rounds : List Json) : List Int :=
  rounds.filterMap fun r => (r.get "n_below_repo_time").int?

/-! ### A round -/

def benchmarkCount (text : String) : Nat :=
  ((Text.lines text).filter fun l => l.startsWith "def bench_").length

/-- The report that coverage could not be measured. -/
def failed (runner : Child) : RoundOutput where
  exitCode := some (if runner.exitCode = 0 then 1 else runner.exitCode)
  printed :=
    ["coverage measurement failed (exit " ++ toString runner.exitCode ++ ")", runner.output]
  errors := runner.errors

/-- The shares of time in the answer of a survey. -/
def sharesOf (survey : Json) : List (String × Float) :=
  (((survey.get "repo_time_pct").obj?).getD []).map fun (n, j) => (n, j.amount)

structure Summary where
  number : Nat
  benchmarks : Nat
  percent : Float
  shares : List (String × Float)
  seconds : Float

namespace Summary

/-- The number of shares below the target and of all shares. -/
def counts (s : Summary) : Nat × Nat :=
  ((s.shares.filter fun p => isMarked p.2).length, (s.shares.filter fun p => 0.0 ≤ p.2).length)

/-- The count below the target, if any share is known. -/
def count? (s : Summary) : Option Int := if s.counts.2 = 0 then none else some (s.counts.1 : Int)

def line (s : Summary) : String :=
  "[round " ++ toString s.number ++ ": " ++ toString s.benchmarks ++ " benches, " ++
    Decimal.fixed s.percent 1 ++ "% covered, " ++
    (if s.shares.isEmpty then ""
      else toString s.counts.1 ++ "/" ++ toString s.counts.2 ++ " below repo_time 45%, ") ++
    "measured in " ++ Decimal.fixed s.seconds 1 ++ "s]"

end Summary

/-- The record that a round leaves. -/
def checkpoint (i : RoundInput) (c : Coverage) (s : Summary) (shares : Json) (judgement : Judgement)
    (rounds : List Json) : Json :=
  .obj [("round", .nat s.number), ("ts", i.now),
    ("wall_since_prev_s", .float (sinceLast i.now rounds)),
    ("coverage_pct", c.percent), ("covered_lines", c.covered), ("num_statements", c.statements),
    ("n_bench_fns", .nat s.benchmarks), ("n_bench_errors", .nat c.failures),
    ("cov_measure_s", .float (Decimal.round s.seconds 3)), ("repo_time_pct", shares),
    ("n_below_repo_time", (s.count?.map Json.int).getD .null),
    ("semcheck", .obj (judgement.verdicts.map fun (n, v) => (n, .str v))),
    ("n_not_self_checking", .nat (judgement.verdicts.filter fun v => v.2 != "ok").length)]

/-- Whether this round is the last. -/
def stop? (s : Summary) (counts : List Int) : Option Stop := do
  let count ← s.count?
  if leastCoverage ≤ s.percent then Stop.decide? counts count else none

/-- Measures once. A round that cannot read all that earlier rounds left adds nothing to it, and
decides on what it could read. -/
def run (i : RoundInput) : RoundOutput :=
  match i.coverage with
  | none => failed i.runner
  | some record =>
    if i.runner.exitCode ≠ 0 then failed i.runner
    else
      let c := Coverage.ofJson record
      let (times, timeErrors) := readSurvey "repotime" i.timeSurvey
      let (checks, valueErrors) := readSurvey "semcheck" i.valueSurvey
      let judgement := i.judge checks
      let lines := roundLines i.checkpoints
      let rounds := earlierRounds lines
      let s : Summary := {
        number := lines.length + 1
        benchmarks := (i.benchmarks.map benchmarkCount).getD 0
        percent := c.percent.amount
        shares := sharesOf times
        seconds := i.ended - i.started }
      let shares := (times.get? "repo_time_pct").getD (.obj [])
      { printed := c.table ++ shareTable (times.get "hot_ext") s.shares ++
          judgement.lines ++ [s.line] ++
          ((stop? s (earlierCounts rounds)).map fun t => ["", t.line]).getD []
        errors := i.runner.errors ++ timeErrors ++ valueErrors
        checkpoint :=
          if isIntact lines then (checkpoint i c s shares judgement rounds).write ++ "\n" else "" }

end MeasuringRound

end SymScript
