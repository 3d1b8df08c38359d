import SymScript.Decimal
import SymScript.FileTree

/-!
# Time profiles

A profile lists files with the time that was spent in each. The time in the project's own files is
told apart from the time outside of them.
-/

namespace SymScript

structure ProfileEntry where
  file : String
  milliseconds : Float

namespace ProfileEntry

def seconds (e : ProfileEntry) : Float := e.milliseconds / 1000.0

/-- The folder of the project. -/
def home : Path := ["/", "repo"]

/-- The path of a file, from the folder of the project on if it is relative. -/
def place (file : String) : Path :=
  if file.toList.head? = some '/' then Path.ofText file
  else ("/repo/" ++ file : String) |> Path.ofText

/-- Folders below the project that hold the work of others. -/
def isForeignFolder (name : String) : Bool :=
  ["vendor", "build", "dist", "venv", "env", "site-packages", "node_modules",
    "third_party"].contains name || name.startsWith "." || name.endsWith ".egg-info"

/-- Files of the measurement itself. -/
def isMeasuring (name : String) : Bool := name.startsWith "_pti_" || name == "microbench.py"

/-- Whether a file belongs to the project. What has no file is shown by a mark in its place. -/
def isOwn (e : ProfileEntry) : Bool :=
  let p := place e.file
  let inside := p.drop home.length
  !(e.file.startsWith "~") && !(e.file.startsWith "<") && home.isPrefixOf p &&
    !inside.dropLast.any isForeignFolder && !(inside.getLast?.any isMeasuring)

/-- The name under which time outside of the project is told. -/
def outsideName (e : ProfileEntry) : String :=
  if e.file == "~" then "builtins"
  else
    let name := Path.fileName e.file
    if name.endsWith ".py" then String.ofList (name.toList.dropLast.dropLast.dropLast) else name

end ProfileEntry

abbrev Profile := List ProfileEntry

namespace Profile

/-- The sum of times, from left to right. -/
def sum (es : List ProfileEntry) : Float := es.foldl (fun t e => t + e.seconds) 0.0

def own (p : Profile) : Float := sum (p.filter ProfileEntry.isOwn)

def builtin (p : Profile) : Float := sum (p.filter fun e => e.file == "~")

/-- The share of a time in the whole; no time has no share. -/
def share (p : Profile) (t : Float) : Float :=
  let total := sum p
  if total > 0.0 then t / total else 0.0

/-- The share in hundredths, with one place. -/
def percent (p : Profile) (t : Float) : Float :=
  let total := sum p
  if total > 0.0 then Decimal.round (100.0 * t / total) 1 else 0.0

/-- Adds a time to the times by name. -/
def gather (times : List (String × Float)) (e : ProfileEntry) : List (String × Float) :=
  let name := e.outsideName
  match times with
  | [] => [(name, e.seconds)]
  | (n, t) :: rest => if n == name then (n, t + e.seconds) :: rest else (n, t) :: gather rest e

/-- Longer times come first, and later names among equal ones. -/
def before (a b : String × Float) : Bool := a.2 > b.2 || (a.2 == b.2 && decide (b.1 ≤ a.1))

/-- The two places outside of the project where most time is spent, with their shares. -/
def hottest (p : Profile) : List (Float × String) :=
  let outside := (p.filter fun e => !e.isOwn).foldl gather []
  if sum p > 0.0 then
    ((outside.mergeSort before).take 2).map fun (n, t) => (p.percent t, n)
  else []

end Profile

end SymScript
