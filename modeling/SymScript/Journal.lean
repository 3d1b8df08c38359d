/-!
# The journal of a run
-/

namespace SymScript

/-- How important a record is. -/
inductive Level where
  | debug | info | warning | error | critical
deriving DecidableEq, Repr

namespace Level

def name : Level → String
  | debug => "DEBUG"
  | info => "INFO"
  | warning => "WARNING"
  | error => "ERROR"
  | critical => "CRITICAL"

def rank : Level → Nat
  | debug => 10
  | info => 20
  | warning => 30
  | error => 40
  | critical => 50

def all : List Level := [debug, info, warning, error, critical]

def ofName? (s : String) : Option Level := all.find? fun l => l.name == s

end Level

structure Record where
  level : Level
  message : String
deriving DecidableEq, Repr

def Record.line (r : Record) : String := r.level.name ++ " - " ++ r.message

/-- The records of a run from a level on. A silent journal takes none. -/
structure Journal where
  threshold : Level
  file : Option String := none
  records : List Record := []
  isSilent : Bool := false
deriving DecidableEq, Repr

namespace Journal

def accepts (j : Journal) (l : Level) : Bool :=
  !j.isSilent && decide (j.threshold.rank ≤ l.rank)

def note (j : Journal) (l : Level) (message : String) : Journal :=
  if j.accepts l then { j with records := j.records ++ [⟨l, message⟩] } else j

/-- All records, each on a line. -/
def text (j : Journal) : String := String.join (j.records.map fun r => r.line ++ "\n")

def standardFile : String := "../data/luppolo.log"

def greeting (threshold : Level) (file : String) : String :=
  "Luppolo logger initialized. Logging level " ++ threshold.name ++ " in file: " ++ file ++ "\n"

end Journal

end SymScript
