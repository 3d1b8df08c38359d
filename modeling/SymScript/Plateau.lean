/-!
# Plateaus

A count that is to go down has come to a plateau when it has not got below its best value for some
rounds.
-/

namespace SymScript

/-- The best value so far and the rounds since it was reached. -/
structure Plateau where
  best : Int
  rounds : Nat
deriving DecidableEq, Repr

namespace Plateau

/-- A further round; only a smaller count is an improvement. -/
def next (p : Plateau) (count : Int) : Plateau :=
  if count < p.best then ⟨count, 0⟩ else { p with rounds := p.rounds + 1 }

/-- The plateau after a first count and those that follow. -/
def ofCounts : List Int → Option Plateau
  | [] => none
  | c :: cs => some (cs.foldl next ⟨c, 0⟩)

/-- The rounds without improvement after which it is time to stop. -/
def patience : Nat := 3

end Plateau

/-- Why measuring can stop. -/
inductive Stop where
  /-- Nothing is below the target. -/
  | done
  | stalled (p : Plateau)
deriving DecidableEq, Repr

namespace Stop

/-- Decides on the counts of earlier rounds and the count of this one. -/
def decide? (earlier : List Int) (count : Int) : Option Stop :=
  if count = 0 then some done
  else match Plateau.ofCounts (earlier ++ [count]) with
    | some p => if Plateau.patience ≤ p.rounds then some (stalled p) else none
    | none => none

def reason : Stop → String
  | done => "0 below"
  | stalled p =>
    "no improvement in " ++ toString p.rounds ++ " rounds; best " ++ toString p.best ++ " below"

def line (s : Stop) : String :=
  ">>> STOP: repo_time converged (" ++ s.reason ++ "). Finalize microbench.py now. <<<"

end Stop

end SymScript
