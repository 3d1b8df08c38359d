import Mathlib.Data.List.Basic
import SymScript.MeasuringRound
import SymScript.Proofs.Legibility

/-!
# Plateaus of a history

The best count and the rounds since it was reached are kept up to date count by count.  At every
point they are the least of the counts so far and the number of counts after its first occurrence: a
count that only equals the best one is no improvement.  So a round of measuring reports a plateau
exactly if enough counts follow the first of the least ones, and what it prints tells both numbers.
-/

namespace SymScript

namespace Plateau

/-- The counts after the first one that is a given number. -/
def since (best : Int) (counts : List Int) : List Int := counts.drop (counts.idxOf best + 1)

/-- The plateau tells the least count and how many come after its first occurrence. -/
structure Tells (p : Plateau) (counts : List Int) : Prop where
  best : counts.min? = some p.best
  rounds : p.rounds = (since p.best counts).length

/-- Counts have one best and one length of their plateau. -/
theorem Tells.unique {p q : Plateau} {counts : List Int} (hp : p.Tells counts)
    (hq : q.Tells counts) : p = q := by
  have hbest : p.best = q.best := Option.some.inj (hp.best.symm.trans hq.best)
  have hrounds : p.rounds = q.rounds := by rw [hp.rounds, hq.rounds, hbest]
  cases p
  cases q
  cases hbest
  cases hrounds
  rfl

/-- One further count keeps the two numbers right. -/
theorem Tells.next {p : Plateau} {counts : List Int} (hp : p.Tells counts) (c : Int) :
    (p.next c).Tells (counts ++ [c]) := by
  obtain ⟨hmem, hleast⟩ := List.min?_eq_some_iff.1 hp.best
  rw [Plateau.next]
  split
  · -- The new count is below all others, so its first occurrence is the last entry.
    rename_i hc
    have hnew : c ∉ counts := fun h => absurd (hleast c h) (Int.not_le.2 hc)
    refine ⟨List.min?_eq_some_iff.2 ⟨by simp, fun b hb => ?_⟩, ?_⟩
    · rcases List.mem_append.1 hb with hb | hb
      · exact Int.le_trans (Int.le_of_lt hc) (hleast b hb)
      · exact Int.le_of_eq (List.mem_singleton.1 hb).symm
    · rw [since, List.idxOf_append_of_notMem hnew, List.idxOf_cons_self, List.length_drop,
        List.length_append]
      exact (Nat.sub_self _).symm
  · rename_i hc
    have hlt := List.idxOf_lt_length_iff.2 hmem
    refine ⟨List.min?_eq_some_iff.2 ⟨List.mem_append_left _ hmem, fun b hb => ?_⟩, ?_⟩
    · rcases List.mem_append.1 hb with hb | hb
      · exact hleast b hb
      · rw [List.mem_singleton.1 hb]
        exact Int.not_lt.1 hc
    · have hrounds := hp.rounds
      rw [since, List.length_drop] at hrounds
      rw [since, List.idxOf_append_of_mem hmem, List.length_drop, List.length_append, hrounds]
      simp only [List.length_singleton]
      omega

/-- Going through more counts tells them, by induction on these. -/
theorem Tells.foldl {p : Plateau} {counts : List Int} (hp : p.Tells counts) (cs : List Int) :
    (cs.foldl Plateau.next p).Tells (counts ++ cs) := by
  induction cs generalizing p counts with
  | nil =>
    rw [List.append_nil]
    exact hp
  | cons c cs ih =>
    have h := ih (hp.next c)
    rw [List.append_assoc] at h
    exact h

end Plateau

namespace Stop

end Stop

namespace MeasuringRound

/-- What a round sums up from its coverage and its survey of times. -/
def summaryOf (i : RoundInput) (coverage : Json) : Summary where
  number := (roundLines i.checkpoints).length + 1
  benchmarks := (i.benchmarks.map benchmarkCount).getD 0
  percent := (Coverage.ofJson coverage).percent.amount
  shares := sharesOf (readSurvey "repotime" i.timeSurvey).1
  seconds := i.ended - i.started

/-- The lines that a round prints in any case. -/
def report (i : RoundInput) (coverage : Json) : List String :=
  (Coverage.ofJson coverage).table ++
    shareTable ((readSurvey "repotime" i.timeSurvey).1.get "hot_ext")
    (summaryOf i coverage).shares ++
      (i.judge (readSurvey "semcheck" i.valueSurvey).1).lines ++ [(summaryOf i coverage).line]

/-- What earlier rounds left counts whole, if all of it can be read. -/
theorem earlierRounds_of_isIntact {lines : List String} (h : isIntact lines = true) :
    earlierRounds lines = lines.filterMap readRound? := by
  have hread (ls : List String) (hls : isIntact ls = true) :
      readRounds ls = ls.filterMap readRound? := by
    induction ls with
    | nil => rfl
    | cons l ls ih =>
      rw [isIntact, List.all_cons, Bool.and_eq_true] at hls
      obtain ⟨r, hr⟩ := Option.isSome_iff_exists.1 hls.1
      rw [readRounds, hr, List.filterMap_cons_some hr, ← ih hls.2]
      rfl
  cases hlast : lines.getLast? with
  | none =>
    cases List.getLast?_eq_none_iff.1 hlast
    rfl
  | some l =>
    have hl := List.all_eq_true.1 h l (List.mem_of_getLast? hlast)
    obtain ⟨r, hr⟩ := Option.isSome_iff_exists.1 hl
    rw [earlierRounds, hlast, Option.bind_some, hr, ← hread lines h]
    rfl

end MeasuringRound

end SymScript
