import CutSelection.Cut
import CutSelection.Settings
import CutSelection.Score

/-!
A stored cut with the values that decide its rank. The score combines how far the cut is violated
with how different it is from the better cuts.
-/

namespace CutSelection

/-- How a cut is submitted: to enter unconditionally, or to compete. -/
inductive Valuation (K : Type)
  | forced
  | scored (efficacy scorefactor : K)

structure RankedCut (K : Type) [Scalar K] where
  row : Row K
  /-- None for a forced cut. -/
  efficacy : Option K
  /-- The least orthogonality to the better cuts that it was compared with, at most one. -/
  orthogonality : K
  score : Score K
  scorefactor : K

variable {K : Type} [Scalar K]

def Settings.score (g : Settings K) (scorefactor efficacy orthogonality : K) : K :=
  scorefactor * (efficacy + g.orthogonalityWeight * orthogonality)

namespace RankedCut

def ofValuation (row : Row K) (g : Settings K) : Valuation K → RankedCut K
  | .forced => ⟨row, none, 1, .forced, 1⟩
  | .scored efficacy scorefactor =>
    ⟨row, some efficacy, 1, .finite (g.score scorefactor efficacy 1), scorefactor⟩

/-- Lower the recorded orthogonality of a scored cut, and its score with it. A cut that falls below
the threshold is marked for eviction. None if the value is not lower or the cut is not scored. -/
def reduce (c : RankedCut K) (orthogonality threshold : K) (g : Settings K) :
    Option (RankedCut K) :=
  match c.score, c.efficacy with
  | .finite _, some efficacy =>
    if c.orthogonality ≤ orthogonality then none
    else
      let score :=
        if g.tolerances.IsLt orthogonality threshold then Score.pendingEviction
        else .finite (g.score c.scorefactor efficacy orthogonality)
      some { c with orthogonality := orthogonality, score := score }
  | _, _ => none

theorem reduce_of_forced {c : RankedCut K} (h : c.score = .forced) (orthogonality threshold : K)
    (g : Settings K) : c.reduce orthogonality threshold g = none := by
  simp [reduce, h]

end RankedCut
end CutSelection
