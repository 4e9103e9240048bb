import CutSelection.Scalar

/-!
Comparisons that ignore small differences. A difference is measured relative to the larger of the
two magnitudes, and absolutely below one. Scores and bound improvements are compared at `epsilon`,
activities and crossing bounds at the coarser `feasibility`.
-/

namespace CutSelection

open Scalar

structure Tolerances (K : Type) where
  epsilon : K
  feasibility : K
  infinity : K

def Tolerances.standard : Tolerances Float := ⟨1e-9, 1e-6, 1e20⟩

/-- The difference of two values, relative to the larger magnitude or to one. -/
def relativeDifference {K : Type} [Scalar K] (left right : K) : K :=
  (left - right) / maximum (maximum (abs left) (abs right)) 1

namespace Tolerances

variable {K : Type} [Scalar K] (t : Tolerances K) (left right value : K)

def IsEq : Prop := abs (relativeDifference left right) ≤ t.epsilon
def IsLt : Prop := relativeDifference left right < -t.epsilon
def IsLe : Prop := relativeDifference left right ≤ t.epsilon
def IsGt : Prop := t.epsilon < relativeDifference left right
def IsGe : Prop := -t.epsilon ≤ relativeDifference left right

def IsFeasibleLt : Prop := relativeDifference left right < -t.feasibility
def IsFeasibleLe : Prop := relativeDifference left right ≤ t.feasibility
def IsFeasibleGt : Prop := t.feasibility < relativeDifference left right
def IsFeasibleGe : Prop := -t.feasibility ≤ relativeDifference left right

def IsZero : Prop := abs value ≤ t.epsilon
def IsInfinity : Prop := t.infinity ≤ value

instance : Decidable (t.IsEq left right) := inferInstanceAs (Decidable (_ ≤ _))
instance : Decidable (t.IsLt left right) := inferInstanceAs (Decidable (_ < _))
instance : Decidable (t.IsLe left right) := inferInstanceAs (Decidable (_ ≤ _))
instance : Decidable (t.IsGt left right) := inferInstanceAs (Decidable (_ < _))
instance : Decidable (t.IsGe left right) := inferInstanceAs (Decidable (_ ≤ _))
instance : Decidable (t.IsFeasibleLt left right) := inferInstanceAs (Decidable (_ < _))
instance : Decidable (t.IsFeasibleLe left right) := inferInstanceAs (Decidable (_ ≤ _))
instance : Decidable (t.IsFeasibleGt left right) := inferInstanceAs (Decidable (_ < _))
instance : Decidable (t.IsFeasibleGe left right) := inferInstanceAs (Decidable (_ ≤ _))
instance : Decidable (t.IsZero value) := inferInstanceAs (Decidable (_ ≤ _))
instance : Decidable (t.IsInfinity value) := inferInstanceAs (Decidable (_ ≤ _))

/-- Round down, but up to an integer that is missed by no more than the feasibility tolerance. -/
def feasibleFloor : K := floor (value + t.feasibility)

/-- Round up, but down to an integer that is exceeded by no more than the feasibility tolerance. -/
def feasibleCeil : K := ceil (value - t.feasibility)

end Tolerances
end CutSelection
