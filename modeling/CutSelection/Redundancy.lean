import CutSelection.Cut

/-!
The redundancy filter: a cut that every point within the bounds satisfies can cut off nothing.
-/

namespace CutSelection
namespace Cut

variable {K : Type} [Scalar K] (cut : Cut K) (domains : Domains K) (t : Tolerances K)

def lowerSideIsRedundant : Except Fault Bool :=
  match cut.lhs with
  | none => .ok true
  | some lhs => do
    match ← cut.minActivity domains with
    | none => .ok false
    | some least => .ok (t.IsFeasibleLe (lhs - cut.constant) least)

def upperSideIsRedundant : Except Fault Bool :=
  match cut.rhs with
  | none => .ok true
  | some rhs => do
    match ← cut.maxActivity domains with
    | none => .ok false
    | some greatest => .ok (t.IsFeasibleLe greatest (rhs - cut.constant))

/-- A modifiable cut is never redundant. The right side is looked at only if the left one is
redundant. -/
def isRedundant : Except Fault Bool :=
  if cut.modifiable then .ok false
  else do
    if ← cut.lowerSideIsRedundant domains t then cut.upperSideIsRedundant domains t
    else .ok false

end Cut
end CutSelection
