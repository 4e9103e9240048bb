import CutSelection.Cut
import CutSelection.SearchTree

/-!
Bound changes: a cut on a single variable is a bound on that variable. Each of its sides gives at
most one change, and the change is applied to a node of the search tree instead of adding a row.
-/

namespace CutSelection

open Scalar

structure BoundChange (K : Type) where
  column : Nat
  value : K
  direction : Direction

namespace Cut

variable {K : Type} [Scalar K] (cut : Cut K)

/-- The change that one side of `a x + c` asks for: its distance to the constant divided by the
coefficient, rounded to the inside for an integer variable. None if the side is missing or does not
tighten the domain. -/
def sideChange (e : Entry K) (domain : Domain K) (t : Tolerances K) (side : Direction) :
    Option (BoundChange K) := do
  let limit ← cut.side side
  let direction := side.through e.2
  let value := domain.adjust direction ((limit - cut.constant) / e.2) t
  if domain.IsTightenedBy direction value t then some ⟨e.1, value, direction⟩ else none

def boundChanges (e : Entry K) (domains : Domains K) (t : Tolerances K) :
    Except Fault (List (BoundChange K)) :=
  if IsZero e.2 then .error (.violation .zeroCoefficient)
  else do
    let domain ← domains.get e.1
    .ok ([.lower, .upper].filterMap (cut.sideChange e domain t))

end Cut

namespace BoundChange

inductive Outcome
  | applied
  | dominated
  | infeasible
  deriving DecidableEq

variable {K : Type} [Scalar K]

/-- Tighten a bound at a node. The value is adjusted and compared with the bounds in focus; one that
crosses the opposite bound by no more than the feasibility tolerance is moved onto it. -/
def apply (change : BoundChange K) (tree : SearchTree K) (node : Nat) (t : Tolerances K) :
    Except Fault (SearchTree K × Outcome) := do
  let domain ← tree.domains.get change.column
  let value := domain.adjust change.direction change.value t
  if ¬domain.IsTightenedBy change.direction value t then .ok (tree, .dominated)
  else
    let value := domain.meet change.direction value t
    let (tree, crosses) ← tree.setBound node change.column value change.direction
    .ok (tree, if crosses then .infeasible else .applied)

end BoundChange
end CutSelection
