import CutSelection.SparseVector
import CutSelection.Domain

/-!
Cuts: linear inequalities `lhs ≤ a x + c ≤ rhs` of which a side may be missing, what they say about
a point and about a box, and the values that they are selected by.
-/

namespace CutSelection

open Scalar

structure Cut (K : Type) [Scalar K] where
  name : String
  coefficients : SparseVector K
  constant : K
  lhs : Option K
  rhs : Option K
  /-- Variables may still be added to a modifiable cut. -/
  modifiable : Bool

namespace Cut

variable {K : Type} [Scalar K] (cut : Cut K)

/-- The left side is the lower one. -/
def side : Direction → Option K
  | .lower => cut.lhs
  | .upper => cut.rhs

def HasFiniteSide : Prop := cut.lhs.isSome ∨ cut.rhs.isSome

instance : Decidable cut.HasFiniteSide := inferInstanceAs (Decidable (_ ∨ _))

def activity (point : List K) : Except Fault K :=
  (· + cut.constant) <$> cut.coefficients.innerProductWithDense point

/-- Add up the smallest or largest products of coefficients and variables, none as soon as one of
them is infinite. -/
def boundSum (domains : Domains K) (direction : Direction) :
    K → List (Entry K) → Except Fault (Option K)
  | total, [] => .ok (some total)
  | total, e :: entries => do
    let domain ← domains.get e.1
    match domain.bound (direction.through e.2) with
    | none => .ok none
    | some bound => boundSum domains direction (total + e.2 * bound) entries

/-- The least or greatest value of `a x` over a box, without the constant. The sum starts at
negative zero, which every other term leaves as it is. -/
def activityBound (domains : Domains K) (direction : Direction) : Except Fault (Option K) :=
  boundSum domains direction (-0) cut.coefficients.entries

def minActivity (domains : Domains K) : Except Fault (Option K) :=
  cut.activityBound domains .lower

def maxActivity (domains : Domains K) : Except Fault (Option K) :=
  cut.activityBound domains .upper

/-- One for cuts at a right angle, zero for parallel ones, and one if a cut has no direction. -/
def orthogonality (other : Cut K) : K :=
  let norms := cut.coefficients.norm * other.coefficients.norm
  if norms ≤ 0 then 1
  else maximum (1 - abs (cut.coefficients.innerProduct other.coefficients / norms)) 0

/-- By how much the worse side is missed at a given activity, zero if none is. -/
def violation (activity : K) : K :=
  ([cut.lhs.map (· - activity), cut.rhs.map (activity - ·)].filterMap id).foldl maximum 0

/-- The violation at a point, relative to the norm of the cut, which is taken as no smaller than
`epsilon`. -/
def efficacy (point : List K) (norm : Norm) (epsilon : K) : Except Fault K :=
  (fun activity => cut.violation activity / maximum (cut.coefficients.normBy norm) epsilon) <$>
    cut.activity point

def singleEntry : Option (Entry K) :=
  match cut.coefficients.entries with
  | [e] => if cut.modifiable then none else some e
  | _ => none

end Cut

/-- A row is a cut that can be told from other cuts, equal ones included, by its number. -/
structure Row (K : Type) [Scalar K] extends Cut K where
  number : Nat

end CutSelection
