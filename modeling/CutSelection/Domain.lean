import CutSelection.Tolerance
import CutSelection.Fault

/-!
Bounds of variables. A missing bound is infinite. The bounds in force at a node of the search tree
are one list of domains, indexed by variable.
-/

namespace CutSelection

open Scalar

inductive Direction
  | lower
  | upper
  deriving DecidableEq

namespace Direction

def opposite : Direction → Direction
  | .lower => .upper
  | .upper => .lower

@[simp] theorem opposite_opposite (d : Direction) : d.opposite.opposite = d := by cases d <;> rfl

variable {K : Type} [Scalar K]

/-- The bound of a variable that limits its product with a coefficient in the given direction. -/
def through (d : Direction) (coefficient : K) : Direction :=
  if 0 < coefficient then d else d.opposite

/-- No bound limits a product with zero. -/
def throughNonzero (d : Direction) (coefficient : K) : Except Fault Direction :=
  if IsZero coefficient then .error (.violation .zeroCoefficient) else .ok (d.through coefficient)

def Crosses (direction : Direction) (value opposite : K) : Prop :=
  match direction with
  | .lower => opposite < value
  | .upper => value < opposite

instance (direction : Direction) (value opposite : K) :
    Decidable (Crosses direction value opposite) := by
  unfold Crosses
  split <;> infer_instance

/-- Whether it does so by more than the feasibility tolerance. -/
def CrossesFar (direction : Direction) (value opposite : K) (t : Tolerances K) : Prop :=
  match direction with
  | .lower => t.IsFeasibleGt value opposite
  | .upper => t.IsFeasibleLt value opposite

instance (direction : Direction) (value opposite : K) (t : Tolerances K) :
    Decidable (CrossesFar direction value opposite t) := by
  unfold CrossesFar
  split <;> infer_instance

end Direction

inductive VariableKind
  | continuous
  | integer
  deriving DecidableEq

structure Domain (K : Type) where
  kind : VariableKind
  lower : Option K
  upper : Option K

namespace Domain

variable {K : Type}

def bound (d : Domain K) : Direction → Option K
  | .lower => d.lower
  | .upper => d.upper

def setBound (d : Domain K) (value : K) : Direction → Domain K
  | .lower => { d with lower := some value }
  | .upper => { d with upper := some value }

@[simp] theorem bound_setBound (d : Domain K) (value : K) (direction : Direction) :
    (d.setBound value direction).bound direction = some value := by cases direction <;> rfl

@[simp] theorem bound_setBound_opposite (d : Domain K) (value : K) (direction : Direction) :
    (d.setBound value direction).bound direction.opposite = d.bound direction.opposite := by
  cases direction <;> rfl

@[simp] theorem kind_setBound (d : Domain K) (value : K) (direction : Direction) :
    (d.setBound value direction).kind = d.kind := by cases direction <;> rfl

variable [Scalar K]

/-- Two finite bounds have to leave room for a value between them. -/
def ofBounds (kind : VariableKind) (lower upper : Option K) : Except Fault (Domain K) :=
  match lower, upper with
  | some l, some u =>
    if l ≤ u then .ok ⟨kind, some l, some u⟩ else .error (.violation .crossingBounds)
  | _, _ => .ok ⟨kind, lower, upper⟩

/-- An infinite bound is tightened by every value, a finite one if the value lies inside of it by
more than the tolerance. -/
def IsTightenedBy (d : Domain K) (direction : Direction) (value : K) (t : Tolerances K) : Prop :=
  match direction, d.bound direction with
  | _, none => True
  | .lower, some bound => t.IsGt value bound
  | .upper, some bound => t.IsLt value bound

instance (d : Domain K) (direction : Direction) (value : K) (t : Tolerances K) :
    Decidable (d.IsTightenedBy direction value t) := by
  unfold IsTightenedBy
  split <;> infer_instance

/-- The value that a bound takes: bounds of integer variables are rounded to the inside. -/
def adjust (d : Domain K) (direction : Direction) (value : K) (t : Tolerances K) : K :=
  match d.kind, direction with
  | .continuous, _ => value
  | .integer, .lower => t.feasibleCeil value
  | .integer, .upper => t.feasibleFloor value

def IsCrossedBy (d : Domain K) (direction : Direction) (value : K) : Prop :=
  match d.bound direction.opposite with
  | none => False
  | some opposite => direction.Crosses value opposite

instance (d : Domain K) (direction : Direction) (value : K) :
    Decidable (d.IsCrossedBy direction value) := by
  unfold IsCrossedBy
  split <;> infer_instance

/-- A value that is beyond the opposite bound within the feasibility tolerance is moved onto it. -/
def meet (d : Domain K) (direction : Direction) (value : K) (t : Tolerances K) : K :=
  match d.bound direction.opposite with
  | none => value
  | some opposite =>
    if direction.Crosses value opposite ∧ ¬direction.CrossesFar value opposite t then opposite
    else value

end Domain

abbrev Domains (K : Type) := List (Domain K)

def Domains.get {K : Type} (domains : Domains K) (column : Nat) : Except Fault (Domain K) :=
  match domains[column]? with
  | some d => .ok d
  | none => .error (.unknownVariable column)

end CutSelection
