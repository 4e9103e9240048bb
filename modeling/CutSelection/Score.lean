import CutSelection.Tolerance

/-!
What decides between cuts: a number, or a tag for cuts that enter in any case and for cuts that are
about to leave.
-/

namespace CutSelection

open Scalar

inductive Score (K : Type)
  | forced
  | finite (value : K)
  /-- The cut was found too parallel to a better one. -/
  | pendingEviction

namespace Score

variable {K : Type}

def tag : Score K → Nat
  | .pendingEviction => 0
  | .finite _ => 1
  | .forced => 2

def IsForced (s : Score K) : Prop := s.tag = 2
def IsPending (s : Score K) : Prop := s.tag = 0

instance (s : Score K) : Decidable s.IsForced := inferInstanceAs (Decidable (_ = _))
instance (s : Score K) : Decidable s.IsPending := inferInstanceAs (Decidable (_ = _))

@[simp] theorem isForced_iff (s : Score K) : s.IsForced ↔ s = .forced := by
  cases s <;> simp [IsForced, tag]

@[simp] theorem isPending_iff (s : Score K) : s.IsPending ↔ s = .pendingEviction := by
  cases s <;> simp [IsPending, tag]

variable [Scalar K]

/-- Finite scores have to differ by more than the tolerance. -/
def IsBetterThan (s r : Score K) (t : Tolerances K) : Prop :=
  match s, r with
  | .finite a, .finite b => t.IsGt a b
  | _, _ => r.tag < s.tag

instance (s r : Score K) (t : Tolerances K) : Decidable (s.IsBetterThan r t) := by
  unfold IsBetterThan
  split <;> infer_instance

@[simp] theorem finite_isBetterThan_finite (a b : K) (t : Tolerances K) :
    (finite a).IsBetterThan (finite b) t ↔ t.IsGt a b := Iff.rfl

/-- Nothing is better than a forced cut, not even another one. -/
@[simp] theorem not_isBetterThan_forced (s : Score K) (t : Tolerances K) :
    ¬s.IsBetterThan forced t := by cases s <;> simp [IsBetterThan, tag]

@[simp] theorem not_pendingEviction_isBetterThan (s : Score K) (t : Tolerances K) :
    ¬pendingEviction.IsBetterThan s t := by cases s <;> simp [IsBetterThan, tag]

@[simp] theorem isBetterThan_pendingEviction (s : Score K) (t : Tolerances K) :
    s.IsBetterThan pendingEviction t ↔ ¬s.IsPending := by cases s <;> simp [IsBetterThan, tag]

def order? (s r : Score K) : Option Ordering :=
  match s, r with
  | .finite a, .finite b => Scalar.order? a b
  | _, _ => some (compare s.tag r.tag)

def Same (s r : Score K) : Prop :=
  match s, r with
  | .finite a, .finite b => Scalar.Same a b
  | _, _ => s.tag = r.tag

instance (s r : Score K) : Decidable (s.Same r) := by
  unfold Same
  split <;> infer_instance

end Score
end CutSelection
