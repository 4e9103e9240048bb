import CutSelection.BoundChange
import CutSelection.Ranking

/-!
What the library reports while it works, beside the results of its operations.
-/

namespace CutSelection

inductive RoundEnd
  | applied
  | cleared
  deriving DecidableEq

inductive Event (K : Type)
  | redundant (cut : String)
  | storedAsBoundChange (cut : String) (change : BoundChange K)
  | tightensNothing (cut : String)
  | stored (cut : String) (rank count : Nat)
  | rejected (cut : String) (why : Rejection)
  | tooParallel (cut better : String) (orthogonality : K)
  | evictedAtCapacity (cut : String) (capacity : Nat)
  | evictedAsParallel (cut : String) (orthogonality : K)
  | changeApplied (change : BoundChange K)
  | changeDominated (change : BoundChange K)
  | changeInfeasible (change : BoundChange K) (node : Nat)
  | rowAdded (cut : String) (depth : Nat)
  | rowsRemoved (count depth : Nat)
  | roundEnded (round : Nat) (how : RoundEnd) (stored found applied : Nat)

variable {K : Type}

def BoundChange.Outcome.event (change : BoundChange K) (node : Nat) : Outcome → Event K
  | .applied => .changeApplied change
  | .dominated => .changeDominated change
  | .infeasible => .changeInfeasible change node

variable [Scalar K]

def Clash.event (c : Clash K) : Event K := .tooParallel c.cut.name c.better.name c.orthogonality

/-- What happened to the stored cuts when another one was inserted, in that order. -/
def Insertion.events (i : Insertion K) : List (Event K) :=
  i.clashes.map Clash.event ++
    (match i.overflow, i.capacity with
      | some c, some capacity => [.evictedAtCapacity c.row.name capacity]
      | _, _ => []) ++
    i.trimmed.map fun c => .evictedAsParallel c.row.name c.orthogonality

structure Reply (K S α : Type) where
  state : S
  events : List (Event K)
  result : Except Fault α

end CutSelection
