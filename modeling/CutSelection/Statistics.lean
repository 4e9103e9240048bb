/-!
Counters over the whole solve and over the current round.
-/

namespace CutSelection

structure Statistics where
  found : Nat := 0
  foundInRound : Nat := 0
  stored : Nat := 0
  applied : Nat := 0
  boundChangesApplied : Nat := 0
  rounds : Nat := 0
  deriving DecidableEq

namespace Statistics

def countFound (s : Statistics) : Statistics :=
  { s with found := s.found + 1, foundInRound := s.foundInRound + 1 }

def countStored (s : Statistics) (cuts : Nat) : Statistics := { s with stored := s.stored + cuts }

/-- An applied bound change counts as an applied cut. -/
def countApplied (s : Statistics) (rows boundChanges : Nat) : Statistics :=
  { s with
    applied := s.applied + rows + boundChanges
    boundChangesApplied := s.boundChangesApplied + boundChanges }

def endRound (s : Statistics) : Statistics :=
  { s with foundInRound := 0, stored := 0, rounds := s.rounds + 1 }

end Statistics
end CutSelection
