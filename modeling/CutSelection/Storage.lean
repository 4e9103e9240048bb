import CutSelection.Event
import CutSelection.Redundancy
import CutSelection.Relaxation
import CutSelection.Statistics

/-!
The storage of a separation round. Cuts on a single variable are kept as bound changes, redundant
cuts are dropped, and all others compete for a rank. While the initial LP is built, every cut is
forced and the capacity is unlimited.
-/

namespace CutSelection

structure Storage (K : Type) [Scalar K] where
  settings : Settings K
  cuts : Ranking K := []
  boundChanges : List (BoundChange K) := []
  initialLp : Bool := false
  statistics : Statistics := {}

inductive Admission
  | stored
  | boundChanges (count : Nat)
  | redundant
  | rejected
  deriving DecidableEq

inductive Appraisal (K : Type) [Scalar K]
  | redundant
  | boundChanges (changes : List (BoundChange K))
  | ranked (outcome : Except Rejection (Insertion K))

namespace Storage

variable {K : Type} [Scalar K]

def count (s : Storage K) : Nat := s.cuts.length + s.boundChanges.length

def isEmpty (s : Storage K) : Bool := s.cuts.isEmpty && s.boundChanges.isEmpty

/-- A cut is forced in the initial LP, or by an infinite score factor. -/
def Forces (s : Storage K) (scorefactor : K) : Prop :=
  s.initialLp ∨ s.settings.tolerances.IsInfinity scorefactor

instance (s : Storage K) (scorefactor : K) : Decidable (s.Forces scorefactor) :=
  inferInstanceAs (Decidable (_ ∨ _))

def capacity (s : Storage K) (atRoot : Bool) : Option Nat :=
  if s.initialLp then none else some (s.settings.capacity atRoot)

def valuation (s : Storage K) (row : Row K) (scorefactor : K) (solution : List K) :
    Except Fault (Valuation K) :=
  if s.Forces scorefactor then .ok .forced
  else (Valuation.scored · scorefactor) <$>
    row.efficacy solution s.settings.efficacyNorm s.settings.tolerances.epsilon

/-- Weigh a cut against the bounds in force, the LP solution and the stored cuts. Forced cuts pass
the redundancy filter unseen, but become bound changes like all others. -/
def appraise (s : Storage K) (row : Row K) (scorefactor : K) (atRoot : Bool) (solution : List K)
    (domains : Domains K) : Except Fault (Appraisal K) := do
  let redundant ←
    if s.Forces scorefactor then .ok false else row.isRedundant domains s.settings.tolerances
  if redundant then .ok .redundant
  else match row.singleEntry with
    | some e => .boundChanges <$> row.boundChanges e domains s.settings.tolerances
    | none => do
      let valuation ← s.valuation row scorefactor solution
      .ok (.ranked (s.cuts.insert (s.settings.threshold atRoot) s.settings row valuation
        (s.capacity atRoot)))

def accept (s : Storage K) (row : Row K) : Appraisal K → Reply K (Storage K) Admission
  | .redundant => ⟨s, [.redundant row.name], .ok .redundant⟩
  | .boundChanges [] => ⟨s, [.tightensNothing row.name], .ok .redundant⟩
  | .boundChanges changes =>
    ⟨{ s with
        boundChanges := s.boundChanges ++ changes
        statistics := s.statistics.countStored changes.length },
      changes.map (.storedAsBoundChange row.name), .ok (.boundChanges changes.length)⟩
  | .ranked (.error why) => ⟨s, [.rejected row.name why], .ok .rejected⟩
  | .ranked (.ok i) =>
    let s := { s with cuts := i.cuts }
    match i.cuts.fault s.settings.tolerances with
    | some f => ⟨s, i.events, .error f⟩
    | none =>
      ⟨{ s with statistics := s.statistics.countStored 1 },
        i.events ++ [.stored row.name i.position i.cuts.length], .ok .stored⟩

/-- Submit a cut. It may not be in the LP, and needs a finite side. -/
def addCut (s : Storage K) (row : Row K) (scorefactor : K) (atRoot : Bool) (lp : Relaxation K)
    (domains : Domains K) : Reply K (Storage K) Admission :=
  if lp.Contains row then ⟨s, [], .error (.misuse (.alreadyInLp row.name))⟩
  else if ¬row.HasFiniteSide then ⟨s, [], .error (.misuse (.noFiniteSide row.name))⟩
  else match s.appraise row scorefactor atRoot lp.solution domains with
    | .error f => ⟨s, [], .error f⟩
    | .ok a => { s with statistics := s.statistics.countFound }.accept row a

def endRound (s : Storage K) (how : RoundEnd) : Storage K × Event K :=
  ({ s with cuts := [], boundChanges := [], statistics := s.statistics.endRound },
    .roundEnded s.statistics.rounds how s.statistics.stored s.statistics.foundInRound
      s.statistics.applied)

def clear (s : Storage K) : Reply K (Storage K) Unit :=
  let (s, e) := s.endRound .cleared
  ⟨s, [e], .ok ()⟩

def startInitialLp (s : Storage K) : Except Misuse (Storage K) :=
  if s.initialLp then .error .initialLpStarted
  else if ¬s.isEmpty then .error .storedBeforeInitialLp
  else .ok { s with initialLp := true }

def endInitialLp (s : Storage K) : Except Misuse (Storage K) :=
  if ¬s.initialLp then .error .initialLpNotStarted
  else if ¬s.isEmpty then .error .storedInInitialLp
  else .ok { s with initialLp := false }

end Storage
end CutSelection
