import CutSelection.RankedCut

/-!
Stored cuts ranked by score, best first. A candidate is compared with the better cuts on the way to
its rank, which may lower its score. The cuts it displaces are then compared with it, from the last
one upwards, and each sinks below the cuts that have become better. A comparison is never undone: a
cut keeps an orthogonality that it owes to a cut now ranked below it.
-/

namespace CutSelection

abbrev Ranking (K : Type) [Scalar K] := List (RankedCut K)

inductive Rejection
  | noCapacity
  /-- The ranking is full, and the candidate is not better than the worst cut. -/
  | scoreTooLow
  | tooParallel
  deriving DecidableEq

structure Clash (K : Type) [Scalar K] where
  cut : Row K
  better : Row K
  orthogonality : K

/-- A ranking divided at the rank of a candidate, with the candidate as the better cuts left it. -/
structure Placement (K : Type) [Scalar K] where
  above : Ranking K
  candidate : RankedCut K
  below : Ranking K

structure Settled (K : Type) [Scalar K] where
  cuts : Ranking K
  clashes : List (Clash K)

structure Insertion (K : Type) [Scalar K] where
  position : Nat
  cuts : Ranking K
  clashes : List (Clash K)
  capacity : Option Nat
  overflow : Option (RankedCut K)
  /-- The marked cuts at the tail, from the last one upwards. -/
  trimmed : List (RankedCut K)

variable {K : Type} [Scalar K]

namespace RankedCut

variable (threshold : K) (g : Settings K)

def IsBetterThan (c other : RankedCut K) (t : Tolerances K) : Prop :=
  c.score.IsBetterThan other.score t

instance (c other : RankedCut K) (t : Tolerances K) : Decidable (c.IsBetterThan other t) :=
  inferInstanceAs (Decidable (Score.IsBetterThan _ _ _))

def reduceBy (c better : RankedCut K) : Option (RankedCut K) :=
  c.reduce (c.row.orthogonality better.row.toCut) threshold g

def comparedWith (c better : RankedCut K) : RankedCut K × List (Clash K) :=
  match c.reduceBy threshold g better with
  | none => (c, [])
  | some reduced =>
    (reduced, if reduced.score.IsPending
      then [⟨c.row, better.row, reduced.orthogonality⟩] else [])

def IsOutclassed (c : RankedCut K) (worst : Option (Score K)) (t : Tolerances K) : Prop :=
  match worst with
  | none => False
  | some w => ¬c.score.IsBetterThan w t

instance (c : RankedCut K) (worst : Option (Score K)) (t : Tolerances K) :
    Decidable (c.IsOutclassed worst t) := by
  unfold IsOutclassed
  split <;> infer_instance

def challenge (worst : Option (Score K)) (c better : RankedCut K) :
    Except Rejection (RankedCut K) :=
  match c.reduceBy threshold g better with
  | none => .ok c
  | some reduced =>
    if reduced.score.IsPending then .error .tooParallel
    else if reduced.IsOutclassed worst g.tolerances then .error .scoreTooLow
    else .ok reduced

end RankedCut

namespace Ranking

variable (threshold : K) (g : Settings K)

/-- Walk down from the best cut until the candidate is better than the next one. -/
def place (worst : Option (Score K)) (candidate : RankedCut K) :
    Ranking K → Except Rejection (Placement K)
  | [] => .ok ⟨[], candidate, []⟩
  | better :: cuts =>
    if candidate.IsBetterThan better g.tolerances then .ok ⟨[], candidate, better :: cuts⟩
    else do
      let candidate ← candidate.challenge threshold g worst better
      let p ← place worst candidate cuts
      .ok { p with above := better :: p.above }

theorem above_append_below {worst : Option (Score K)} {candidate : RankedCut K} {cuts : Ranking K}
    {p : Placement K} (h : place threshold g worst candidate cuts = .ok p) :
    p.above ++ p.below = cuts := by
  induction cuts generalizing candidate p with
  | nil =>
    cases h
    rfl
  | cons better cuts ih =>
    unfold place at h
    split at h
    · cases h
      rfl
    · cases hc : candidate.challenge threshold g worst better with
      | error e => simp [hc, bind, Except.bind] at h
      | ok next =>
        cases hp : place threshold g worst next cuts with
        | error e => simp [hc, hp, bind, Except.bind] at h
        | ok q =>
          simp only [hc, hp, bind, Except.bind] at h
          cases h
          exact congrArg (better :: ·) (ih hp)

/-- Let a cut sink past the cuts that are better, comparing it with each of them. -/
def sink (c : RankedCut K) : Ranking K → Settled K
  | [] => ⟨[c], []⟩
  | next :: cuts =>
    if next.IsBetterThan c g.tolerances then
      let (c, clash) := c.comparedWith threshold g next
      let rest := sink c cuts
      ⟨next :: rest.cuts, clash ++ rest.clashes⟩
    else ⟨c :: next :: cuts, []⟩

@[simp] theorem length_sink (c : RankedCut K) (cuts : Ranking K) :
    (sink threshold g c cuts).cuts.length = cuts.length + 1 := by
  induction cuts generalizing c with
  | nil => rfl
  | cons next cuts ih =>
    unfold sink
    split
    · simp [ih]
    · simp

/-- Compare the cuts below an inserted one with it, the last one first. -/
def settle (inserted : RankedCut K) : Ranking K → Settled K
  | [] => ⟨[], []⟩
  | c :: cuts =>
    let below := settle inserted cuts
    let (c, clash) := c.comparedWith threshold g inserted
    let sunk := sink threshold g c below.cuts
    ⟨sunk.cuts, below.clashes ++ clash ++ sunk.clashes⟩

@[simp] theorem length_settle (inserted : RankedCut K) (cuts : Ranking K) :
    (settle threshold g inserted cuts).cuts.length = cuts.length := by
  induction cuts with
  | nil => rfl
  | cons c cuts ih => simp [settle, ih]

/-- The score that a regular candidate has to beat: the last one of a full ranking. -/
def worst (cuts : Ranking K) : Option Nat → Option (Score K)
  | none => none
  | some capacity => if capacity ≤ cuts.length then cuts.getLast?.map (·.score) else none

def overflow (cuts : Ranking K) : Option Nat → Option (RankedCut K)
  | none => none
  | some capacity =>
    if capacity < cuts.length then cuts.getLast?.filter (¬·.score.IsForced) else none

def pendingTail (cuts : Ranking K) : List (RankedCut K) :=
  cuts.reverse.takeWhile (·.score.IsPending)

def withoutPendingTail (cuts : Ranking K) : Ranking K :=
  (cuts.reverse.dropWhile (·.score.IsPending)).reverse

theorem withoutPendingTail_append (cuts : Ranking K) :
    withoutPendingTail cuts ++ (pendingTail cuts).reverse = cuts := by
  rw [withoutPendingTail, pendingTail, ← List.reverse_append, List.takeWhile_append_dropWhile,
    List.reverse_reverse]

/-- No cut is better than the one directly above it. -/
def Sorted (t : Tolerances K) : Ranking K → Prop
  | c :: next :: cuts => ¬next.IsBetterThan c t ∧ Sorted t (next :: cuts)
  | _ => True

instance decidableSorted (t : Tolerances K) : (cuts : Ranking K) → Decidable (Sorted t cuts)
  | [] => .isTrue trivial
  | [_] => .isTrue trivial
  | c :: next :: cuts =>
    have := decidableSorted t (next :: cuts)
    inferInstanceAs (Decidable (¬next.IsBetterThan c t ∧ Sorted t (next :: cuts)))

def fault (t : Tolerances K) (cuts : Ranking K) : Option Fault :=
  if Sorted t cuts then none else some (.violation .unsortedRanks)

/-- Put a placed candidate into the ranking and evict what has to leave for it: one cut too many,
which a forced candidate spares, and then the marked cuts at the tail. -/
def ofPlacement (p : Placement K) (capacity : Option Nat) : Insertion K :=
  let below := settle threshold g p.candidate p.below
  let cuts := p.above ++ p.candidate :: below.cuts
  let last := if p.candidate.score.IsForced then none else overflow cuts capacity
  let kept := if last.isSome then cuts.dropLast else cuts
  ⟨p.above.length, withoutPendingTail kept, below.clashes, capacity, last, pendingTail kept⟩

/-- Offer a cut to a ranking that holds at most `capacity` regular cuts. A forced cut is compared
with no other on its way in, since its orthogonality is never lowered. -/
def insert (cuts : Ranking K) (row : Row K) (valuation : Valuation K) (capacity : Option Nat) :
    Except Rejection (Insertion K) :=
  if capacity = some 0 then .error .noCapacity
  else
    let candidate := RankedCut.ofValuation row g valuation
    let worst := if candidate.score.IsForced then none else cuts.worst capacity
    if candidate.IsOutclassed worst g.tolerances then .error .scoreTooLow
    else do
      let p ← place threshold g worst candidate cuts
      .ok (ofPlacement threshold g p capacity)

end Ranking
end CutSelection
