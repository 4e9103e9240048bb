import CutSelection.Ranking
import Mathlib.Data.List.Induction

/-!
Sequences of calls on a ranking. A call that leaves the ranking out of order does not return, and a
sequence goes on only after calls that do. What matters for the stored cuts is the round: the
insertions since the ranking was last drained.
-/

namespace CutSelection
namespace Ranking

variable {K : Type} [Scalar K] (threshold : K) (g : Settings K)

/-- The score that a candidate has to beat. A forced one has to beat none. -/
def bar (cuts : Ranking K) (candidate : RankedCut K) (capacity : Option Nat) : Option (Score K) :=
  if candidate.score.IsForced then none else cuts.worst capacity

/-- The place of a candidate, if the ranking accepts it. -/
def offer (cuts : Ranking K) (row : Row K) (valuation : Valuation K) (capacity : Option Nat) :
    Except Rejection (Placement K) :=
  if capacity = some 0 then .error .noCapacity
  else
    let candidate := RankedCut.ofValuation row g valuation
    if candidate.IsOutclassed (cuts.bar candidate capacity) g.tolerances then .error .scoreTooLow
    else place threshold g (cuts.bar candidate capacity) candidate cuts

theorem insert_eq_map_offer (cuts : Ranking K) (row : Row K) (valuation : Valuation K)
    (capacity : Option Nat) :
    cuts.insert threshold g row valuation capacity =
      (ofPlacement threshold g · capacity) <$> cuts.offer threshold g row valuation capacity := by
  let candidate := RankedCut.ofValuation row g valuation
  change (if capacity = some 0 then Except.error Rejection.noCapacity
    else if candidate.IsOutclassed (cuts.bar candidate capacity) g.tolerances then
      .error .scoreTooLow
    else do
      let p ← place threshold g (cuts.bar candidate capacity) candidate cuts
      .ok (ofPlacement threshold g p capacity)) = _
  by_cases hc : capacity = some 0
  · simp only [offer, if_pos hc]
    rfl
  by_cases ho : candidate.IsOutclassed (cuts.bar candidate capacity) g.tolerances
  · simp only [offer, candidate, if_neg hc, if_pos ho]
    rfl
  · simp only [offer, candidate, if_neg hc, if_neg ho]
    cases place threshold g _ _ cuts <;> rfl

theorem offer_eq_ok {cuts : Ranking K} {row : Row K} {valuation : Valuation K}
    {capacity : Option Nat} {p : Placement K} :
    let candidate := RankedCut.ofValuation row g valuation
    cuts.offer threshold g row valuation capacity = .ok p ↔ capacity ≠ some 0 ∧
      ¬candidate.IsOutclassed (cuts.bar candidate capacity) g.tolerances ∧
        place threshold g (cuts.bar candidate capacity) candidate cuts = .ok p := by
  dsimp only
  unfold offer
  split
  · rename_i hc
    simp [hc]
  · rename_i hc
    dsimp only
    split <;> simp [*]

theorem place_of_offer {cuts : Ranking K} {row : Row K} {valuation : Valuation K}
    {capacity : Option Nat} {p : Placement K}
    (h : cuts.offer threshold g row valuation capacity = .ok p) :
    place threshold g (cuts.bar (RankedCut.ofValuation row g valuation) capacity)
      (RankedCut.ofValuation row g valuation) cuts = .ok p :=
  ((offer_eq_ok threshold g).mp h).2.2

inductive Call (K : Type) [Scalar K]
  | insert (row : Row K) (valuation : Valuation K) (capacity : Option Nat) (threshold : K)
  | drain

instance decidableEqError {α : Type} (r : Except Fault α) (f : Fault) : Decidable (r = .error f) :=
  match r with
  | .error e => decidable_of_iff (e = f) (by simp)
  | .ok _ => .isFalse (by simp)

def Call.UsesThreshold (m : K) : Call K → Prop
  | .insert _ _ _ threshold => threshold = m
  | .drain => True

/-- A rejected candidate leaves the ranking as it is. -/
def perform (cuts : Ranking K) : Call K → Except Fault (Ranking K)
  | .insert row valuation capacity threshold =>
    match cuts.insert threshold g row valuation capacity with
    | .error _ => .ok cuts
    | .ok i =>
      match i.cuts.fault g.tolerances with
      | some f => .error f
      | none => .ok i.cuts
  | .drain => .ok []

def run (calls : List (Call K)) : Except Fault (Ranking K) := calls.foldlM (perform g) []

/-- The insertions since the last drain. -/
def round (calls : List (Call K)) : List (Call K) :=
  calls.foldl (fun since call => match call with
    | .drain => []
    | call => since ++ [call]) []

@[simp] theorem round_nil : round ([] : List (Call K)) = [] := rfl

@[simp] theorem round_concat_drain (calls : List (Call K)) : round (calls ++ [.drain]) = [] := by
  simp [round]

@[simp] theorem round_concat_insert (calls : List (Call K)) (row : Row K) (valuation : Valuation K)
    (capacity : Option Nat) (threshold : K) :
    round (calls ++ [.insert row valuation capacity threshold]) =
      round calls ++ [.insert row valuation capacity threshold] := by
  simp [round]

theorem mem_of_mem_round {calls : List (Call K)} {call : Call K} (h : call ∈ round calls) :
    call ∈ calls := by
  induction calls using List.reverseRecOn with
  | nil => exact h
  | append_singleton calls last ih =>
    cases last with
    | drain => simp at h
    | insert row valuation capacity threshold =>
      rw [round_concat_insert] at h
      exact List.mem_append.mpr ((List.mem_append.mp h).imp_left ih)

variable {threshold g}

theorem run_concat_eq_ok {calls : List (Call K)} {call : Call K} {cuts : Ranking K} :
    run g (calls ++ [call]) = .ok cuts ↔
      ∃ before, run g calls = .ok before ∧ perform g before call = .ok cuts := by
  simp only [run]
  rw [List.foldlM_append]
  cases h : calls.foldlM (perform g) [] with
  | error f => simp [bind, Except.bind]
  | ok before =>
    simp only [List.foldlM_cons, List.foldlM_nil, bind, Except.bind, Except.ok.injEq,
      exists_eq_left']
    cases perform g before call <;> simp [pure, Except.pure]

theorem insert_eq_ok {cuts : Ranking K} {row : Row K} {valuation : Valuation K}
    {capacity : Option Nat} {i : Insertion K} :
    cuts.insert threshold g row valuation capacity = .ok i ↔
      ∃ p, cuts.offer threshold g row valuation capacity = .ok p ∧
        i = ofPlacement threshold g p capacity := by
  rw [insert_eq_map_offer]
  cases cuts.offer threshold g row valuation capacity <;>
    simp [Functor.map, Except.map, eq_comm]

theorem insert_eq_error {cuts : Ranking K} {row : Row K} {valuation : Valuation K}
    {capacity : Option Nat} {r : Rejection} :
    cuts.insert threshold g row valuation capacity = .error r ↔
      cuts.offer threshold g row valuation capacity = .error r := by
  rw [insert_eq_map_offer]
  cases cuts.offer threshold g row valuation capacity <;> simp [Functor.map, Except.map]

theorem cuts_of_insert {cuts after : Ranking K} {row : Row K} {valuation : Valuation K}
    {capacity : Option Nat} {i : Insertion K}
    (h : cuts.insert threshold g row valuation capacity = .ok i)
    (hp : perform g cuts (.insert row valuation capacity threshold) = .ok after) :
    after = i.cuts := by
  simp only [perform, h] at hp
  split at hp
  · cases hp
  · exact (Except.ok.inj hp).symm

/-- An insertion fails exactly if it puts an accepted candidate into a ranking that is then out of
order. -/
theorem perform_insert_eq_error {cuts : Ranking K} {row : Row K} {valuation : Valuation K}
    {capacity : Option Nat} {f : Fault} :
    perform g cuts (.insert row valuation capacity threshold) = .error f ↔
      f = .violation .unsortedRanks ∧
        ∃ p, cuts.offer threshold g row valuation capacity = .ok p ∧
          ¬Sorted g.tolerances (ofPlacement threshold g p capacity).cuts := by
  simp only [perform, insert_eq_map_offer]
  cases hp : cuts.offer threshold g row valuation capacity with
  | error e => simp [Functor.map, Except.map]
  | ok p =>
    by_cases hs : Sorted g.tolerances (ofPlacement threshold g p capacity).cuts
    · simp [Functor.map, Except.map, fault, hs]
    · simp [Functor.map, Except.map, fault, hs, eq_comm]

theorem perform_insert_eq_ok {cuts after : Ranking K} {row : Row K} {valuation : Valuation K}
    {capacity : Option Nat}
    (h : perform g cuts (.insert row valuation capacity threshold) = .ok after) :
    (after = cuts ∧ ∃ r, cuts.offer threshold g row valuation capacity = .error r) ∨
      ∃ p, cuts.offer threshold g row valuation capacity = .ok p ∧
        after = (ofPlacement threshold g p capacity).cuts ∧ Sorted g.tolerances after := by
  simp only [perform, insert_eq_map_offer] at h
  cases hp : cuts.offer threshold g row valuation capacity with
  | error e =>
    simp only [hp, Functor.map, Except.map, Except.ok.injEq] at h
    exact .inl ⟨h.symm, e, rfl⟩
  | ok p =>
    refine .inr ⟨p, rfl, ?_⟩
    by_cases hs : Sorted g.tolerances (ofPlacement threshold g p capacity).cuts
    · simp only [hp, Functor.map, Except.map, fault, if_pos hs, Except.ok.injEq] at h
      exact ⟨h.symm, h ▸ hs⟩
    · simp [hp, Functor.map, Except.map, fault, hs] at h

theorem perform_of_offer_error {cuts : Ranking K} {row : Row K} {valuation : Valuation K}
    {capacity : Option Nat} {r : Rejection}
    (h : cuts.offer threshold g row valuation capacity = .error r) :
    perform g cuts (.insert row valuation capacity threshold) = .ok cuts := by
  simp only [perform, insert_eq_map_offer, h, Functor.map, Except.map]

theorem perform_of_offer_ok {cuts : Ranking K} {row : Row K} {valuation : Valuation K}
    {capacity : Option Nat} {p : Placement K}
    (h : cuts.offer threshold g row valuation capacity = .ok p)
    (hs : Sorted g.tolerances (ofPlacement threshold g p capacity).cuts) :
    perform g cuts (.insert row valuation capacity threshold) =
      .ok (ofPlacement threshold g p capacity).cuts := by
  simp only [perform, insert_eq_map_offer, h, Functor.map, Except.map, fault, if_pos hs]

/-- What the empty ranking has at the start of a round, and every insertion keeps, holds after every
sequence of calls. -/
theorem run_induction {P : List (Call K) → Ranking K → Prop} (start : P [] [])
    (step : ∀ {since : List (Call K)} {cuts after : Ranking K} (row : Row K)
      (valuation : Valuation K) (capacity : Option Nat) (threshold : K), P since cuts →
      perform g cuts (.insert row valuation capacity threshold) = .ok after →
      P (since ++ [.insert row valuation capacity threshold]) after)
    {calls : List (Call K)} {cuts : Ranking K} (h : run g calls = .ok cuts) :
    P (round calls) cuts := by
  induction calls using List.reverseRecOn generalizing cuts with
  | nil =>
    cases h
    exact start
  | append_singleton calls call ih =>
    obtain ⟨before, hb, hc⟩ := run_concat_eq_ok.mp h
    cases call with
    | drain =>
      cases hc
      simpa using start
    | insert row valuation capacity threshold =>
      simpa using step row valuation capacity threshold (ih hb) hc

end Ranking
end CutSelection
