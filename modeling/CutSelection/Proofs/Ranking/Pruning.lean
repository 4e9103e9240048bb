import CutSelection.Proofs.Ranking.TotalOrder

/-!
A full ranking turns a candidate away as soon as its score is not better than the worst one. Nothing
is lost by that: comparisons only lower the score, so the candidate would come to rank last, and it
would be the cut that has to leave.
-/

namespace CutSelection

open Scalar

variable {K : Type} [Scalar K] {threshold : K} {g : Settings K}

namespace RankedCut

variable (threshold g) in
theorem challenge_cases (worst : Option (Score K)) (c better : RankedCut K) :
    c.challenge threshold g worst better = c.challenge threshold g none better ∨
      ∃ d, c.challenge threshold g none better = .ok d ∧
        c.challenge threshold g worst better = .error .scoreTooLow ∧
          d.IsOutclassed worst g.tolerances := by
  unfold challenge
  cases c.reduceBy threshold g better with
  | none => exact .inl rfl
  | some reduced =>
    dsimp only
    by_cases hp : reduced.score.IsPending
    · simp [if_pos hp]
    · have hnone : ¬reduced.IsOutclassed none g.tolerances := id
      rw [if_neg hp, if_neg hp, if_neg hnone]
      by_cases ho : reduced.IsOutclassed worst g.tolerances
      · exact .inr ⟨reduced, rfl, if_pos ho, ho⟩
      · exact .inl (if_neg ho)

end RankedCut

namespace Ranking

/-- An insertion that compares no score with the worst one. -/
def insertUnpruned (threshold : K) (g : Settings K) (cuts : Ranking K) (row : Row K)
    (valuation : Valuation K) (capacity : Option Nat) : Except Rejection (Insertion K) :=
  if capacity = some 0 then .error .noCapacity
  else do
    let p ← place threshold g none (.ofValuation row g valuation) cuts
    .ok (ofPlacement threshold g p capacity)

def remaining (cuts : Ranking K) : Except Rejection (Insertion K) → Ranking K
  | .error _ => cuts
  | .ok i => i.cuts

/-- A candidate that is placed at all is placed below all cuts. -/
def RanksLast (cuts : Ranking K) (r : Except Rejection (Placement K)) : Prop :=
  ∀ p, r = .ok p → p.above = cuts ∧ p.below = []

theorem place_cons_of_error {worst : Option (Score K)} {c better : RankedCut K} {cuts : Ranking K}
    {r : Rejection} (hb : ¬c.IsBetterThan better g.tolerances)
    (h : c.challenge threshold g worst better = .error r) :
    place threshold g worst c (better :: cuts) = .error r := by
  rw [place, if_neg hb, h]
  rfl

theorem place_cons_of_ok {worst : Option (Score K)} {c better d : RankedCut K} {cuts : Ranking K}
    (hb : ¬c.IsBetterThan better g.tolerances)
    (h : c.challenge threshold g worst better = .ok d) :
    place threshold g worst c (better :: cuts) =
      (fun q => { q with above := better :: q.above }) <$> place threshold g worst d cuts := by
  rw [place, if_neg hb, h]
  simp only [bind, Except.bind]
  cases place threshold g worst d cuts <;> rfl

theorem RanksLast.cons {cuts : Ranking K} {r : Except Rejection (Placement K)}
    (h : RanksLast cuts r) (better : RankedCut K) :
    RanksLast (better :: cuts) ((fun q => { q with above := better :: q.above }) <$> r) := by
  intro p hp
  cases r with
  | error e => cases hp
  | ok q =>
    cases hp
    obtain ⟨habove, hbelow⟩ := h q rfl
    exact ⟨congrArg (better :: ·) habove, hbelow⟩

theorem remaining_of_ranksLast {c : RankedCut K} {cuts : Ranking K} {n : Nat}
    (hlast : RanksLast cuts (place threshold g none c cuts)) (hforced : ¬c.score.IsForced)
    (hn : n ≤ cuts.length) (hsettled : ∀ d ∈ cuts, d.score ≠ .pendingEviction) :
    cuts.remaining ((ofPlacement threshold g · (some n)) <$> place threshold g none c cuts) =
      cuts := by
  cases hp : place threshold g none c cuts with
  | error r => rfl
  | ok p =>
    obtain ⟨habove, hbelow⟩ := hlast p hp
    have hcand := (isForced_of_place hp).not.mpr hforced
    have hseated : seated threshold g p = cuts ++ [p.candidate] := by
      simp [seated, habove, hbelow, settle]
    have hkept : withinCapacity threshold g p (some n) = cuts := by
      have hn' : n < (seated threshold g p).length := by
        rw [hseated, List.length_append, List.length_singleton]
        omega
      rw [withinCapacity_eq_dropLast hcand hn' fun c hc => ?_, hseated, List.dropLast_concat]
      rw [hseated, List.getLast?_concat] at hc
      exact Option.some.inj hc ▸ hcand
    change (ofPlacement threshold g p (some n)).cuts = cuts
    rw [cuts_ofPlacement, hkept, withoutPendingTail_eq_self hsettled]

theorem insertUnpruned_eq {cuts : Ranking K} {row : Row K} {valuation : Valuation K}
    {capacity : Option Nat} (hc : capacity ≠ some 0) :
    cuts.insertUnpruned threshold g row valuation capacity =
      (ofPlacement threshold g · capacity) <$>
        place threshold g none (.ofValuation row g valuation) cuts := by
  rw [insertUnpruned, if_neg hc]
  cases place threshold g none (.ofValuation row g valuation) cuts <;> rfl

section Exact

variable [OrderedScalar K] (h0 : IsZero g.tolerances.epsilon) (hw : 0 ≤ g.orthogonalityWeight)

include h0 hw

theorem ranksLast_of_not_isBetterThan {worst : Option (Score K)} {c : RankedCut K}
    {cuts : Ranking K} (hc : c.Competes g) (hcuts : ∀ d ∈ cuts, d.score.IsFinite)
    (hnot : ∀ d ∈ cuts, ¬c.IsBetterThan d g.tolerances) :
    RanksLast cuts (place threshold g worst c cuts) := by
  induction cuts generalizing c with
  | nil =>
    intro p hp
    cases hp
    exact ⟨rfl, rfl⟩
  | cons better cuts ih =>
    rw [List.forall_mem_cons] at hcuts hnot
    cases hd : c.challenge threshold g worst better with
    | error r =>
      rw [place_cons_of_error hnot.1 hd]
      intro p hp
      cases hp
    | ok d =>
      rw [place_cons_of_ok hnot.1 hd]
      obtain ⟨rfl, -⟩ := RankedCut.eq_after_of_challenge hd
      refine (ih (hc.after better) hcuts.2 fun e he hb => hnot.2 e he ?_).cons better
      exact hc.isBetterThan_of_after hw h0 (hcuts.2 e he) hb

/-- The cuts above the last one score at least as much, so it is enough to be compared with that. -/
theorem ranksLast_of_isOutclassed {worst : Option (Score K)} {last c : RankedCut K}
    {cuts : Ranking K} (hc : c.Competes g)
    (ho : c.IsOutclassed (some last.score) g.tolerances) (hlast : last.score.IsFinite)
    (hcuts : ∀ d ∈ cuts, d.score.IsFinite) (hle : ∀ d ∈ cuts, last.score.AtMost d.score) :
    RanksLast cuts (place threshold g worst c cuts) :=
  ranksLast_of_not_isBetterThan h0 hw hc hcuts fun d hd hb =>
    ho (Score.IsBetterThan.mono h0 hb (hc.atMost_self hw) id (hle d hd) fun _ => hlast)

/-- The shortcut on the walk stops only candidates that would end up below all cuts. -/
theorem place_cases {last c : RankedCut K} {cuts : Ranking K} (hc : c.Competes g)
    (hlast : last.score.IsFinite) (hcuts : ∀ d ∈ cuts, d.score.IsFinite)
    (hle : ∀ d ∈ cuts, last.score.AtMost d.score) :
    place threshold g (some last.score) c cuts = place threshold g none c cuts ∨
      place threshold g (some last.score) c cuts = .error .scoreTooLow ∧
        RanksLast cuts (place threshold g none c cuts) := by
  induction cuts generalizing c with
  | nil => exact .inl rfl
  | cons better cuts ih =>
    rw [List.forall_mem_cons] at hcuts hle
    by_cases hb : c.IsBetterThan better g.tolerances
    · exact .inl (by rw [place, place, if_pos hb, if_pos hb])
    rcases RankedCut.challenge_cases threshold g (some last.score) c better with
      hsame | ⟨d, hd, hstop, ho⟩
    · cases hd : c.challenge threshold g none better with
      | error r =>
        exact .inl (by rw [place_cons_of_error hb hd, place_cons_of_error hb (hsame.trans hd)])
      | ok d =>
        rw [place_cons_of_ok hb hd, place_cons_of_ok hb (hsame.trans hd)]
        obtain ⟨rfl, -⟩ := RankedCut.eq_after_of_challenge hd
        rcases ih (hc.after better) hcuts.2 hle.2 with heq | ⟨hstop, hlow⟩
        · exact .inl (by rw [heq])
        · exact .inr ⟨by rw [hstop]; rfl, hlow.cons better⟩
    · rw [place_cons_of_error hb hstop, place_cons_of_ok hb hd]
      obtain ⟨rfl, -⟩ := RankedCut.eq_after_of_challenge hd
      exact .inr ⟨rfl, (ranksLast_of_isOutclassed h0 hw (hc.after better) ho hlast hcuts.2
        hle.2).cons better⟩

/-- The shortcuts change at most the reason for which a candidate does not stay. -/
theorem InOrder.insert_cases {cuts : Ranking K} (h : InOrder g cuts) {row : Row K}
    {valuation : Valuation K} (hc : (RankedCut.ofValuation row g valuation).Competes g)
    (capacity : Option Nat) :
    cuts.insert threshold g row valuation capacity =
        cuts.insertUnpruned threshold g row valuation capacity ∨
      ∃ r, cuts.insert threshold g row valuation capacity = .error r ∧
        cuts.remaining (cuts.insertUnpruned threshold g row valuation capacity) = cuts := by
  by_cases hcap : capacity = some 0
  · exact .inl (by rw [insert, insertUnpruned, if_pos hcap, if_pos hcap])
  rw [insert_eq_map_offer, offer, if_neg hcap, insertUnpruned_eq hcap]
  dsimp only
  generalize RankedCut.ofValuation row g valuation = c at hc ⊢
  rcases bar_cases cuts c capacity with hbar | ⟨n, last, rfl, hn, hlast, hbar, hforced⟩
  · have hnone : ¬c.IsOutclassed none g.tolerances := id
    exact .inl (by rw [hbar, if_neg hnone])
  have hfinite := h.finite last (List.mem_of_getLast? hlast)
  have hle := h.descending.last_atMost (Score.atMost_refl hfinite) hlast
  rw [hbar]
  split
  · rename_i ho
    exact .inr ⟨.scoreTooLow, rfl, remaining_of_ranksLast
      (ranksLast_of_isOutclassed h0 hw hc ho hfinite h.finite hle) hforced hn h.settled⟩
  · rcases place_cases h0 hw hc hfinite h.finite hle with heq | ⟨hstop, hlow⟩
    · exact .inl (by rw [heq])
    · exact .inr ⟨.scoreTooLow, by rw [hstop]; rfl,
        remaining_of_ranksLast hlow hforced hn h.settled⟩

/-- Without a tolerance the shortcuts change nothing: whatever led to a ranking with finite scores,
and whatever is offered to it, an insertion leaves the same cuts without them. A candidate that they
turn away is turned away in any case, or evicted as soon as it is inserted; one that they let pass
is inserted in the same way. -/
theorem remaining_insert {calls : List (Call K)} (hf : ∀ call ∈ calls, call.HasFactorNonneg)
    (hs : FiniteThroughout g calls) {cuts : Ranking K} (hr : run g calls = .ok cuts) (row : Row K)
    (valuation : Valuation K) (hv : valuation.HasFactorNonneg)
    (hfinite : (RankedCut.ofValuation row g valuation).score.IsFinite) (capacity : Option Nat)
    (threshold : K) :
    cuts.remaining (cuts.insert threshold g row valuation capacity) =
        cuts.remaining (cuts.insertUnpruned threshold g row valuation capacity) ∧
      ∀ i, cuts.insert threshold g row valuation capacity = .ok i →
        cuts.insertUnpruned threshold g row valuation capacity = .ok i := by
  obtain ⟨cuts', hr', hin⟩ := exists_inOrder_of_finite h0 hw hf hs
  obtain rfl : cuts = cuts' := Except.ok.inj (hr.symm.trans hr')
  rcases hin.insert_cases h0 hw (RankedCut.competes_ofValuation row hv hfinite) capacity with
    heq | ⟨r, hreject, hkept⟩
  · exact ⟨by rw [heq], fun i hi => heq.symm.trans hi⟩
  · refine ⟨by rw [hkept, hreject]; rfl, fun i hi => ?_⟩
    rw [hreject] at hi
    cases hi

end Exact

/-- A cut that beats the worst one until it is compared with `best`. -/
def lateLoser : Row Float := sampleRow "late" 5 [0, 1]

def rejection {α : Type} : Except Rejection α → Option Rejection
  | .error r => some r
  | .ok _ => none

theorem remaining_lateLoser :
    ∃ cuts i, run sharp sunkenCalls = .ok cuts ∧
      cuts.insert 0.1 sharp lateLoser (.scored 1 1) (some 4) = .error .scoreTooLow ∧
      cuts.insertUnpruned 0.1 sharp lateLoser (.scored 1 1) (some 4) = .ok i ∧ i.cuts = cuts := by
  have hreasons : (run sharp sunkenCalls).map (fun cuts =>
      (rejection (cuts.insert 0.1 sharp lateLoser (.scored 1 1) (some 4)),
        rejection (cuts.insertUnpruned 0.1 sharp lateLoser (.scored 1 1) (some 4)))) =
      .ok (some .scoreTooLow, none) := by decide +kernel
  cases hr : run sharp sunkenCalls with
  | error f =>
    rw [hr] at hreasons
    cases hreasons
  | ok cuts =>
    have hsame := (remaining_insert (g := sharp) (by decide +kernel) (by decide +kernel)
      (by decide +kernel) (by decide +kernel) hr lateLoser (.scored 1 1)
      (by decide +kernel) (by decide +kernel) (some 4) 0.1).1
    rw [hr] at hreasons
    obtain ⟨hfast, hplain⟩ := Prod.mk.inj (Except.ok.inj hreasons)
    cases hi : cuts.insert 0.1 sharp lateLoser (.scored 1 1) (some 4) with
    | ok i => simp [hi, rejection] at hfast
    | error r =>
      rw [hi] at hfast hsame
      cases hu : cuts.insertUnpruned 0.1 sharp lateLoser (.scored 1 1) (some 4) with
      | error r => simp [hu, rejection] at hplain
      | ok i =>
        rw [hu] at hsame
        exact ⟨cuts, i, rfl, by rw [hi, Option.some.inj hfast], hu, hsame.symm⟩

end Ranking
end CutSelection
