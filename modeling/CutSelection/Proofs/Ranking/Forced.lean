import CutSelection.Proofs.Ranking.Diversity

/-!
Forced cuts. They stand above all other cuts, in the order of their submission, and stay until the
ranking is drained. This needs no order of the scalars: a forced cut is told from the others by its
tag, so it does not matter what their scores are, or whether these are numbers at all.
-/

namespace CutSelection

variable {K : Type} [Scalar K] {threshold : K} {g : Settings K}

theorem RankedCut.challenge_of_forced {c : RankedCut K} (hc : c.score = .forced)
    (worst : Option (Score K)) (better : RankedCut K) :
    c.challenge threshold g worst better = .ok c := by
  rw [challenge, reduceBy, reduce_of_forced hc]

namespace Ranking

theorem withoutPendingTail_append_of_settled {top : Ranking K}
    (htop : ∀ c ∈ top, c.score ≠ .pendingEviction) (rest : Ranking K) :
    withoutPendingTail (top ++ rest) = top ++ withoutPendingTail rest := by
  induction rest using List.reverseRecOn with
  | nil => simpa [withoutPendingTail] using withoutPendingTail_eq_self htop
  | append_singleton rest last ih =>
    rw [← List.append_assoc, withoutPendingTail_concat, withoutPendingTail_concat, ih]
    split
    · rfl
    · rw [List.append_assoc]

theorem not_isForced_of_mem_settle {inserted : RankedCut K} {cuts : Ranking K}
    (h : ∀ c ∈ cuts, ¬c.score.IsForced) :
    ∀ d ∈ (settle threshold g inserted cuts).cuts, ¬d.score.IsForced :=
  forall_mem_settle (fun _ _ hc _ => RankedCut.isForced_after_iff.not.mpr hc) fun c hc =>
    RankedCut.isForced_after_iff.not.mpr (h c hc)

section Walk

variable {worst : Option (Score K)} {c : RankedCut K} {top rest : Ranking K}
  (htop : ∀ d ∈ top, d.score.IsForced)

include htop

variable (threshold g worst) in
theorem place_of_forced (hc : c.score = .forced) (hrest : ∀ d ∈ rest, ¬d.score.IsForced) :
    place threshold g worst c (top ++ rest) = .ok ⟨top, c, rest⟩ := by
  induction top with
  | nil =>
    cases rest with
    | nil => rfl
    | cons next rest =>
      have hnext : ¬next.score.IsForced := hrest next (by simp)
      have hb : c.IsBetterThan next g.tolerances := by
        rw [RankedCut.IsBetterThan, hc, Score.forced_isBetterThan]
        simpa using hnext
      exact place_cons_eq_ok.mpr (.inl ⟨hb, rfl⟩)
  | cons better top ih =>
    rw [List.forall_mem_cons, Score.isForced_iff] at htop
    refine place_cons_eq_ok.mpr (.inr ⟨?_, c, _, c.challenge_of_forced hc worst better,
      ih htop.2, rfl⟩)
    rw [RankedCut.IsBetterThan, htop.1]
    exact Score.not_isBetterThan_forced _ _

/-- No candidate ranks above a forced cut. -/
theorem exists_passed_of_place {p : Placement K}
    (h : place threshold g worst c (top ++ rest) = .ok p) :
    ∃ passed, p.above = top ++ passed ∧ passed ++ p.below = rest := by
  induction top generalizing c p with
  | nil => exact ⟨p.above, rfl, above_append_below threshold g h⟩
  | cons better top ih =>
    rw [List.forall_mem_cons, Score.isForced_iff] at htop
    rcases place_cons_eq_ok.mp h with ⟨hb, -⟩ | ⟨-, d, q, -, hq, rfl⟩
    · rw [RankedCut.IsBetterThan, htop.1] at hb
      exact absurd hb (Score.not_isBetterThan_forced _ _)
    · obtain ⟨passed, habove, hbelow⟩ := ih htop.2 hq
      exact ⟨passed, congrArg (better :: ·) habove, hbelow⟩

theorem exists_seated_of_scored {p : Placement K} (hc : ¬c.score.IsForced)
    (hrest : ∀ d ∈ rest, ¬d.score.IsForced)
    (h : place threshold g worst c (top ++ rest) = .ok p) :
    ∃ tail, tail ≠ [] ∧ seated threshold g p = top ++ tail ∧ ∀ d ∈ tail, ¬d.score.IsForced := by
  obtain ⟨passed, habove, hbelow⟩ := exists_passed_of_place htop h
  rw [← hbelow, List.forall_mem_append] at hrest
  refine ⟨passed ++ p.candidate :: (settle threshold g p.candidate p.below).cuts, by simp, ?_, ?_⟩
  · rw [seated, habove, List.append_assoc]
  · exact List.forall_mem_append.mpr ⟨hrest.1, List.forall_mem_cons.mpr
      ⟨(isForced_of_place h).not.mpr hc, not_isForced_of_mem_settle hrest.2⟩⟩

end Walk

/-- Forced cuts of the given rows, in this order, and below them no other forced cut. -/
def ForcedFirst (rows : List (Row K)) (cuts : Ranking K) : Prop :=
  ∃ top rest : Ranking K, cuts = top ++ rest ∧ top.map (·.row) = rows ∧
    (∀ c ∈ top, c.score.IsForced) ∧ ∀ c ∈ rest, ¬c.score.IsForced

theorem forcedFirst_nil : ForcedFirst ([] : List (Row K)) [] := ⟨[], [], by simp⟩

theorem forcedFirst_withoutPendingTail {top rest : Ranking K}
    (htop : ∀ c ∈ top, c.score.IsForced) (hrest : ∀ c ∈ rest, ¬c.score.IsForced) :
    ForcedFirst (top.map (·.row)) (withoutPendingTail (top ++ rest)) := by
  refine ⟨top, withoutPendingTail rest, withoutPendingTail_append_of_settled (fun c hc => ?_) rest,
    rfl, htop, fun c hc => hrest c ((withoutPendingTail_top rest).subset hc)⟩
  simp [(Score.isForced_iff _).mp (htop c hc)]

section Offer

variable {rows : List (Row K)} {cuts : Ranking K} (h : ForcedFirst rows cuts) {row : Row K}
  {capacity : Option Nat}

include h

variable (threshold g row) in
theorem ForcedFirst.exists_offer_of_forced (hcap : capacity ≠ some 0) :
    ∃ p, cuts.offer threshold g row .forced capacity = .ok p ∧
      ForcedFirst (rows ++ [row]) (ofPlacement threshold g p capacity).cuts := by
  obtain ⟨top, rest, rfl, rfl, htop, hrest⟩ := h
  let c := RankedCut.ofValuation row g .forced
  let p : Placement K := ⟨top, c, rest⟩
  have hplace : place threshold g none c (top ++ rest) = .ok p :=
    place_of_forced threshold g none htop rfl hrest
  refine ⟨p, (offer_eq_ok threshold g).mpr ⟨hcap, id, hplace⟩, ?_⟩
  have hkept : withinCapacity threshold g p capacity = seated threshold g p :=
    withinCapacity_eq_seated fun hc => absurd rfl hc
  have hseated : seated threshold g p = (top ++ [c]) ++ (settle threshold g c rest).cuts := by
    simp [seated, p]
  have hforced : ∀ d ∈ top ++ [c], d.score.IsForced :=
    List.forall_mem_append.mpr ⟨htop, by simp [c, RankedCut.ofValuation]⟩
  have hsettled : ∀ d ∈ (settle threshold g c rest).cuts, ¬d.score.IsForced :=
    not_isForced_of_mem_settle hrest
  rw [cuts_ofPlacement, hkept, hseated]
  simpa [c] using forcedFirst_withoutPendingTail hforced hsettled

theorem ForcedFirst.ofPlacement_of_scored {efficacy scorefactor : K} {p : Placement K}
    (ho : cuts.offer threshold g row (.scored efficacy scorefactor) capacity = .ok p) :
    ForcedFirst rows (ofPlacement threshold g p capacity).cuts := by
  obtain ⟨top, rest, rfl, rfl, htop, hrest⟩ := h
  obtain ⟨tail, hne, hseated, htail⟩ := exists_seated_of_scored htop
    (by simp [RankedCut.ofValuation]) hrest (place_of_offer _ _ ho)
  rw [cuts_ofPlacement]
  rcases withinCapacity_cases threshold g p capacity with hkept | hkept
  · rw [hkept, hseated, List.dropLast_append_of_ne_nil hne]
    exact forcedFirst_withoutPendingTail htop fun d hd => htail d (List.mem_of_mem_dropLast hd)
  · rw [hkept, hseated]
    exact forcedFirst_withoutPendingTail htop htail

end Offer

/-- The rows of the forced insertions that are given room, in the order of the calls. -/
def forcedRows (calls : List (Call K)) : List (Row K) :=
  calls.filterMap fun
    | .insert row .forced capacity _ => if capacity = some 0 then none else some row
    | _ => none

theorem ForcedFirst.of_perform {rows : List (Row K)} {cuts after : Ranking K}
    (h : ForcedFirst rows cuts) {row : Row K} {valuation : Valuation K} {capacity : Option Nat}
    (hp : perform g cuts (.insert row valuation capacity threshold) = .ok after) :
    ForcedFirst (rows ++ forcedRows [.insert row valuation capacity threshold]) after := by
  rcases perform_insert_eq_ok hp with ⟨rfl, r, ho⟩ | ⟨p, ho, rfl, -⟩
  · cases valuation with
    | scored efficacy scorefactor => simpa [forcedRows] using h
    | forced =>
      by_cases hcap : capacity = some 0
      · simpa [forcedRows, hcap] using h
      · obtain ⟨p, hok, -⟩ := h.exists_offer_of_forced threshold g row hcap
        rw [ho] at hok
        cases hok
  · cases valuation with
    | scored efficacy scorefactor => simpa [forcedRows] using h.ofPlacement_of_scored ho
    | forced =>
      have hcap := ((offer_eq_ok threshold g).mp ho).1
      obtain ⟨q, hok, hfirst⟩ := h.exists_offer_of_forced threshold g row hcap
      obtain rfl : p = q := Except.ok.inj (ho.symm.trans hok)
      simpa [forcedRows, hcap] using hfirst

theorem forcedFirst_of_run {calls : List (Call K)} {cuts : Ranking K}
    (h : run g calls = .ok cuts) : ForcedFirst (forcedRows (round calls)) cuts := by
  refine run_induction (P := fun since cuts => ForcedFirst (forcedRows since) cuts)
    forcedFirst_nil (fun row valuation capacity threshold ih hp => ?_) h
  rw [forcedRows, List.filterMap_append]
  exact ih.of_perform hp

/-- Forced cuts are permanent: after any sequence of calls the ranking begins with the rows of the
forced insertions since the last drain, in the order of their submission and as often as they were
submitted, and all other cuts come after them. Only a forced cut that is given no room is rejected.
The values of the scored cuts do not matter, even if they are no numbers. -/
theorem forced_first_of_run {calls : List (Call K)} {cuts : Ranking K}
    (h : run g calls = .ok cuts) :
    (∃ top rest : Ranking K, cuts = top ++ rest ∧ top.map (·.row) = forcedRows (round calls) ∧
      (∀ c ∈ top, c.score.IsForced) ∧ ∀ c ∈ rest, ¬c.score.IsForced) ∧
      ∀ row capacity threshold r, cuts.insert threshold g row .forced capacity = .error r ↔
        capacity = some 0 ∧ r = .noCapacity := by
  have hfirst := forcedFirst_of_run h
  refine ⟨hfirst, fun row capacity threshold r => ?_⟩
  rw [insert_eq_map_offer]
  by_cases hcap : capacity = some 0
  · simp [offer, hcap, Functor.map, Except.map, eq_comm]
  · obtain ⟨p, ho, -⟩ := hfirst.exists_offer_of_forced threshold g row hcap
    simp [ho, hcap, Functor.map, Except.map]

/-- The scores of the second and the fifth cut are not numbers, and the third one is parallel to
the second. -/
def unruly : List (Call Float) :=
  [.insert (sampleRow "drained" 0 [0]) .forced none 0.5,
    .drain,
    .insert (sampleRow "undefined" 1 [1, 2]) (.scored (0 / 0) 1) (some 2) 0.5,
    .insert (sampleRow "upper" 2 [1, 2]) .forced (some 1) 0.5,
    .insert (sampleRow "unwanted" 3 [3]) .forced (some 0) 0.5,
    .insert (sampleRow "scored" 4 [4]) (.scored (0 / 0) 1) (some 3) 0.5,
    .insert (sampleRow "upper" 2 [1, 2]) .forced none 0.5,
    .insert (sampleRow "lower" 5 [0]) .forced none 0.5]

theorem forced_first_unruly :
    ∃ cuts, run .standard unruly = .ok cuts ∧
      (∃ top rest : Ranking Float, cuts = top ++ rest ∧
        top.map (·.row.name) = ["upper", "upper", "lower"] ∧ ∀ c ∈ rest, ¬c.score.IsForced) ∧
      cuts.insert 0.5 .standard (sampleRow "unwanted" 3 [3]) .forced (some 0) =
        .error .noCapacity := by
  have hnames : (forcedRows (round unruly)).map (·.name) = ["upper", "upper", "lower"] := by
    decide +kernel
  have hok : (run .standard unruly).toBool = true := by decide +kernel
  cases h : run .standard unruly with
  | error f =>
    rw [h] at hok
    cases hok
  | ok cuts =>
    obtain ⟨⟨top, rest, hcuts, hrows, -, hrest⟩, hrejected⟩ := forced_first_of_run h
    refine ⟨cuts, rfl, ⟨top, rest, hcuts, ?_, hrest⟩, (hrejected _ _ _ _).mpr ⟨rfl, rfl⟩⟩
    rw [← hnames, ← hrows, List.map_map]
    rfl

end Ranking
end CutSelection
