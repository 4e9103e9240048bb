import CutSelection.Event
import CutSelection.Proofs.Ranking.Calls

/-!
Rankings with their rows exchanged. A ranking looks at its rows only to compare their directions, so
if rows are exchanged for others that stand at the same angles to each other, everything that
happens to the one ranking happens to the other one.
-/

namespace CutSelection

/-- Rows exchanged for others of the same names, numbers and lengths that stand at the same angles.
-/
structure Relabelling (K : Type) [Scalar K] where
  row : Row K → Row K
  name_row : ∀ r, (row r).name = r.name
  number_row : ∀ r, (row r).number = r.number
  length_row : ∀ r, (row r).coefficients.length = r.coefficients.length
  orthogonality_row : ∀ r q, (row r).orthogonality (row q).toCut = r.orthogonality q.toCut

variable {K : Type} [Scalar K] (ρ : Relabelling K)

def RankedCut.relabel (c : RankedCut K) : RankedCut K := { c with row := ρ.row c.row }

def Ranking.relabel (cuts : Ranking K) : Ranking K := cuts.map (RankedCut.relabel ρ)

def Clash.relabel (c : Clash K) : Clash K := ⟨ρ.row c.cut, ρ.row c.better, c.orthogonality⟩

def Placement.relabel (p : Placement K) : Placement K :=
  ⟨p.above.relabel ρ, p.candidate.relabel ρ, p.below.relabel ρ⟩

def Settled.relabel (s : Settled K) : Settled K :=
  ⟨s.cuts.relabel ρ, s.clashes.map (Clash.relabel ρ)⟩

def Insertion.relabel (i : Insertion K) : Insertion K :=
  ⟨i.position, i.cuts.relabel ρ, i.clashes.map (Clash.relabel ρ), i.capacity,
    i.overflow.map (RankedCut.relabel ρ), i.trimmed.map (RankedCut.relabel ρ)⟩

namespace RankedCut

variable {ρ} {threshold : K} {g : Settings K} (c better : RankedCut K)

@[simp] theorem score_relabel : (c.relabel ρ).score = c.score := rfl

theorem reduceBy_relabel : (c.relabel ρ).reduceBy threshold g (better.relabel ρ) =
    (c.reduceBy threshold g better).map (relabel ρ) := by
  have horthogonality := ρ.orthogonality_row c.row better.row
  simp only [reduceBy, relabel, horthogonality, reduce]
  cases c.score <;> cases c.efficacy <;> try rfl
  dsimp only
  split <;> rfl

theorem comparedWith_relabel : (c.relabel ρ).comparedWith threshold g (better.relabel ρ) =
    ((c.comparedWith threshold g better).1.relabel ρ,
      (c.comparedWith threshold g better).2.map (Clash.relabel ρ)) := by
  rw [comparedWith, comparedWith, reduceBy_relabel]
  cases c.reduceBy threshold g better with
  | none => rfl
  | some d =>
    by_cases hp : d.score.IsPending
    · simp only [Option.map_some, score_relabel, hp, if_true]
      rfl
    · simp only [Option.map_some, score_relabel, hp, if_false]
      rfl

theorem challenge_relabel (worst : Option (Score K)) :
    (c.relabel ρ).challenge threshold g worst (better.relabel ρ) =
      relabel ρ <$> c.challenge threshold g worst better := by
  rw [challenge, challenge, reduceBy_relabel]
  cases c.reduceBy threshold g better with
  | none => rfl
  | some d =>
    have ho : (d.relabel ρ).IsOutclassed worst g.tolerances ↔ d.IsOutclassed worst g.tolerances :=
      .rfl
    by_cases hp : d.score.IsPending
    · simp only [Option.map_some, score_relabel, hp, if_true]
      rfl
    · by_cases hd : d.IsOutclassed worst g.tolerances
      · simp only [Option.map_some, score_relabel, hp, if_false, ho, hd, if_true]
        rfl
      · simp only [Option.map_some, score_relabel, hp, if_false, ho, hd]
        rfl

end RankedCut

namespace Ranking

variable {ρ} {threshold : K} {g : Settings K} (cuts : Ranking K)

@[simp] theorem length_relabel : (cuts.relabel ρ).length = cuts.length := List.length_map _

theorem relabel_cons (c : RankedCut K) :
    relabel ρ (c :: cuts) = c.relabel ρ :: cuts.relabel ρ := rfl

theorem relabel_append (others : Ranking K) :
    relabel ρ (cuts ++ others) = cuts.relabel ρ ++ others.relabel ρ := List.map_append

theorem place_relabel (worst : Option (Score K)) (c : RankedCut K) :
    place threshold g worst (c.relabel ρ) (cuts.relabel ρ) =
      Placement.relabel ρ <$> place threshold g worst c cuts := by
  induction cuts generalizing c with
  | nil => rfl
  | cons better cuts ih =>
    rw [relabel_cons, place, place]
    have hbetter : (c.relabel ρ).IsBetterThan (better.relabel ρ) g.tolerances ↔
        c.IsBetterThan better g.tolerances := .rfl
    by_cases h : c.IsBetterThan better g.tolerances
    · rw [if_pos (hbetter.mpr h), if_pos h]
      rfl
    · rw [if_neg (hbetter.not.mpr h), if_neg h, RankedCut.challenge_relabel]
      cases c.challenge threshold g worst better with
      | error r => rfl
      | ok d =>
        simp only [Functor.map, Except.map, bind, Except.bind, ih]
        cases place threshold g worst d cuts <;> rfl

theorem sink_relabel (c : RankedCut K) :
    sink threshold g (c.relabel ρ) (cuts.relabel ρ) = (sink threshold g c cuts).relabel ρ := by
  induction cuts generalizing c with
  | nil => rfl
  | cons next cuts ih =>
    rw [relabel_cons, sink, sink]
    have hbetter : (next.relabel ρ).IsBetterThan (c.relabel ρ) g.tolerances ↔
        next.IsBetterThan c g.tolerances := .rfl
    by_cases h : next.IsBetterThan c g.tolerances
    · rw [if_pos (hbetter.mpr h), if_pos h]
      simp only [RankedCut.comparedWith_relabel, ih, Settled.relabel, relabel_cons, List.map_append]
    · rw [if_neg (hbetter.not.mpr h), if_neg h]
      rfl

theorem settle_relabel (inserted : RankedCut K) :
    settle threshold g (inserted.relabel ρ) (cuts.relabel ρ) =
      (settle threshold g inserted cuts).relabel ρ := by
  induction cuts with
  | nil => rfl
  | cons c cuts ih =>
    rw [relabel_cons, settle, settle, ih]
    simp only [RankedCut.comparedWith_relabel, Settled.relabel, sink_relabel, List.map_append]

theorem worst_relabel (capacity : Option Nat) :
    (cuts.relabel ρ).worst capacity = cuts.worst capacity := by
  cases capacity with
  | none => rfl
  | some n =>
    rw [worst, worst, length_relabel, relabel, List.getLast?_map, Option.map_map]
    rfl

theorem overflow_relabel (capacity : Option Nat) :
    overflow (cuts.relabel ρ) capacity = (overflow cuts capacity).map (RankedCut.relabel ρ) := by
  cases capacity with
  | none => rfl
  | some n =>
    rw [overflow, overflow, length_relabel, relabel, List.getLast?_map]
    split
    · exact Option.filter_map
    · rfl

theorem pendingTail_relabel :
    pendingTail (cuts.relabel ρ) = (pendingTail cuts).map (RankedCut.relabel ρ) := by
  rw [pendingTail, pendingTail, relabel, ← List.map_reverse, List.takeWhile_map]
  rfl

theorem withoutPendingTail_relabel :
    withoutPendingTail (cuts.relabel ρ) = (withoutPendingTail cuts).relabel ρ := by
  rw [withoutPendingTail, withoutPendingTail, relabel, ← List.map_reverse, List.dropWhile_map,
    ← List.map_reverse]
  rfl

theorem sorted_relabel_iff (t : Tolerances K) : Sorted t (cuts.relabel ρ) ↔ Sorted t cuts := by
  induction cuts with
  | nil => rfl
  | cons c cuts ih =>
    cases cuts with
    | nil => rfl
    | cons next cuts => exact and_congr .rfl ih

theorem fault_relabel (t : Tolerances K) : (cuts.relabel ρ).fault t = cuts.fault t := by
  rw [fault, fault, if_congr (cuts.sorted_relabel_iff t) rfl rfl]

theorem dropLast_relabel : List.dropLast (cuts.relabel ρ) = relabel ρ (List.dropLast cuts) :=
  List.map_dropLast.symm

theorem ofPlacement_relabel (p : Placement K) (capacity : Option Nat) :
    ofPlacement threshold g (p.relabel ρ) capacity =
      (ofPlacement threshold g p capacity).relabel ρ := by
  let seated := p.above ++ p.candidate :: (settle threshold g p.candidate p.below).cuts
  let last := if p.candidate.score.IsForced then none else overflow seated capacity
  let kept := if last.isSome then seated.dropLast else seated
  have hsettled : settle threshold g (p.relabel ρ).candidate (p.relabel ρ).below =
      (settle threshold g p.candidate p.below).relabel ρ := settle_relabel p.below p.candidate
  have hseated : (p.relabel ρ).above ++ (p.relabel ρ).candidate ::
      ((settle threshold g p.candidate p.below).relabel ρ).cuts = relabel ρ seated := by
    rw [relabel_append, relabel_cons]
    rfl
  have hlast : (if (p.relabel ρ).candidate.score.IsForced then none
      else overflow (relabel ρ seated) capacity) = last.map (RankedCut.relabel ρ) := by
    rw [overflow_relabel]
    by_cases hf : p.candidate.score.IsForced
    · exact (if_pos hf).trans (by simp only [last, if_pos hf, Option.map_none])
    · exact (if_neg hf).trans (by simp only [last, if_neg hf])
  have hkept : (if (last.map (RankedCut.relabel ρ)).isSome then List.dropLast (relabel ρ seated)
      else relabel ρ seated) = relabel ρ kept := by
    rw [Option.isSome_map, dropLast_relabel]
    split <;> simp only [kept, *] <;> rfl
  rw [ofPlacement, ofPlacement, hsettled, hseated]
  simp only [hlast, hkept, withoutPendingTail_relabel, pendingTail_relabel]
  rw [show List.length (p.relabel ρ).above = p.above.length from length_relabel p.above]
  rfl

/-- Insertions into rankings that correspond have the same outcome, and leave rankings that
correspond. -/
theorem insert_relabel (row : Row K) (valuation : Valuation K) (capacity : Option Nat) :
    (cuts.relabel ρ).insert threshold g (ρ.row row) valuation capacity =
      Insertion.relabel ρ <$> cuts.insert threshold g row valuation capacity := by
  have hcandidate : RankedCut.ofValuation (ρ.row row) g valuation =
      (RankedCut.ofValuation row g valuation).relabel ρ := by cases valuation <;> rfl
  have hoffer : (cuts.relabel ρ).offer threshold g (ρ.row row) valuation capacity =
      Placement.relabel ρ <$> cuts.offer threshold g row valuation capacity := by
    have hbar : (cuts.relabel ρ).bar ((RankedCut.ofValuation row g valuation).relabel ρ) capacity =
        cuts.bar (RankedCut.ofValuation row g valuation) capacity := by
      simp only [bar, worst_relabel, RankedCut.score_relabel]
    have houtclassed :
        ((RankedCut.ofValuation row g valuation).relabel ρ).IsOutclassed
          (cuts.bar (RankedCut.ofValuation row g valuation) capacity) g.tolerances ↔
        (RankedCut.ofValuation row g valuation).IsOutclassed
          (cuts.bar (RankedCut.ofValuation row g valuation) capacity) g.tolerances := .rfl
    simp only [offer, hcandidate, hbar, place_relabel]
    by_cases hc : capacity = some 0
    · simp only [if_pos hc]
      rfl
    · by_cases ho : (RankedCut.ofValuation row g valuation).IsOutclassed
          (cuts.bar (RankedCut.ofValuation row g valuation) capacity) g.tolerances
      · simp only [if_neg hc, if_pos (houtclassed.mpr ho), if_pos ho]
        rfl
      · simp only [if_neg hc, if_neg (houtclassed.not.mpr ho), if_neg ho]
  rw [insert_eq_map_offer, insert_eq_map_offer, hoffer]
  cases cuts.offer threshold g row valuation capacity with
  | error r => rfl
  | ok p => exact congrArg _ (ofPlacement_relabel p capacity)

end Ranking

variable {ρ} in
theorem Insertion.events_relabel (i : Insertion K) : (i.relabel ρ).events = i.events := by
  have hclash : ∀ c ∈ i.clashes, (Clash.event ∘ Clash.relabel ρ) c = c.event := fun c _ => by
    simp only [Function.comp_apply, Clash.event, Clash.relabel, ρ.name_row]
  have htrimmed : ∀ c ∈ i.trimmed,
      ((fun c : RankedCut K => Event.evictedAsParallel c.row.name c.orthogonality) ∘
        RankedCut.relabel ρ) c = .evictedAsParallel c.row.name c.orthogonality := fun c _ => by
    simp only [Function.comp_apply, RankedCut.relabel, ρ.name_row]
  simp only [events, relabel, List.map_map, List.map_congr_left hclash,
    List.map_congr_left htrimmed]
  cases i.overflow with
  | none => rfl
  | some c =>
    cases i.capacity with
    | none => rfl
    | some n => simp only [Option.map_some, RankedCut.relabel, ρ.name_row]

end CutSelection
