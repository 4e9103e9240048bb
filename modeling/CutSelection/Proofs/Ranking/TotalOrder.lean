import CutSelection.Proofs.Ranking.Order
import CutSelection.Proofs.Ranking.Records

/-!
The order of a ranking without a tolerance. As long as no score overflows, scores are compared
exactly, so that sorting out neighbours puts the whole ranking in order: every comparison only
lowers the score of the cut that is ranked below, and a candidate ranks below all cuts that tie with
it.
-/

namespace CutSelection

open Scalar

variable {K : Type} [Scalar K] {threshold : K} {g : Settings K}

namespace RankedCut

@[simp] theorem scorefactor_after (c better : RankedCut K) :
    (c.after threshold g better).scorefactor = c.scorefactor :=
  (submission_eq_iff.mp (submission_after c better)).2.2

variable [OrderedScalar K]

/-- A cut that ranks by the score of its recorded values. Its score factor is not negative, and the
score that it was submitted with is finite. -/
structure Competes (g : Settings K) (c : RankedCut K) : Prop where
  recorded : c.IsRecorded g fun _ => True
  nonneg : ∀ e, c.efficacy = some e → 0 ≤ c.scorefactor
  bounded : ∀ e, c.efficacy = some e → OrderedScalar.IsFinite (g.score c.scorefactor e 1)

theorem competes_ofValuation (row : Row K) {valuation : Valuation K}
    (hf : valuation.HasFactorNonneg) (hs : (ofValuation row g valuation).score.IsFinite) :
    (ofValuation row g valuation).Competes g := by
  refine ⟨isRecorded_ofValuation trivial valuation, fun e he => ?_, fun e he => ?_⟩
  · cases valuation <;> cases he
    exact hf
  · cases valuation <;> cases he
    exact hs

theorem Competes.after {c : RankedCut K} (h : c.Competes g) (better : RankedCut K) :
    (c.after threshold g better).Competes g :=
  ⟨h.recorded.after trivial, by simpa using h.nonneg, by simpa using h.bounded⟩

theorem Competes.score_eq {c : RankedCut K} (h : c.Competes g) {v e : K} (hv : c.score = .finite v)
    (he : c.efficacy = some e) : v = g.score c.scorefactor e c.orthogonality := by
  rcases h.recorded.values with ⟨hs, -⟩ | ⟨e', he', hs | hs, -⟩
  · cases hv.symm.trans hs
  · cases hv.symm.trans hs
  · cases he.symm.trans he'
    exact Score.finite.inj (hv.symm.trans hs)

section Weight

variable (hw : 0 ≤ g.orthogonalityWeight) {c : RankedCut K} (h : c.Competes g)

include hw h

theorem Competes.atMost_self : c.score.AtMost c.score := by
  obtain ⟨ho0, ho1⟩ := h.recorded.orthogonality_bounds
  rcases h.recorded.values with ⟨hs, -⟩ | ⟨e, he, hs | hs, -⟩ <;> rw [hs]
  · exact Score.atMost_forced _
  · exact Score.pendingEviction_atMost _
  · exact (Score.finite_atMost_finite _ _).mpr (g.score_mono hw (h.nonneg e he) (h.bounded e he)
      ho0 (OrderedScalar.le_refl h.recorded.isFinite_orthogonality) ho1)

theorem Competes.atMost_after (better : RankedCut K) :
    (c.after threshold g better).score.AtMost c.score := by
  rcases after_cases threshold g c better with ⟨ha, -⟩ | ⟨v, e, hv, he, ho, ha⟩
  · rw [ha]
    exact h.atMost_self hw
  · rw [ha, hv, h.score_eq hv he]
    dsimp only
    split
    · exact Score.pendingEviction_atMost _
    · exact (Score.finite_atMost_finite _ _).mpr (g.score_mono hw (h.nonneg e he) (h.bounded e he)
        (Cut.orthogonality_nonneg _ _) (h.recorded.orthogonality_le ho)
        h.recorded.orthogonality_bounds.2)

/-- What overflows does so for good. -/
theorem Competes.isFinite_of_after {better : RankedCut K}
    (hp : (c.after threshold g better).score ≠ .pendingEviction)
    (hf : (c.after threshold g better).score.IsFinite) : c.score.IsFinite := by
  rcases after_cases threshold g c better with ⟨ha, -⟩ | ⟨v, e, hv, he, ho, ha⟩
  · rwa [ha] at hf
  · rw [ha] at hp hf
    dsimp only at hp hf
    split at hf
    · rename_i hlt
      simp [hlt] at hp
    · rw [hv, h.score_eq hv he]
      exact g.isFinite_score hw (h.nonneg e he) (h.bounded e he) (Cut.orthogonality_nonneg _ _)
        (h.recorded.orthogonality_le ho) h.recorded.orthogonality_bounds.2 hf

theorem Competes.isBetterThan_of_after (h0 : IsZero g.tolerances.epsilon) {better d : RankedCut K}
    (hd : d.score.IsFinite) (hb : (c.after threshold g better).IsBetterThan d g.tolerances) :
    c.IsBetterThan d g.tolerances := by
  have hp : (c.after threshold g better).score ≠ .pendingEviction := not_pending_of_isBetterThan hb
  exact Score.IsBetterThan.mono h0 hb (h.atMost_after hw better) (h.isFinite_of_after hw hp)
    (Score.atMost_refl hd) id

end Weight

end RankedCut

namespace Ranking

def Descending (cuts : Ranking K) : Prop :=
  cuts.Pairwise fun above c => c.score.AtMost above.score

theorem Descending.sorted [OrderedScalar K] {t : Tolerances K} (h0 : IsZero t.epsilon)
    {cuts : Ranking K} (h : Descending cuts) : Sorted t cuts :=
  sorted_iff_isChain.mpr (h.isChain.imp fun _ _ hle hb => Score.not_atMost_of_isBetterThan h0 hb hle)

theorem Descending.last_atMost {cuts : Ranking K} (h : Descending cuts) {last : RankedCut K}
    (hl : last.score.AtMost last.score) (hlast : cuts.getLast? = some last) :
    ∀ c ∈ cuts, last.score.AtMost c.score := by
  obtain ⟨rest, rfl⟩ := List.getLast?_eq_some_iff.mp hlast
  intro c hc
  rcases List.mem_append.mp hc with hc | hc
  · exact (List.pairwise_append.mp h).2.2 c hc last (by simp)
  · rw [List.mem_singleton.mp hc]
    exact hl

theorem mem_sink_of_mem {c d : RankedCut K} {cuts : Ranking K} (h : d ∈ cuts) :
    d ∈ (sink threshold g c cuts).cuts := by
  induction cuts generalizing c with
  | nil => cases h
  | cons next cuts ih =>
    rw [sink_cons]
    split
    · rcases List.mem_cons.mp h with rfl | h
      · exact List.mem_cons_self
      · exact List.mem_cons_of_mem _ (ih h)
    · exact List.mem_cons_of_mem _ h

variable [OrderedScalar K]

/-- What an insertion leaves: cuts in the order of their scores, none of which overflowed. -/
structure InOrder (g : Settings K) (cuts : Ranking K) : Prop where
  descending : Descending cuts
  competes : ∀ c ∈ cuts, c.Competes g
  finite : ∀ c ∈ cuts, c.score.IsFinite
  settled : ∀ c ∈ cuts, c.score ≠ .pendingEviction

theorem inOrder_nil : InOrder g [] := ⟨.nil, by simp, by simp, by simp⟩

theorem competes_of_mem_settle (inserted : RankedCut K) {cuts : Ranking K}
    (hc : ∀ c ∈ cuts, c.Competes g) :
    ∀ c ∈ (settle threshold g inserted cuts).cuts, c.Competes g :=
  forall_mem_settle (fun _ better hc _ => hc.after better) fun c hm => (hc c hm).after inserted

section Weight

variable (hw : 0 ≤ g.orthogonalityWeight)

include hw

theorem atMost_of_mem_sink {c : RankedCut K} {cuts : Ranking K} {s : Score K} (hc : c.Competes g)
    (hcs : c.score.AtMost s) (hcuts : ∀ d ∈ cuts, d.Competes g)
    (hs : ∀ d ∈ cuts, d.score.AtMost s) :
    ∀ d ∈ (sink threshold g c cuts).cuts, d.score.AtMost s := by
  have hall : ∀ d ∈ (sink threshold g c cuts).cuts, d.Competes g ∧ d.score.AtMost s :=
    forall_mem_sink
      (fun _ better hd _ => ⟨hd.1.after better, (hd.1.atMost_after hw better).trans hd.2⟩)
      ⟨hc, hcs⟩ fun d hm => ⟨hcuts d hm, hs d hm⟩
  exact fun d hm => (hall d hm).2

theorem atMost_of_mem_settle (inserted : RankedCut K) {cuts : Ranking K} {s : Score K}
    (hc : ∀ c ∈ cuts, c.Competes g) (hs : ∀ c ∈ cuts, c.score.AtMost s) :
    ∀ c ∈ (settle threshold g inserted cuts).cuts, c.score.AtMost s := by
  have hall : ∀ c ∈ (settle threshold g inserted cuts).cuts, c.Competes g ∧ c.score.AtMost s :=
    forall_mem_settle
      (fun _ better hd _ => ⟨hd.1.after better, (hd.1.atMost_after hw better).trans hd.2⟩)
      fun c hm => ⟨(hc c hm).after inserted, ((hc c hm).atMost_after hw inserted).trans (hs c hm)⟩
  exact fun c hm => (hall c hm).2

/-- A candidate that is placed without an overflow does not score more than a cut above. -/
theorem competes_of_place (h0 : IsZero g.tolerances.epsilon) {worst : Option (Score K)}
    {c : RankedCut K} {cuts : Ranking K} {p : Placement K}
    (h : place threshold g worst c cuts = .ok p) (hcuts : ∀ d ∈ cuts, d.score.IsFinite)
    (hc : c.Competes g) (hp : c.score ≠ .pendingEviction) :
    (p.candidate.Competes g ∧ p.candidate.score ≠ .pendingEviction) ∧ ∀ better ∈ p.above,
      p.candidate.score.IsFinite → p.candidate.score.AtMost better.score := by
  refine place_induction (P := fun c => c.Competes g ∧ c.score ≠ .pendingEviction)
    (R := fun c better => c.score.IsFinite → c.score.AtMost better.score)
    (fun {c better d} hm hc hb hd => ?_) (fun {c better other d} hc hr hd => ?_) h ⟨hc, hp⟩
  · obtain ⟨rfl, hpending⟩ := RankedCut.eq_after_of_challenge hd
    have hd := hpending hc.2
    refine ⟨⟨hc.1.after better, hd⟩, fun hf => (hc.1.atMost_after hw better).trans ?_⟩
    exact Score.atMost_of_not_isBetterThan h0 (hc.1.isFinite_of_after hw hd hf) (hcuts better hm) hb
  · obtain ⟨rfl, hpending⟩ := RankedCut.eq_after_of_challenge hd
    exact fun hf => (hc.1.atMost_after hw other).trans
      (hr (hc.1.isFinite_of_after hw (hpending hc.2) hf))

theorem descending_sink (h0 : IsZero g.tolerances.epsilon) {c : RankedCut K} {cuts : Ranking K}
    (hc : c.Competes g) (hcuts : ∀ d ∈ cuts, d.Competes g) (hd : Descending cuts)
    (hf : ∀ d ∈ (sink threshold g c cuts).cuts, d.score.IsFinite) :
    Descending (sink threshold g c cuts).cuts := by
  induction cuts generalizing c with
  | nil => exact List.pairwise_singleton _ _
  | cons next cuts ih =>
    rw [List.forall_mem_cons] at hcuts
    have hcons := List.pairwise_cons.mp hd
    rw [sink_cons] at hf ⊢
    split at hf
    · rename_i hb
      rw [List.forall_mem_cons] at hf
      rw [if_pos hb]
      refine List.pairwise_cons.mpr ⟨?_, ih (hc.after next) hcuts.2 hcons.2 hf.2⟩
      exact atMost_of_mem_sink hw (hc.after next)
        ((hc.atMost_after hw next).trans (Score.atMost_of_isBetterThan h0 hb)) hcuts.2 hcons.1
    · rename_i hb
      rw [List.forall_mem_cons, List.forall_mem_cons] at hf
      rw [if_neg hb]
      have hle := Score.atMost_of_not_isBetterThan h0 hf.2.1 hf.1 hb
      refine List.pairwise_cons.mpr ⟨List.forall_mem_cons.mpr ⟨hle, fun d hm => ?_⟩, hd⟩
      exact (hcons.1 d hm).trans hle

theorem descending_settle (h0 : IsZero g.tolerances.epsilon) (inserted : RankedCut K)
    {cuts : Ranking K} (hcuts : ∀ d ∈ cuts, d.Competes g)
    (hf : ∀ d ∈ (settle threshold g inserted cuts).cuts, d.score.IsFinite) :
    Descending (settle threshold g inserted cuts).cuts := by
  induction cuts with
  | nil => exact .nil
  | cons c cuts ih =>
    rw [List.forall_mem_cons] at hcuts
    exact descending_sink hw h0 (hcuts.1.after inserted) (competes_of_mem_settle inserted hcuts.2)
      (ih hcuts.2 fun d hd => hf d (mem_sink_of_mem hd)) hf

end Weight

section Placement

variable {worst : Option (Score K)} {c : RankedCut K} {cuts : Ranking K} {p : Placement K}
  (h : InOrder g cuts) (hp : place threshold g worst c cuts = .ok p)

include h hp

theorem InOrder.below_of_place (h0 : IsZero g.tolerances.epsilon) {d : RankedCut K}
    (hd : d ∈ p.below) : d.score.AtMost p.candidate.score ∧ ¬p.candidate.score.AtMost d.score := by
  have hdescending := h.descending
  rw [← above_append_below threshold g hp] at hdescending
  have hbelow := (List.pairwise_append.mp hdescending).2.1
  cases hb : p.below with
  | nil => simp [hb] at hd
  | cons next rest =>
    have hbetter := isBetterThan_of_below hp hb
    have hle := Score.atMost_of_isBetterThan h0 hbetter
    have hnot := Score.not_atMost_of_isBetterThan h0 hbetter
    rw [hb] at hd hbelow
    rcases List.mem_cons.mp hd with rfl | hd
    · exact ⟨hle, hnot⟩
    · have hnext := (List.pairwise_cons.mp hbelow).1 d hd
      exact ⟨hnext.trans hle, fun hc => hnot (hc.trans hnext)⟩

variable (hc : c.Competes g) (hn : c.score ≠ .pendingEviction)
  (h0 : IsZero g.tolerances.epsilon) (hw : 0 ≤ g.orthogonalityWeight)

include hc hn h0 hw

theorem InOrder.above_of_place (hf : p.candidate.score.IsFinite) :
    ∀ better ∈ p.above, p.candidate.score.AtMost better.score := fun better hb =>
  (competes_of_place hw h0 hp h.finite hc hn).2 better hb hf

theorem InOrder.descending_seated (hf : ∀ d ∈ seated threshold g p, d.score.IsFinite) :
    Descending (seated threshold g p) := by
  have hcuts := above_append_below threshold g hp
  have hsplit := List.pairwise_append.mp (hcuts ▸ h.descending)
  have hbelow : ∀ d ∈ p.below, d.Competes g := fun d hd =>
    h.competes d (hcuts ▸ List.mem_append_right _ hd)
  have hcand : p.candidate.score.IsFinite := hf p.candidate (by simp [seated])
  have hle := h.above_of_place hp hc hn h0 hw hcand
  refine List.pairwise_append.mpr ⟨hsplit.1, List.pairwise_cons.mpr ⟨?_, ?_⟩, fun better hb => ?_⟩
  · exact atMost_of_mem_settle hw p.candidate hbelow fun d hd => (h.below_of_place hp h0 hd).1
  · exact descending_settle hw h0 p.candidate hbelow fun d hd => hf d (by simp [seated, hd])
  · exact List.forall_mem_cons.mpr ⟨hle better hb,
      atMost_of_mem_settle hw p.candidate hbelow fun d hd => hsplit.2.2 better hb d hd⟩

theorem InOrder.ofPlacement (hf : ∀ d ∈ seated threshold g p, d.score.IsFinite)
    (capacity : Option Nat) : InOrder g (ofPlacement threshold g p capacity).cuts := by
  have hcuts := above_append_below threshold g hp
  have htop := ofPlacement_top threshold g p capacity
  refine ⟨(h.descending_seated hp hc hn h0 hw hf).sublist htop.sublist, fun d hd => ?_,
    fun d hd => hf d (htop.subset hd), not_pending_of_mem_of_place hp hn h.settled capacity⟩
  rcases List.mem_append.mp (htop.subset hd) with hd | hd
  · exact h.competes d (hcuts ▸ List.mem_append_left _ hd)
  · rcases List.mem_cons.mp hd with rfl | hd
    · exact (competes_of_place hw h0 hp h.finite hc hn).1.1
    · exact competes_of_mem_settle p.candidate
        (fun d hd => h.competes d (hcuts ▸ List.mem_append_right _ hd)) d hd

/-- A candidate ranks below all stored cuts that score no less, ties included. -/
theorem InOrder.length_above (hf : p.candidate.score.IsFinite) :
    p.above.length = cuts.countP fun d => p.candidate.score.AtMost d.score := by
  rw [← above_append_below threshold g hp, List.countP_append, List.countP_eq_length.mpr,
    List.countP_eq_zero.mpr, Nat.add_zero]
  · exact fun d hd => by simpa using (h.below_of_place hp h0 hd).2
  · exact fun d hd => by simpa using h.above_of_place hp hc hn h0 hw hf d hd

end Placement

/-- No score overflows in an insertion: neither the one that the candidate starts with nor one that
a cut has after the comparisons. -/
def Call.HasFiniteScores (g : Settings K) (cuts : Ranking K) : Call K → Prop
  | .insert row valuation capacity threshold =>
    (RankedCut.ofValuation row g valuation).score.IsFinite ∧
      ∀ p, cuts.offer threshold g row valuation capacity = .ok p →
        ∀ c ∈ seated threshold g p, c.score.IsFinite
  | .drain => True

/-- All scores are finite while calls are performed on an empty ranking. -/
def FiniteThroughout (g : Settings K) (calls : List (Call K)) : Prop :=
  ∀ n, ∀ h : n < calls.length, ∀ cuts, run g (calls.take n) = .ok cuts →
    calls[n].HasFiniteScores g cuts

instance decidableForallOk {ε α : Type} (r : Except ε α) (P : α → Prop) [DecidablePred P] :
    Decidable (∀ a, r = .ok a → P a) :=
  match r with
  | .error _ => .isTrue (by simp)
  | .ok a => decidable_of_iff (P a) (by simp)

instance (cuts : Ranking K) : (call : Call K) → Decidable (call.HasFiniteScores g cuts)
  | .insert row valuation capacity threshold =>
    inferInstanceAs (Decidable ((RankedCut.ofValuation row g valuation).score.IsFinite ∧
      ∀ p, cuts.offer threshold g row valuation capacity = .ok p →
        ∀ c ∈ seated threshold g p, c.score.IsFinite))
  | .drain => .isTrue trivial

instance (calls : List (Call K)) : Decidable (FiniteThroughout g calls) :=
  inferInstanceAs (Decidable (∀ n, ∀ _ : n < calls.length, ∀ _, _ → _))

theorem FiniteThroughout.of_concat {calls : List (Call K)} {call : Call K}
    (h : FiniteThroughout g (calls ++ [call])) :
    FiniteThroughout g calls ∧
      ∀ cuts, run g calls = .ok cuts → call.HasFiniteScores g cuts := by
  constructor
  · intro n hn cuts hr
    have hcall := h n (by simp; omega) cuts
    rw [List.take_append_of_le_length hn.le, List.getElem_append_left hn] at hcall
    exact hcall hr
  · intro cuts hr
    have hcall := h calls.length (by simp) cuts
    rw [List.take_left, List.getElem_concat_length rfl] at hcall
    exact hcall hr

section Run

variable (h0 : IsZero g.tolerances.epsilon) (hw : 0 ≤ g.orthogonalityWeight)

include h0 hw

theorem InOrder.perform_insert {cuts : Ranking K} (h : InOrder g cuts) {row : Row K}
    {valuation : Valuation K} {capacity : Option Nat} (hf : valuation.HasFactorNonneg)
    (hs : (Call.insert row valuation capacity threshold).HasFiniteScores g cuts) :
    ∃ after, perform g cuts (.insert row valuation capacity threshold) = .ok after ∧
      InOrder g after := by
  have hc := RankedCut.competes_ofValuation row hf hs.1
  have hn := RankedCut.not_pending_ofValuation g row valuation
  have hkeep : ∀ p, cuts.offer threshold g row valuation capacity = .ok p →
      InOrder g (Ranking.ofPlacement threshold g p capacity).cuts := fun p hp =>
    h.ofPlacement (place_of_offer _ _ hp) hc hn h0 hw (hs.2 p hp) capacity
  cases hr : perform g cuts (.insert row valuation capacity threshold) with
  | error f =>
    obtain ⟨-, p, hp, hunsorted⟩ := perform_insert_eq_error.mp hr
    exact absurd ((hkeep p hp).descending.sorted h0) hunsorted
  | ok after =>
    rcases perform_insert_eq_ok hr with ⟨rfl, -⟩ | ⟨p, hp, rfl, -⟩
    · exact ⟨_, rfl, h⟩
    · exact ⟨_, rfl, hkeep p hp⟩

/-- An accepted candidate ranks below the stored cuts that score no less than it does in the end. -/
theorem InOrder.position_of_insert {cuts : Ranking K} (h : InOrder g cuts) {row : Row K}
    {valuation : Valuation K} {capacity : Option Nat} (hf : valuation.HasFactorNonneg)
    (hs : (Call.insert row valuation capacity threshold).HasFiniteScores g cuts) {i : Insertion K}
    (hi : cuts.insert threshold g row valuation capacity = .ok i) :
    ∃ c, i.cuts[i.position]? = some c ∧ c.row = row ∧
      i.position = cuts.countP fun d => c.score.AtMost d.score := by
  obtain ⟨p, ho, rfl⟩ := insert_eq_ok.mp hi
  have hp := place_of_offer _ _ ho
  have hc := RankedCut.competes_ofValuation row hf hs.1
  have hcand : p.candidate.score.IsFinite := hs.2 p ho p.candidate (by simp [seated])
  refine ⟨p.candidate, ?_, ?_, ?_⟩
  · obtain ⟨rest, hrest⟩ := candidate_stays ho
    rw [← hrest]
    simp [Ranking.ofPlacement]
  · rw [row_of_place hp, RankedCut.row_ofValuation]
  · exact h.length_above hp hc (RankedCut.not_pending_ofValuation g row valuation) h0 hw hcand

theorem exists_inOrder_of_finite {calls : List (Call K)} (hf : ∀ call ∈ calls, call.HasFactorNonneg)
    (hs : FiniteThroughout g calls) : ∃ cuts, run g calls = .ok cuts ∧ InOrder g cuts := by
  induction calls using List.reverseRecOn with
  | nil => exact ⟨[], rfl, inOrder_nil⟩
  | append_singleton calls call ih =>
    obtain ⟨hcalls, hcall⟩ := hs.of_concat
    obtain ⟨before, hb, hi⟩ := ih (fun c hc => hf c (List.mem_append_left _ hc)) hcalls
    suffices hr : ∃ cuts, perform g before call = .ok cuts ∧ InOrder g cuts by
      obtain ⟨cuts, hcuts, hin⟩ := hr
      exact ⟨cuts, run_concat_eq_ok.mpr ⟨before, hb, hcuts⟩, hin⟩
    cases call with
    | drain => exact ⟨[], rfl, inOrder_nil⟩
    | insert row valuation capacity threshold =>
      have hv : valuation.HasFactorNonneg :=
        hf (.insert row valuation capacity threshold) (by simp)
      exact hi.perform_insert h0 hw hv (hcall before hb)

/-- Without a tolerance, whatever is inserted and drained, every call returns and leaves the cuts in
the order of their scores, as long as these are finite. An accepted candidate ranks directly below
the stored cuts that score at least what it scores in the end, so ties are won by the earlier cut.
-/
theorem exists_descending_run {calls : List (Call K)} (hf : ∀ call ∈ calls, call.HasFactorNonneg)
    (hs : FiniteThroughout g calls) :
    ∃ cuts, run g calls = .ok cuts ∧
      (cuts.Pairwise fun above c => c.score.AtMost above.score) ∧
      ∀ before row valuation capacity threshold,
        calls = before ++ [.insert row valuation capacity threshold] →
          ∃ old, run g before = .ok old ∧
            ∀ i, old.insert threshold g row valuation capacity = .ok i →
              cuts = i.cuts ∧ ∃ c, i.cuts[i.position]? = some c ∧ c.row = row ∧
                i.position = old.countP fun d => c.score.AtMost d.score := by
  obtain ⟨cuts, hr, hi⟩ := exists_inOrder_of_finite h0 hw hf hs
  refine ⟨cuts, hr, hi.descending, ?_⟩
  rintro before row valuation capacity threshold rfl
  obtain ⟨hbefore, hlast⟩ := hs.of_concat
  obtain ⟨old, hb, hp⟩ := run_concat_eq_ok.mp hr
  obtain ⟨old', hb', hold⟩ := exists_inOrder_of_finite h0 hw
    (fun call hc => hf call (List.mem_append_left _ hc)) hbefore
  obtain rfl : old = old' := Except.ok.inj (hb.symm.trans hb')
  have hv : valuation.HasFactorNonneg := hf (.insert row valuation capacity threshold) (by simp)
  exact ⟨old, hb, fun i hins => ⟨cuts_of_insert hins hp,
    hold.position_of_insert h0 hw hv (hlast old hb) hins⟩⟩

end Run

def sharp : Settings Float :=
  { Settings.standard with tolerances := { Tolerances.standard with epsilon := 0 } }

/-- The last cut has no entries and ties with `best`. -/
def tiedCalls : List (Call Float) :=
  [.insert (sampleRow "drained" 0 [0]) (.scored 1 1) (some 4) 0.1,
    .drain] ++ sunkenCalls ++
    [.insert (sampleRow "tie" 4 []) (.scored 2 1) (some 5) 0.1]

theorem descending_tied :
    ∃ cuts, run sharp tiedCalls = .ok cuts ∧
      cuts.map (·.row.name) = ["forced", "best", "tie", "wide", "low"] ∧
      cuts.Pairwise fun above c => c.score.AtMost above.score := by
  have hnames : (run sharp tiedCalls).map (·.map (·.row.name)) =
      .ok ["forced", "best", "tie", "wide", "low"] := by decide +kernel
  have hs : FiniteThroughout sharp tiedCalls := by decide +kernel
  obtain ⟨cuts, hr, hd, -⟩ := exists_descending_run (g := sharp) (by decide +kernel)
    (by decide +kernel) (by decide +kernel) hs
  rw [hr] at hnames
  exact ⟨cuts, hr, Except.ok.inj hnames, hd⟩

end Ranking
end CutSelection
