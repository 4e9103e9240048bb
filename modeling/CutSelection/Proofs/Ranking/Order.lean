import Mathlib
import CutSelection.Binary64
import CutSelection.Proofs.Exact
import CutSelection.Proofs.Ranking.Diversity

/-!
The order of a ranking in exact arithmetic. Scores are compared up to a tolerance, so a cut that is
not better than the one above it may be better than the one above that. An insertion keeps every
pair of neighbours in order but one: the candidate and the first of the cuts that it displaced,
which need not be the best of them. The ranking stays in order exactly if the candidate is not
overtaken.
-/

namespace CutSelection

namespace Score

/-- Scores on one scale, with forced cuts above and marked cuts below all others. -/
noncomputable def rank : Score ℝ → EReal
  | .forced => ⊤
  | .finite v => v
  | .pendingEviction => ⊥

variable {t : Tolerances ℝ} {s r s' r' : Score ℝ}

theorem rank_lt_of_isBetterThan (h0 : 0 ≤ t.epsilon) (h : s.IsBetterThan r t) : r.rank < s.rank := by
  cases s <;> cases r <;> simp only [IsBetterThan, tag] at h <;> simp [rank] at *
  exact Tolerances.lt_of_isGt h0 h

theorem rank_le_of_not_isBetterThan (h0 : t.epsilon = 0) (h : ¬s.IsBetterThan r t) :
    s.rank ≤ r.rank := by
  cases s <;> cases r <;> simp [rank] at h ⊢
  rw [Tolerances.isGt_iff_lt h0] at h
  exact not_lt.mp h

theorem isBetterThan_mono (h0 : 0 ≤ t.epsilon) (h1 : t.epsilon ≤ 1) (h : s.IsBetterThan r t)
    (hs : s.rank ≤ s'.rank) (hr : r'.rank ≤ r.rank) : s'.IsBetterThan r' t := by
  cases s with
  | forced =>
    obtain rfl : s' = .forced := by cases s' <;> simp [rank] at hs ⊢
    cases r <;> cases r' <;> simp [rank] at h hr ⊢
  | pendingEviction => simp at h
  | finite a =>
    cases r with
    | forced => simp at h
    | pendingEviction =>
      obtain rfl : r' = .pendingEviction := by cases r' <;> simp [rank] at hr ⊢
      cases s' <;> simp [rank] at hs ⊢
    | finite b =>
      cases s' with
      | forced => cases r' <;> simp [rank] at hr ⊢
      | pendingEviction => simp [rank] at hs
      | finite a' =>
        cases r' with
        | forced => simp [rank] at hr
        | pendingEviction => simp
        | finite b' =>
          exact Tolerances.isGt_mono h0 h1 h (EReal.coe_le_coe_iff.mp hs)
            (EReal.coe_le_coe_iff.mp hr)

end Score

variable {g : Settings ℝ} {threshold : ℝ}

namespace RankedCut

/-- The score of a cut in competition is the one that its values give. -/
def Consistent (g : Settings ℝ) (c : RankedCut ℝ) : Prop :=
  ∀ v e, c.score = .finite v → c.efficacy = some e →
    0 ≤ c.scorefactor ∧ v = g.score c.scorefactor e c.orthogonality

theorem consistent_after {c : RankedCut ℝ} (h : c.Consistent g) (better : RankedCut ℝ) :
    (c.after threshold g better).Consistent g := by
  rcases after_cases threshold g c better with ⟨ha, _⟩ | ⟨v, e, hv, he, _, ha⟩
  · rwa [ha]
  · rw [ha]
    intro v' e' hv' he'
    obtain rfl : e = e' := Option.some.inj (he.symm.trans he')
    refine ⟨(h v e hv he).1, ?_⟩
    dsimp only at hv'
    split at hv'
    · cases hv'
    · exact (Score.finite.inj hv').symm

variable (threshold) in
theorem rank_after_le (hw : 0 ≤ g.orthogonalityWeight) {c : RankedCut ℝ} (h : c.Consistent g)
    (better : RankedCut ℝ) : (c.after threshold g better).score.rank ≤ c.score.rank := by
  rcases after_cases threshold g c better with ⟨ha, _⟩ | ⟨v, e, hv, he, ho, ha⟩
  · rw [ha]
  · obtain ⟨hs, rfl⟩ := h v e hv he
    rw [ha, hv]
    dsimp only
    split
    · exact bot_le
    · have := mul_le_mul_of_nonneg_left (not_le.mp ho).le hw
      exact EReal.coe_le_coe_iff.mpr (mul_le_mul_of_nonneg_left (by linarith) hs)

end RankedCut

def Valuation.HasFactorNonneg {K : Type} [Scalar K] : Valuation K → Prop
  | .forced => True
  | .scored _ scorefactor => 0 ≤ scorefactor

instance {K : Type} [Scalar K] (v : Valuation K) : Decidable v.HasFactorNonneg := by
  simp only [Valuation.HasFactorNonneg]
  split <;> infer_instance

theorem RankedCut.consistent_ofValuation (row : Row ℝ) {valuation : Valuation ℝ}
    (h : valuation.HasFactorNonneg) : (ofValuation row g valuation).Consistent g := by
  cases valuation with
  | forced =>
    intro v e hv
    cases hv
  | scored efficacy scorefactor =>
    rintro v e ⟨⟩ ⟨⟩
    exact ⟨h, rfl⟩

/-- One of the displaced cuts is better than the candidate although it was lowered by it, and so
much better than the displaced cuts above it that it rises past all of them. -/
def Placement.IsOvertaken (threshold : ℝ) (g : Settings ℝ) (p : Placement ℝ) : Prop :=
  ∃ front c back, p.below = front ++ c :: back ∧
    (c.after threshold g p.candidate).IsBetterThan p.candidate g.tolerances ∧
      ∀ d ∈ front, (c.after threshold g p.candidate).IsBetterThan (d.after threshold g p.candidate)
        g.tolerances

namespace Ranking

def Call.HasFactorNonneg {K : Type} [Scalar K] : Call K → Prop
  | .insert _ valuation _ _ => valuation.HasFactorNonneg
  | .drain => True

instance {K : Type} [Scalar K] (call : Call K) : Decidable call.HasFactorNonneg := by
  simp only [Call.HasFactorNonneg]
  split <;> infer_instance

theorem sorted_iff_isChain {K : Type} [Scalar K] {t : Tolerances K} {cuts : Ranking K} :
    Sorted t cuts ↔ cuts.IsChain fun c next => ¬next.IsBetterThan c t := by
  induction cuts with
  | nil => simp [Sorted]
  | cons c cuts ih =>
    cases cuts with
    | nil => simp [Sorted]
    | cons next cuts => rw [Sorted, ih, List.isChain_cons_cons]

/-- What insertions keep: the order, and scores that belong to the recorded values. -/
structure Ordered (g : Settings ℝ) (cuts : Ranking ℝ) : Prop where
  sorted : Sorted g.tolerances cuts
  consistent : ∀ c ∈ cuts, c.Consistent g

theorem head?_sink_cons (c next : RankedCut ℝ) (cuts : Ranking ℝ) :
    (sink threshold g c (next :: cuts)).cuts.head? =
      some (if next.IsBetterThan c g.tolerances then next else c) := by
  rw [sink_cons]
  split <;> rfl

/-- The best displaced cut after the cascade: the last of those that are better than all displaced
cuts above them. -/
theorem exists_of_head?_settle {inserted d : RankedCut ℝ} {cuts : Ranking ℝ}
    (h : (settle threshold g inserted cuts).cuts.head? = some d) :
    ∃ front c back, cuts = front ++ c :: back ∧ d = c.after threshold g inserted ∧
      ∀ e ∈ front, d.IsBetterThan (e.after threshold g inserted) g.tolerances := by
  induction cuts with
  | nil => cases h
  | cons c cuts ih =>
    rw [settle_cons] at h
    cases hs : (settle threshold g inserted cuts).cuts with
    | nil =>
      rw [hs] at h
      cases h
      exact ⟨[], c, cuts, rfl, rfl, by simp⟩
    | cons next rest =>
      rw [hs, head?_sink_cons, Option.some.injEq] at h
      by_cases hb : next.IsBetterThan (c.after threshold g inserted) g.tolerances
      · rw [if_pos hb] at h
        subst h
        obtain ⟨front, c', back, hcuts, hd, hf⟩ := ih (by rw [hs]; rfl)
        exact ⟨c :: front, c', back, by rw [hcuts, List.cons_append], hd,
          List.forall_mem_cons.mpr ⟨hb, hf⟩⟩
      · rw [if_neg hb] at h
        exact ⟨[], c, cuts, rfl, h.symm, by simp⟩

section Exact

variable (h0 : 0 ≤ g.tolerances.epsilon) (h1 : g.tolerances.epsilon ≤ 1)
  (hw : 0 ≤ g.orthogonalityWeight)

include h0 h1 in
/-- A cut that is better than all displaced cuts above it is kept from the top of them only by a
better one. -/
theorem exists_head?_settle (inserted c : RankedCut ℝ) (front back : Ranking ℝ)
    (h : ∀ e ∈ front, (c.after threshold g inserted).IsBetterThan (e.after threshold g inserted)
      g.tolerances) :
    ∃ d, (settle threshold g inserted (front ++ c :: back)).cuts.head? = some d ∧
      (c.after threshold g inserted).score.rank ≤ d.score.rank := by
  induction front with
  | nil =>
    rw [List.nil_append, settle_cons]
    cases hs : (settle threshold g inserted back).cuts with
    | nil => exact ⟨_, rfl, le_rfl⟩
    | cons next rest =>
      rw [head?_sink_cons]
      refine ⟨_, rfl, ?_⟩
      split
      · rename_i hb
        exact (Score.rank_lt_of_isBetterThan h0 hb).le
      · exact le_rfl
  | cons e front ih =>
    rw [List.forall_mem_cons] at h
    obtain ⟨d, hd, hr⟩ := ih h.2
    obtain ⟨rest, hs⟩ := List.head?_eq_some_iff.mp hd
    have hb : d.IsBetterThan (e.after threshold g inserted) g.tolerances :=
      Score.isBetterThan_mono h0 h1 h.1 hr le_rfl
    rw [List.cons_append, settle_cons, hs, head?_sink_cons]
    exact ⟨d, by rw [if_pos hb], hr⟩

include h0 hw in
/-- A cut that sinks stops below a cut that it is not better than, even if the comparison with it
lowered its score. -/
theorem isChain_sink {c : RankedCut ℝ} {cuts : Ranking ℝ} (hc : c.Consistent g)
    (h : cuts.IsChain fun c next => ¬next.IsBetterThan c g.tolerances) :
    (sink threshold g c cuts).cuts.IsChain fun c next => ¬next.IsBetterThan c g.tolerances := by
  induction cuts generalizing c with
  | nil => exact .singleton _
  | cons next cuts ih =>
    rw [sink_cons]
    by_cases hb : next.IsBetterThan c g.tolerances
    · have hn : ¬(c.after threshold g next).IsBetterThan next g.tolerances := by
        intro ha
        have hlt := Score.rank_lt_of_isBetterThan h0 ha
        have hle := RankedCut.rank_after_le threshold hw hc next
        exact lt_asymm (hlt.trans_le hle) (Score.rank_lt_of_isBetterThan h0 hb)
      rw [if_pos hb]
      refine List.isChain_cons.mpr ⟨fun d hd => ?_, ih (RankedCut.consistent_after hc next) h.tail⟩
      cases cuts with
      | nil =>
        cases hd
        exact hn
      | cons second cuts =>
        rw [head?_sink_cons] at hd
        cases hd
        split
        · exact (List.isChain_cons_cons.mp h).1
        · exact hn
    · rw [if_neg hb]
      exact List.isChain_cons_cons.mpr ⟨hb, h⟩

variable (threshold) in
include h0 hw in
theorem isChain_settle (inserted : RankedCut ℝ) {cuts : Ranking ℝ}
    (hc : ∀ c ∈ cuts, c.Consistent g) :
    (settle threshold g inserted cuts).cuts.IsChain
      fun c next => ¬next.IsBetterThan c g.tolerances := by
  induction cuts with
  | nil => exact .nil
  | cons c cuts ih =>
    rw [List.forall_mem_cons] at hc
    exact isChain_sink h0 hw (RankedCut.consistent_after hc.1 inserted) (ih hc.2)

include h0 h1 hw

theorem not_isBetterThan_after {c other : RankedCut ℝ} (hc : c.Consistent g)
    (h : ¬c.IsBetterThan other g.tolerances) (better : RankedCut ℝ) :
    ¬(c.after threshold g better).IsBetterThan other g.tolerances := fun ha =>
  h (Score.isBetterThan_mono h0 h1 ha (RankedCut.rank_after_le threshold hw hc better) le_rfl)

theorem not_isBetterThan_of_place {worst : Option (Score ℝ)} {c : RankedCut ℝ} {cuts : Ranking ℝ}
    {p : Placement ℝ} (h : place threshold g worst c cuts = .ok p) (hc : c.Consistent g) :
    p.candidate.Consistent g ∧
      ∀ better ∈ p.above, ¬p.candidate.IsBetterThan better g.tolerances := by
  refine place_induction (R := fun c better => ¬c.IsBetterThan better g.tolerances)
    (fun {c better d} _ hc hb hd => ?_) (fun {c better other d} hc hr hd => ?_) h hc
  · rw [(RankedCut.eq_after_of_challenge hd).1]
    exact ⟨RankedCut.consistent_after hc better, not_isBetterThan_after h0 h1 hw hc hb better⟩
  · rw [(RankedCut.eq_after_of_challenge hd).1]
    exact not_isBetterThan_after h0 h1 hw hc hr other

/-- The only neighbours that an insertion may leave out of order are the candidate and the best of
the cuts that it displaced. -/
theorem sorted_seated_iff {cuts : Ranking ℝ} (h : Ordered g cuts) {worst : Option (Score ℝ)}
    {c : RankedCut ℝ} {p : Placement ℝ} (hp : place threshold g worst c cuts = .ok p)
    (hc : c.Consistent g) :
    Sorted g.tolerances (seated threshold g p) ↔
      ∀ d ∈ (settle threshold g p.candidate p.below).cuts.head?,
        ¬d.IsBetterThan p.candidate g.tolerances := by
  have hcuts := above_append_below threshold g hp
  obtain ⟨hcand, habove⟩ := not_isBetterThan_of_place h0 h1 hw hp hc
  have hsorted := sorted_iff_isChain.mp h.sorted
  rw [← hcuts, List.isChain_append] at hsorted
  have hsettled := isChain_settle threshold h0 hw p.candidate fun d hd =>
    h.consistent d (hcuts ▸ List.mem_append_right _ hd)
  rw [sorted_iff_isChain, seated, List.isChain_append, List.isChain_cons]
  constructor
  · exact fun hs => hs.2.1.1
  · intro hs
    refine ⟨hsorted.1, ⟨hs, hsettled⟩, fun better hb d hd => ?_⟩
    cases hd
    exact habove better (List.mem_of_getLast? hb)

theorem sorted_ofPlacement_iff {cuts : Ranking ℝ} (h : Ordered g cuts) {worst : Option (Score ℝ)}
    {c : RankedCut ℝ} {p : Placement ℝ} (hp : place threshold g worst c cuts = .ok p)
    (hc : c.Consistent g) (capacity : Option Nat) :
    Sorted g.tolerances (ofPlacement threshold g p capacity).cuts ↔
      ¬p.IsOvertaken threshold g := by
  have hcuts := above_append_below threshold g hp
  have hbelow : ∀ d ∈ p.below, d.Consistent g := fun d hd =>
    h.consistent d (hcuts ▸ List.mem_append_right _ hd)
  constructor
  · rintro hs ⟨front, c, back, hb, hc, hf⟩
    obtain ⟨d, hd, hr⟩ := exists_head?_settle h0 h1 p.candidate c front back hf
    rw [← hb] at hd
    have hdc : d.IsBetterThan p.candidate g.tolerances :=
      Score.isBetterThan_mono h0 h1 hc hr le_rfl
    -- the candidate is better than the first cut that it displaced, so there is a second one
    have hfront : front ≠ [] := by
      rintro rfl
      have hlt := Score.rank_lt_of_isBetterThan h0 (isBetterThan_of_below hp hb)
      have hle := RankedCut.rank_after_le threshold hw
        (hbelow c (by simp [hb])) p.candidate
      exact lt_asymm hlt ((Score.rank_lt_of_isBetterThan h0 hc).trans_le hle)
    have hlength : 2 ≤ (settle threshold g p.candidate p.below).cuts.length := by
      have := List.length_pos_iff.mpr hfront
      rw [length_settle, hb, List.length_append, List.length_cons]
      omega
    obtain ⟨rest, hsettled⟩ := List.head?_eq_some_iff.mp hd
    cases rest with
    | nil => simp [hsettled] at hlength
    | cons second rest =>
      have hnot : d.score ≠ .pendingEviction := by
        intro hd
        have := Score.rank_lt_of_isBetterThan h0 hdc
        simp [hd, Score.rank] at this
      have htop := candidate_next_top_ofPlacement capacity hsettled hnot
      have hchain := List.IsChain.prefix (sorted_iff_isChain.mp hs) htop
      exact (List.isChain_append.mp hchain).2.1.rel hdc
  · intro ho
    have hs : Sorted g.tolerances (seated threshold g p) := by
      refine (sorted_seated_iff h0 h1 hw h hp hc).mpr fun d hd hdc => ho ?_
      obtain ⟨front, c, back, hb, rfl, hf⟩ := exists_of_head?_settle hd
      exact ⟨front, c, back, hb, hdc, hf⟩
    have hchain := List.IsChain.prefix (sorted_iff_isChain.mp hs)
      (ofPlacement_top threshold g p capacity)
    exact sorted_iff_isChain.mpr hchain

theorem Ordered.ofPlacement {cuts : Ranking ℝ} (h : Ordered g cuts) {worst : Option (Score ℝ)}
    {c : RankedCut ℝ} {p : Placement ℝ} (hp : place threshold g worst c cuts = .ok p)
    (hc : c.Consistent g) {capacity : Option Nat}
    (hs : Sorted g.tolerances (ofPlacement threshold g p capacity).cuts) :
    Ordered g (ofPlacement threshold g p capacity).cuts := by
  have hcuts := above_append_below threshold g hp
  refine ⟨hs, fun d hd => ?_⟩
  rcases List.mem_append.mp ((ofPlacement_top threshold g p capacity).subset hd) with hd | hd
  · exact h.consistent d (hcuts ▸ List.mem_append_left _ hd)
  · rcases List.mem_cons.mp hd with rfl | hd
    · exact (not_isBetterThan_of_place h0 h1 hw hp hc).1
    · exact forall_mem_settle (P := (·.Consistent g))
        (fun _ better hc _ => RankedCut.consistent_after hc better)
        (fun c hc => RankedCut.consistent_after
          (h.consistent c (hcuts ▸ List.mem_append_right _ hc)) p.candidate) d hd

theorem ordered_of_run {calls : List (Call ℝ)} {cuts : Ranking ℝ} (h : run g calls = .ok cuts) :
    (∀ call ∈ round calls, call.HasFactorNonneg) → Ordered g cuts := by
  refine run_induction (P := fun since cuts => (∀ call ∈ since, call.HasFactorNonneg) →
    Ordered g cuts) (fun _ => ⟨trivial, by simp⟩)
    (fun row valuation capacity threshold ih hc hf => ?_) h
  have hb := ih fun call hcall => hf call (List.mem_append_left _ hcall)
  rcases perform_insert_eq_ok hc with ⟨rfl, -⟩ | ⟨p, hp, rfl, hs⟩
  · exact hb
  · have hv : valuation.HasFactorNonneg :=
      hf (.insert row valuation capacity threshold) (by simp)
    exact hb.ofPlacement h0 h1 hw (place_of_offer _ _ hp)
      (RankedCut.consistent_ofValuation row hv) hs

theorem Ordered.perform_insert_eq_error_iff {cuts : Ranking ℝ} (h : Ordered g cuts) (row : Row ℝ)
    {valuation : Valuation ℝ} (hv : valuation.HasFactorNonneg) (capacity : Option Nat)
    (threshold : ℝ) (f : Fault) :
    perform g cuts (.insert row valuation capacity threshold) = .error f ↔
      f = .violation .unsortedRanks ∧
        ∃ p, cuts.offer threshold g row valuation capacity = .ok p ∧ p.IsOvertaken threshold g := by
  rw [perform_insert_eq_error]
  refine and_congr_right fun _ => exists_congr fun p => and_congr_right fun hp => ?_
  rw [sorted_ofPlacement_iff h0 h1 hw h (place_of_offer _ _ hp)
    (RankedCut.consistent_ofValuation row hv), not_not]

omit h0 h1 in
/-- Without a tolerance the order is transitive, and no displaced cut is better than the first one.
-/
theorem Ordered.not_isOvertaken (he : g.tolerances.epsilon = 0) {cuts : Ranking ℝ}
    (h : Ordered g cuts) {worst : Option (Score ℝ)} {c : RankedCut ℝ} {p : Placement ℝ}
    (hp : place threshold g worst c cuts = .ok p) : ¬p.IsOvertaken threshold g := by
  have hcuts := above_append_below threshold g hp
  have hranks : (p.below.map (·.score.rank)).Pairwise (· ≥ ·) := by
    refine List.isChain_iff_pairwise.mp ((List.isChain_map _).mpr ?_)
    have hsorted := sorted_iff_isChain.mp h.sorted
    rw [← hcuts] at hsorted
    exact hsorted.right_of_append.imp fun _ _ => Score.rank_le_of_not_isBetterThan he
  rintro ⟨front, d, back, hb, hd, -⟩
  have hle := RankedCut.rank_after_le threshold hw
    (h.consistent d (hcuts ▸ List.mem_append_right _ (by simp [hb]))) p.candidate
  have hlt := (Score.rank_lt_of_isBetterThan he.ge hd).trans_le hle
  cases front with
  | nil =>
    exact lt_asymm hlt (Score.rank_lt_of_isBetterThan he.ge (isBetterThan_of_below hp hb))
  | cons first front =>
    rw [hb, List.cons_append, List.map_cons, List.pairwise_cons] at hranks
    have hfirst := hranks.1 d.score.rank (List.mem_map_of_mem (by simp))
    exact lt_asymm (hlt.trans_le hfirst)
      (Score.rank_lt_of_isBetterThan he.ge (isBetterThan_of_below hp hb))

omit h0 h1 in
/-- Without a tolerance every sequence of calls returns. -/
theorem exists_run_eq_ok (he : g.tolerances.epsilon = 0) {calls : List (Call ℝ)}
    (hf : ∀ call ∈ calls, call.HasFactorNonneg) : ∃ cuts, run g calls = .ok cuts := by
  induction calls using List.reverseRecOn with
  | nil => exact ⟨[], rfl⟩
  | append_singleton calls call ih =>
    have hfirst : ∀ call ∈ calls, call.HasFactorNonneg := fun c hc =>
      hf c (List.mem_append_left _ hc)
    obtain ⟨before, hb⟩ := ih hfirst
    have ho := ordered_of_run he.ge (he.trans_le zero_le_one) hw hb fun c hc =>
      hfirst c (mem_of_mem_round hc)
    suffices hr : ∃ cuts, perform g before call = .ok cuts by
      obtain ⟨cuts, hcuts⟩ := hr
      exact ⟨cuts, run_concat_eq_ok.mpr ⟨before, hb, hcuts⟩⟩
    cases call with
    | drain => exact ⟨[], rfl⟩
    | insert row valuation capacity threshold =>
      have hv : valuation.HasFactorNonneg :=
        hf (.insert row valuation capacity threshold) (by simp)
      cases hr : perform g before (.insert row valuation capacity threshold) with
      | ok cuts => exact ⟨cuts, rfl⟩
      | error f =>
        obtain ⟨-, p, hp, hover⟩ := (ho.perform_insert_eq_error_iff he.ge (he.trans_le zero_le_one)
          hw row hv capacity threshold f).mp hr
        exact absurd hover (ho.not_isOvertaken hw he (place_of_offer _ _ hp))

/-- In exact arithmetic, whatever was inserted before: the ranking is in order after every insertion
that returns, and the next insertion fails exactly if its candidate is overtaken by a cut that it
displaces. -/
theorem sorted_until_overtaken {calls : List (Call ℝ)} {cuts : Ranking ℝ}
    (hf : ∀ call ∈ round calls, call.HasFactorNonneg) (h : run g calls = .ok cuts) :
    Sorted g.tolerances cuts ∧ ∀ (row : Row ℝ) (valuation : Valuation ℝ) (capacity : Option Nat)
      (threshold : ℝ) (f : Fault), valuation.HasFactorNonneg →
        (perform g cuts (.insert row valuation capacity threshold) = .error f ↔
          f = .violation .unsortedRanks ∧ ∃ p,
            cuts.offer threshold g row valuation capacity = .ok p ∧ p.IsOvertaken threshold g) := by
  have ho := ordered_of_run h0 h1 hw h hf
  exact ⟨ho.sorted, fun row valuation capacity threshold f hv =>
    ho.perform_insert_eq_error_iff h0 h1 hw row hv capacity threshold f⟩

end Exact

noncomputable def coarse : Settings ℝ := .sample (1 / 4)

noncomputable def axisRow (column : Nat) : Row ℝ :=
  ⟨⟨"axis", ⟨[(column, 1)], column + 1, by simp [SparseVector.WellFormed]⟩, 0, none, some 0, false⟩,
    column⟩

noncomputable def slantedRow : Row ℝ :=
  ⟨⟨"slanted", ⟨[(0, 3), (1, 4)], 2, by simp [SparseVector.WellFormed]⟩, 0, none, some 0, false⟩, 4⟩

theorem norm_axisRow (column : Nat) : (axisRow column).coefficients.norm = 1 := by
  simp [axisRow, SparseVector.norm, SparseVector.squaredNorm, Scalar.sqrt]

theorem norm_slantedRow : slantedRow.coefficients.norm = 5 := by
  have h : (3 * 3 + 4 * 4 : ℝ) = 5 ^ 2 := by norm_num
  simp [slantedRow, SparseVector.norm, SparseVector.squaredNorm, Scalar.sqrt, h]

theorem orthogonality_axisRow (i j : Nat) :
    (axisRow i).orthogonality (axisRow j).toCut = if i = j then 0 else 1 := by
  rw [Cut.orthogonality, norm_axisRow, norm_axisRow]
  rcases lt_trichotomy i j with h | rfl | h
  · simp [axisRow, SparseVector.innerProduct, SparseVector.common, h.ne, h.not_gt]
  · simp [axisRow, SparseVector.innerProduct, SparseVector.common]
  · simp [axisRow, SparseVector.innerProduct, SparseVector.common, h.ne', h]

theorem orthogonality_slantedRow (i : Nat) :
    (axisRow i).orthogonality slantedRow.toCut =
      if i = 0 then 2 / 5 else if i = 1 then 1 / 5 else 1 := by
  rw [Cut.orthogonality, norm_axisRow, norm_slantedRow]
  rcases i with _ | _ | i <;>
    norm_num [axisRow, slantedRow, SparseVector.innerProduct, SparseVector.common]

/-- A scored cut that is not violated, with the orthogonality that comparisons left it. -/
noncomputable def leveled (row : Row ℝ) (scorefactor orthogonality : ℝ) : RankedCut ℝ :=
  ⟨row, some 0, orthogonality, .finite (coarse.score scorefactor 0 orthogonality), scorefactor⟩

theorem leveled_isBetterThan {row row' : Row ℝ} {s o s' o' : ℝ} :
    (leveled row s o).IsBetterThan (leveled row' s' o') coarse.tolerances ↔
      1 / 4 * max (max |s * o| |s' * o'|) 1 < s * o - s' * o' := by
  simp only [RankedCut.IsBetterThan, leveled, Score.finite_isBetterThan_finite, Settings.score,
    coarse, Settings.sample, zero_add, one_mul]
  exact Tolerances.isGt_iff

@[simp] theorem row_leveled (row : Row ℝ) (s o : ℝ) : (leveled row s o).row = row := rfl

@[simp] theorem score_leveled_ne (row : Row ℝ) (s o : ℝ) :
    (leveled row s o).score ≠ .pendingEviction := nofun

/-- No orthogonality is below a threshold of zero, so nothing is marked. -/
theorem reduceBy_leveled (row : Row ℝ) (s o : ℝ) (better : RankedCut ℝ) :
    (leveled row s o).reduceBy 0 coarse better =
      if o ≤ row.orthogonality better.row.toCut then none
      else some (leveled row s (row.orthogonality better.row.toCut)) := by
  have hmarks : ¬coarse.tolerances.IsLt (row.orthogonality better.row.toCut) 0 := by
    rw [Tolerances.isLt_iff_isGt]
    exact fun h => (Tolerances.lt_of_isGt (by norm_num [coarse, Settings.sample]) h).not_ge
      (Cut.orthogonality_nonneg _ _)
  simp [leveled, RankedCut.reduceBy, RankedCut.reduce, hmarks]

theorem after_leveled (row : Row ℝ) (s o : ℝ) (better : RankedCut ℝ) :
    (leveled row s o).after 0 coarse better =
      leveled row s (min o (row.orthogonality better.row.toCut)) := by
  rw [RankedCut.after_eq_getD, reduceBy_leveled]
  split
  · rename_i h
    rw [min_eq_left h]
    rfl
  · rename_i h
    rw [min_eq_right (not_le.mp h).le]
    rfl

theorem offer_leveled (cuts : Ranking ℝ) (row : Row ℝ) (s : ℝ) :
    cuts.offer 0 coarse row (.scored 0 s) none = place 0 coarse none (leveled row s 1) cuts := by
  simp only [offer, bar, worst, ite_self, RankedCut.IsOutclassed, if_false, reduceCtorEq]
  rfl

theorem perform_leveled {cuts after : Ranking ℝ} {row : Row ℝ} {s : ℝ} {p : Placement ℝ}
    (hp : place 0 coarse none (leveled row s 1) cuts = .ok p) (ha : seated 0 coarse p = after)
    (hs : Sorted coarse.tolerances after) (hm : ∀ c ∈ after, c.score ≠ .pendingEviction) :
    perform coarse cuts (.insert row (.scored 0 s) none 0) = .ok after := by
  subst ha
  have hcuts : (ofPlacement 0 coarse p none).cuts = seated 0 coarse p := by
    simp only [ofPlacement, overflow, ite_self, Option.isSome_none, Bool.false_eq_true, if_false]
    exact withoutPendingTail_eq_self hm
  rw [← hcuts] at hs ⊢
  exact perform_of_offer_ok ((offer_leveled cuts row s).trans hp) hs

theorem place_leveled_last {cuts : Ranking ℝ} {row : Row ℝ} {s : ℝ}
    (h : ∀ better ∈ cuts, ¬(leveled row s 1).IsBetterThan better coarse.tolerances ∧
      row.orthogonality better.row.toCut = 1) :
    place 0 coarse none (leveled row s 1) cuts = .ok ⟨cuts, leveled row s 1, []⟩ := by
  induction cuts with
  | nil => rfl
  | cons better cuts ih =>
    obtain ⟨⟨hbetter, hangle⟩, hrest⟩ := List.forall_mem_cons.mp h
    refine place_cons_eq_ok.mpr (.inr ⟨hbetter, leveled row s 1, _, ?_, ih hrest, rfl⟩)
    rw [RankedCut.challenge, reduceBy_leveled, if_pos hangle.ge]

theorem perform_leveled_last {cuts : Ranking ℝ} {row : Row ℝ} {s : ℝ}
    (h : ∀ better ∈ cuts, ¬(leveled row s 1).IsBetterThan better coarse.tolerances ∧
      row.orthogonality better.row.toCut = 1)
    (hs : Sorted coarse.tolerances (cuts ++ [leveled row s 1]))
    (hm : ∀ c ∈ cuts, c.score ≠ .pendingEviction) :
    perform coarse cuts (.insert row (.scored 0 s) none 0) = .ok (cuts ++ [leveled row s 1]) :=
  perform_leveled (place_leveled_last h) rfl hs
    (List.forall_mem_append.mpr ⟨hm, List.forall_mem_singleton.mpr (score_leveled_ne row s 1)⟩)

/-- Four cuts at right angles to each other, the last two of which tie, and one that lowers the
first two. After that the scores rise from 50 to 96 in steps that the tolerance does not see. -/
noncomputable def risingTies : List (Call ℝ) :=
  [.insert (axisRow 1) (.scored 0 250) none 0, .insert (axisRow 0) (.scored 0 160) none 0,
    .insert (axisRow 2) (.scored 0 80) none 0, .insert (axisRow 3) (.scored 0 96) none 0,
    .insert slantedRow (.scored 0 400) none 0]

theorem run_risingTies :
    run coarse risingTies = .ok [leveled slantedRow 400 1, leveled (axisRow 1) 250 (1 / 5),
      leveled (axisRow 0) 160 (2 / 5), leveled (axisRow 2) 80 1, leveled (axisRow 3) 96 1] := by
  have first : perform coarse [] (.insert (axisRow 1) (.scored 0 250) none 0) =
      .ok [leveled (axisRow 1) 250 1] := perform_leveled_last (by simp) trivial (by simp)
  have second : perform coarse [leveled (axisRow 1) 250 1]
      (.insert (axisRow 0) (.scored 0 160) none 0) =
        .ok [leveled (axisRow 1) 250 1, leveled (axisRow 0) 160 1] :=
    perform_leveled_last (by norm_num [leveled_isBetterThan, orthogonality_axisRow])
      (by norm_num [Sorted, leveled_isBetterThan]) (by simp)
  have third : perform coarse [leveled (axisRow 1) 250 1, leveled (axisRow 0) 160 1]
      (.insert (axisRow 2) (.scored 0 80) none 0) =
        .ok [leveled (axisRow 1) 250 1, leveled (axisRow 0) 160 1, leveled (axisRow 2) 80 1] :=
    perform_leveled_last (by norm_num [leveled_isBetterThan, orthogonality_axisRow])
      (by norm_num [Sorted, leveled_isBetterThan]) (by simp)
  have fourth : perform coarse [leveled (axisRow 1) 250 1, leveled (axisRow 0) 160 1,
      leveled (axisRow 2) 80 1] (.insert (axisRow 3) (.scored 0 96) none 0) =
        .ok [leveled (axisRow 1) 250 1, leveled (axisRow 0) 160 1, leveled (axisRow 2) 80 1,
          leveled (axisRow 3) 96 1] :=
    perform_leveled_last (by norm_num [leveled_isBetterThan, orthogonality_axisRow])
      (by norm_num [Sorted, leveled_isBetterThan]) (by simp)
  have fifth : perform coarse [leveled (axisRow 1) 250 1, leveled (axisRow 0) 160 1,
      leveled (axisRow 2) 80 1, leveled (axisRow 3) 96 1]
      (.insert slantedRow (.scored 0 400) none 0) =
        .ok [leveled slantedRow 400 1, leveled (axisRow 1) 250 (1 / 5),
          leveled (axisRow 0) 160 (2 / 5), leveled (axisRow 2) 80 1, leveled (axisRow 3) 96 1] := by
    refine perform_leveled (place_cons_eq_ok.mpr (.inl ⟨?_, rfl⟩)) ?_ ?_ (by simp)
    · norm_num [leveled_isBetterThan]
    · simp only [seated, settle_cons, after_leveled]
      norm_num [settle, sink, orthogonality_slantedRow, leveled_isBetterThan]
    · norm_num [Sorted, leveled_isBetterThan]
  simp only [run, risingTies, List.foldlM_cons, List.foldlM_nil, first, second, third, fourth,
    fifth, bind, Except.bind, pure, Except.pure]

/-- A candidate of 70 is better than the second cut, and the last one is better than the candidate.
-/
theorem sorted_risingTies :
    ∃ cuts, run coarse risingTies = .ok cuts ∧ cuts.length = 5 ∧ Sorted coarse.tolerances cuts ∧
      perform coarse cuts (.insert (axisRow 2) (.scored 0 70) none 0) =
        .error (.violation .unsortedRanks) := by
  have h0 : 0 ≤ coarse.tolerances.epsilon := by norm_num [coarse, Settings.sample]
  have h1 : coarse.tolerances.epsilon ≤ 1 := by norm_num [coarse, Settings.sample]
  have hw : 0 ≤ coarse.orthogonalityWeight := by norm_num [coarse, Settings.sample]
  have hf : ∀ call ∈ round risingTies, call.HasFactorNonneg := by
    simp [round, risingTies, Call.HasFactorNonneg, Valuation.HasFactorNonneg]
  have hv : (Valuation.scored (0 : ℝ) 70).HasFactorNonneg := by norm_num [Valuation.HasFactorNonneg]
  let candidate := leveled (axisRow 2) 70 1
  let front := [leveled (axisRow 1) 250 (1 / 5), leveled (axisRow 0) 160 (2 / 5),
    leveled (axisRow 2) 80 1]
  let last := leveled (axisRow 3) 96 1
  have hplace : place 0 coarse none candidate (leveled slantedRow 400 1 :: (front ++ [last])) =
      .ok ⟨[leveled slantedRow 400 1], candidate, front ++ [last]⟩ := by
    norm_num [candidate, front, place, RankedCut.challenge, reduceBy_leveled, leveled_isBetterThan,
      orthogonality_slantedRow, bind, Except.bind]
  have hlast : (last.after 0 coarse candidate).IsBetterThan candidate coarse.tolerances := by
    norm_num [last, candidate, after_leveled, leveled_isBetterThan, orthogonality_axisRow]
  have hfront : ∀ d ∈ front, (last.after 0 coarse candidate).IsBetterThan
      (d.after 0 coarse candidate) coarse.tolerances := by
    norm_num [front, last, candidate, after_leveled, leveled_isBetterThan, orthogonality_axisRow]
  obtain ⟨hsorted, hfails⟩ := sorted_until_overtaken h0 h1 hw hf run_risingTies
  exact ⟨_, run_risingTies, rfl, hsorted, (hfails _ _ _ _ _ hv).mpr
    ⟨rfl, _, (offer_leveled ..).trans hplace, front, last, [], rfl, hlast, hfront⟩⟩

/-- The cut `n` lowers the scores of the three cuts that it shares a variable with so that they rise
from `a` to `d` in steps that the tolerance does not see. The last one is better than `a` and worse
than `d` by more than the tolerance. -/
def nearTies : List (Call Float) :=
  [.insert (sampleRow "a" 0 [0]) (.scored 0 1) (some 10) 0.5,
    .insert (sampleRow "b" 1 [1]) (.scored 0.0263157903 0.95) (some 10) 0.5,
    .insert (sampleRow "c" 2 [2]) (.scored 0.0555555573 0.9) (some 10) 0.5,
    .insert (sampleRow "d" 3 [4]) (.scored 5e-9 0.5) (some 10) 0.5,
    .insert (sampleRow "n" 4 [0, 1, 2, 3]) (.scored 9 1) (some 10) 0.5,
    .insert (sampleRow "k" 5 [2]) (.scored 1.2e-9 1) (some 10) 0.5]

/-- The last of these insertions fails, and nothing is wrong with the settings or the cuts. -/
theorem run_nearTies :
    let g := Settings.standard
    (0 ≤ g.tolerances.epsilon ∧ g.tolerances.epsilon < 1 ∧ 0 ≤ g.orthogonalityWeight) ∧
      (∀ call ∈ nearTies, call.HasFactorNonneg) ∧
        run g nearTies = .error (.violation .unsortedRanks) := by
  decide +kernel

end Ranking
end CutSelection
