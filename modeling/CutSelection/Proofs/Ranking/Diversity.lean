import CutSelection.Proofs.Binary64.Graded
import CutSelection.Proofs.Ranking.Comparison

/-!
Diversity: as long as all insertions of a round use the same threshold, no stored cut is less
orthogonal than that to another one, unless both are forced. Every pair is compared when the later
of its members enters, on the walk of the candidate or when the earlier one is displaced, and a cut
that fails is marked, sinks to the tail and leaves.
-/

namespace CutSelection

variable {K : Type} [Scalar K]

/-- Cuts, given by their submissions, that may be stored together. -/
def Settings.Apart (g : Settings K) (m : K) (a b : Row K × Option K × K) : Prop :=
  a.2.1.isSome ∨ b.2.1.isSome → ¬g.tolerances.IsLt (a.1.orthogonality b.1.toCut) m

theorem Settings.Apart.symm [GradedScalar K] {g : Settings K} {m : K}
    {a b : Row K × Option K × K} (h : g.Apart m a b) : g.Apart m b a := by
  intro hab
  rw [Cut.orthogonality_comm]
  exact h hab.symm

namespace RankedCut

/-- A cut that may stay: forced, or scored and recorded as orthogonal enough. -/
def Qualifies (g : Settings K) (m : K) (c : RankedCut K) : Prop :=
  (c.score = .forced ∧ c.efficacy = none) ∨
    ((∃ v, c.score = .finite v) ∧ c.efficacy.isSome ∧ 0 ≤ c.orthogonality ∧ c.orthogonality ≤ 1 ∧
      ¬g.tolerances.IsLt c.orthogonality m)

theorem Qualifies.not_pending {g : Settings K} {m : K} {c : RankedCut K} (h : c.Qualifies g m) :
    c.score ≠ .pendingEviction := by
  rcases h with ⟨h, _⟩ | ⟨⟨v, h⟩, _⟩ <;> simp [h]

theorem Qualifies.forced_iff {g : Settings K} {m : K} {c : RankedCut K} (h : c.Qualifies g m) :
    c.score = .forced ↔ c.efficacy = none := by
  rcases h with ⟨h, he⟩ | ⟨⟨v, h⟩, he, _⟩
  · simp [h, he]
  · simp [h, Option.isSome_iff_ne_none.mp he]

variable [GradedScalar K] {g : Settings K} {m : K}

theorem qualifies_ofValuation (h0 : 0 ≤ g.tolerances.epsilon) (h1 : m ≤ 1) (row : Row K)
    (valuation : Valuation K) : (ofValuation row g valuation).Qualifies g m := by
  cases valuation with
  | forced => exact .inl ⟨rfl, rfl⟩
  | scored efficacy scorefactor =>
    exact .inr ⟨⟨_, rfl⟩, rfl, GradedScalar.zero_le_one, GradedScalar.one_le_one,
      GradedScalar.not_isLt_one h0 h1⟩

/-- After a comparison a cut is marked, or it may stay and is apart from the better cut. -/
theorem after_qualifies (h0 : 0 ≤ g.tolerances.epsilon) (h1 : m ≤ 1) {c : RankedCut K}
    (hc : c.Qualifies g m) (better : RankedCut K) :
    (c.after m g better).score = .pendingEviction ∨
      (c.after m g better).Qualifies g m ∧
        (c.efficacy.isSome → ¬g.tolerances.IsLt (c.row.orthogonality better.row.toCut) m) := by
  rcases hc with ⟨hs, he⟩ | ⟨⟨v, hs⟩, he, hnn, hle, hm⟩
  · rw [after_of_not_finite (by simp [hs])]
    exact .inr ⟨.inl ⟨hs, he⟩, by simp [he]⟩
  obtain ⟨e, he'⟩ := Option.isSome_iff_exists.mp he
  rcases after_cases m g c better with ⟨h, ho⟩ | ⟨_, _, _, _, _, h⟩
  · rw [h]
    refine .inr ⟨.inr ⟨⟨v, hs⟩, he, hnn, hle, hm⟩, fun _ hlt => hm ?_⟩
    exact GradedScalar.isLt_of_le h0 h1 hnn (ho v e hs he') (Cut.orthogonality_le_one _ _) hlt
  · rw [h]
    by_cases hlt : g.tolerances.IsLt (c.row.orthogonality better.row.toCut) m
    · exact .inl (by simp [hlt])
    · exact .inr ⟨.inr ⟨by simp [hlt], he, Cut.orthogonality_nonneg _ _,
        Cut.orthogonality_le_one _ _, hlt⟩, fun _ => hlt⟩

end RankedCut

namespace Ranking

/-- The invariant of a round with one threshold. -/
structure Diverse (g : Settings K) (m : K) (cuts : Ranking K) : Prop where
  forcedFirst : cuts.Pairwise fun c d => d.efficacy = none → c.efficacy = none
  qualifies : ∀ c ∈ cuts, c.Qualifies g m
  apart : (cuts.map (·.submission)).Pairwise (g.Apart m)

variable {g : Settings K} {m : K}

theorem diverse_nil : Diverse g m [] := ⟨.nil, by simp, .nil⟩

theorem Diverse.isSome_of_below {cuts : Ranking K} (h : Diverse g m cuts)
    {worst : Option (Score K)} {c : RankedCut K} {p : Placement K}
    (hp : place m g worst c cuts = .ok p) : ∀ d ∈ p.below, d.efficacy.isSome := by
  have hcuts := above_append_below m g hp
  intro d hd
  cases hb : p.below with
  | nil => simp [hb] at hd
  | cons next rest =>
    have hnext : next.efficacy ≠ none := by
      intro he
      have hs := (h.qualifies next (by simp [← hcuts, hb])).forced_iff.mpr he
      have := isBetterThan_of_below hp hb
      simp [RankedCut.IsBetterThan, hs] at this
    have hfirst := (List.pairwise_append.mp (hcuts ▸ h.forcedFirst)).2.1
    rw [hb] at hd hfirst
    rw [Option.isSome_iff_ne_none]
    rcases List.mem_cons.mp hd with rfl | hd
    · exact hnext
    · exact fun he => hnext ((List.pairwise_cons.mp hfirst).1 d hd he)

variable [GradedScalar K]

/-- On its walk a candidate is compared with all better cuts; a forced one passes forced ones. -/
theorem qualifies_of_place (h0 : 0 ≤ g.tolerances.epsilon) (h1 : m ≤ 1) {worst : Option (Score K)}
    {c : RankedCut K} {cuts : Ranking K} {p : Placement K} (h : place m g worst c cuts = .ok p)
    (hc : c.Qualifies g m) :
    p.candidate.Qualifies g m ∧ ∀ better ∈ p.above,
      (p.candidate.efficacy = none → better.score = .forced) ∧
        (p.candidate.efficacy.isSome →
          ¬g.tolerances.IsLt (p.candidate.row.orthogonality better.row.toCut) m) := by
  refine place_induction (R := fun c better => (c.efficacy = none → better.score = .forced) ∧
    (c.efficacy.isSome → ¬g.tolerances.IsLt (c.row.orthogonality better.row.toCut) m))
    (fun {c better d} _ hc hb hd => ?_) (fun {c better other d} _ hr hd => ?_) h hc
  · obtain ⟨rfl, hp⟩ := RankedCut.eq_after_of_challenge hd
    rcases RankedCut.after_qualifies h0 h1 hc better with ha | ⟨ha, hlt⟩
    · exact absurd ha (hp hc.not_pending)
    · refine ⟨ha, fun he => ?_, ?_⟩
      · rw [RankedCut.efficacy_after] at he
        simpa [RankedCut.IsBetterThan, hc.forced_iff.mpr he] using hb
      · simpa using hlt
  · obtain ⟨rfl, -⟩ := RankedCut.eq_after_of_challenge hd
    simpa using hr

/-- Each displaced cut was compared with the candidate: it is marked, or it may stay. -/
theorem qualifies_of_settle (h0 : 0 ≤ g.tolerances.epsilon) (h1 : m ≤ 1) {inserted : RankedCut K}
    {cuts : Ranking K} (hq : ∀ c ∈ cuts, c.Qualifies g m) (hs : ∀ c ∈ cuts, c.efficacy.isSome) :
    ∀ c ∈ (settle m g inserted cuts).cuts, c.score = .pendingEviction ∨ c.Qualifies g m ∧
      ¬g.tolerances.IsLt (c.row.orthogonality inserted.row.toCut) m := by
  refine forall_mem_settle (fun c better hc _ => ?_) fun c hc => ?_
  · rcases hc with hc | ⟨hc, hlt⟩
    · rw [RankedCut.after_of_not_finite (by simp [hc])]
      exact .inl hc
    · rcases RankedCut.after_qualifies h0 h1 hc better with ha | ⟨ha, -⟩
      · exact .inl ha
      · exact .inr ⟨ha, by simpa using hlt⟩
  · rcases RankedCut.after_qualifies h0 h1 (hq c hc) inserted with ha | ⟨ha, hlt⟩
    · exact .inl ha
    · exact .inr ⟨ha, by simpa using hlt (hs c hc)⟩

theorem Diverse.pairwise_seated (h0 : 0 ≤ g.tolerances.epsilon) (h1 : m ≤ 1) {cuts : Ranking K}
    (h : Diverse g m cuts) {worst : Option (Score K)} {c : RankedCut K} {p : Placement K}
    (hp : place m g worst c cuts = .ok p) (hc : c.Qualifies g m) :
    (seated m g p).Pairwise fun c d => c.score ≠ .pendingEviction → d.score ≠ .pendingEviction →
      g.Apart m c.submission d.submission := by
  have hcuts := above_append_below m g hp
  have hapart := h.apart
  rw [← hcuts, List.map_append, List.pairwise_append] at hapart
  obtain ⟨ha, hb, hab⟩ := hapart
  have hperm := submissions_settle m g p.candidate p.below
  have hsub : ∀ d ∈ (settle m g p.candidate p.below).cuts,
      d.submission ∈ p.below.map (·.submission) := fun d hd =>
    hperm.mem_iff.mp (List.mem_map_of_mem hd)
  have hcand := (qualifies_of_place h0 h1 hp hc).2
  refine List.pairwise_append.mpr ⟨?_, List.pairwise_cons.mpr ⟨?_, ?_⟩, ?_⟩
  · exact (List.pairwise_map.mp ha).imp fun h _ _ => h
  · -- the candidate and a cut that it displaced
    intro d hd _ hdp
    refine Settings.Apart.symm fun _ => ?_
    rcases qualifies_of_settle h0 h1 (fun c hc => h.qualifies c (by simp [← hcuts, hc]))
      (h.isSome_of_below hp) d hd with hq | ⟨_, hlt⟩
    · exact absurd hq hdp
    · exact hlt
  · have := (hperm.pairwise_iff (R := g.Apart m) fun h => h.symm).mpr hb
    exact (List.pairwise_map.mp this).imp fun h _ _ => h
  · intro better hbetter d hd _ _
    rcases List.mem_cons.mp hd with rfl | hd
    · -- a better cut and the candidate
      refine Settings.Apart.symm fun hsome => ?_
      have hb := hcand better hbetter
      rcases Option.eq_none_or_eq_some p.candidate.efficacy with he | ⟨e, he⟩
      · have := (h.qualifies better (by simp [← hcuts, hbetter])).forced_iff.mp (hb.1 he)
        simp [RankedCut.submission, he, this] at hsome
      · exact hb.2 (by simp [he])
    · exact hab _ (List.mem_map_of_mem hbetter) _ (hsub d hd)

theorem Diverse.ofPlacement (h0 : 0 ≤ g.tolerances.epsilon) (h1 : m ≤ 1) {cuts : Ranking K}
    (h : Diverse g m cuts) {worst : Option (Score K)} {c : RankedCut K} {p : Placement K}
    (hp : place m g worst c cuts = .ok p) (hc : c.Qualifies g m) (capacity : Option Nat) :
    Diverse g m (ofPlacement m g p capacity).cuts := by
  have hcuts := above_append_below m g hp
  have hmem : ∀ d, d ∈ p.above ∨ d ∈ p.below → d ∈ cuts := fun d hd =>
    hcuts ▸ List.mem_append.mpr hd
  obtain ⟨hcand, habove⟩ := qualifies_of_place h0 h1 hp hc
  have hstay := not_pending_of_mem_ofPlacement m g capacity
    (fun d hd => (h.qualifies d (hmem d (.inl hd))).not_pending) hcand.not_pending
  have htop := (ofPlacement_top m g p capacity).sublist
  have hsome : ∀ d ∈ (settle m g p.candidate p.below).cuts, d.efficacy.isSome := by
    intro d hd
    obtain ⟨b, hb, hbd⟩ := exists_submission_of_mem_settle hd
    rw [← (RankedCut.submission_eq_iff.mp hbd).2.1]
    exact h.isSome_of_below hp b hb
  refine ⟨List.Pairwise.sublist htop ?_, fun d hd => ?_, List.pairwise_map.mpr ?_⟩
  · have hnone : ∀ d ∈ (settle m g p.candidate p.below).cuts, d.efficacy ≠ none := fun d hd =>
      Option.isSome_iff_ne_none.mp (hsome d hd)
    refine List.pairwise_append.mpr ⟨(List.pairwise_append.mp (hcuts ▸ h.forcedFirst)).1,
      List.pairwise_cons.mpr ⟨fun d hd he => absurd he (hnone d hd), ?_⟩, fun a ha d hd he => ?_⟩
    · exact List.pairwise_iff_forall_sublist.mpr fun hs he =>
        absurd he (hnone _ (hs.subset (by simp)))
    · rcases List.mem_cons.mp hd with rfl | hd
      · exact (h.qualifies a (hmem a (.inl ha))).forced_iff.mp ((habove a ha).1 he)
      · exact absurd he (hnone d hd)
  · rcases List.mem_append.mp (htop.subset hd) with hd' | hd'
    · exact h.qualifies d (hmem d (.inl hd'))
    · rcases List.mem_cons.mp hd' with rfl | hd'
      · exact hcand
      · rcases qualifies_of_settle h0 h1 (fun b hb => h.qualifies b (hmem b (.inr hb)))
          (h.isSome_of_below hp) d hd' with hq | ⟨hq, -⟩
        · exact absurd hq (hstay d hd)
        · exact hq
  · refine ((h.pairwise_seated h0 h1 hp hc).sublist htop).imp_of_mem ?_
    exact fun hc hd hcd => hcd (hstay _ hc) (hstay _ hd)

theorem diverse_of_run (h0 : 0 ≤ g.tolerances.epsilon) (h1 : m ≤ 1) {calls : List (Call K)}
    {cuts : Ranking K} (h : run g calls = .ok cuts) :
    (∀ call ∈ round calls, call.UsesThreshold m) → Diverse g m cuts := by
  refine run_induction (P := fun since cuts => (∀ call ∈ since, call.UsesThreshold m) →
    Diverse g m cuts) (fun _ => diverse_nil) (fun row valuation capacity threshold ih hc hm => ?_) h
  obtain rfl : threshold = m := hm (.insert row valuation capacity threshold) (by simp)
  have hb := ih fun call hcall => hm call (List.mem_append_left _ hcall)
  rcases perform_insert_eq_ok hc with ⟨rfl, -⟩ | ⟨p, hp, rfl, -⟩
  · exact hb
  · exact hb.ofPlacement h0 h1 (place_of_offer _ _ hp)
      (RankedCut.qualifies_ofValuation h0 h1 row valuation) capacity

/-- Whatever was submitted, and in whatever order: if all insertions of the current round use one
threshold, which is at most one, then no two stored cuts are less orthogonal than that, unless both
are forced, and no scored cut is recorded as less orthogonal. -/
theorem orthogonality_floor (h0 : 0 ≤ g.tolerances.epsilon) (h1 : m ≤ 1) {calls : List (Call K)}
    {cuts : Ranking K} (hm : ∀ call ∈ round calls, call.UsesThreshold m)
    (h : run g calls = .ok cuts) :
    (∀ i j, ∀ hi : i < cuts.length, ∀ hj : j < cuts.length, i ≠ j →
        ¬cuts[i].score.IsForced ∨ ¬cuts[j].score.IsForced →
          ¬g.tolerances.IsLt (cuts[i].row.orthogonality cuts[j].row.toCut) m) ∧
      ∀ c ∈ cuts, ¬c.score.IsForced → ¬g.tolerances.IsLt c.orthogonality m := by
  have hd := diverse_of_run h0 h1 h hm
  have hsome : ∀ c ∈ cuts, ¬c.score.IsForced → c.efficacy.isSome := fun c hc hs => by
    rw [Score.isForced_iff, (hd.qualifies c hc).forced_iff] at hs
    exact Option.isSome_iff_ne_none.mpr hs
  have hapart := List.pairwise_iff_getElem.mp (List.pairwise_map.mp hd.apart)
  refine ⟨fun i j hi hj hij hs => ?_, fun c hc hs => ?_⟩
  · have hone : cuts[i].efficacy.isSome ∨ cuts[j].efficacy.isSome :=
      hs.imp (hsome _ (List.getElem_mem hi)) (hsome _ (List.getElem_mem hj))
    rcases Nat.lt_or_gt_of_ne hij with hlt | hlt
    · exact hapart i j hi hj hlt hone
    · exact (hapart j i hj hi hlt).symm hone
  · rcases hd.qualifies c hc with ⟨hf, -⟩ | ⟨-, -, -, -, hq⟩
    · exact absurd ((Score.isForced_iff _).mpr hf) hs
    · exact hq

def sampleRow (name : String) (number : Nat) (columns : List Nat) : Row Float where
  name := name
  coefficients := .ofDense ((List.range 5).map fun i => if i ∈ columns then 1 else 0)
  constant := 0
  lhs := none
  rhs := some 0
  modifiable := false
  number := number

/-- The second cut is forced and parallel to the third one, and the last one shares variables with
the first and displaces it. -/
def sampleCalls : List (Call Float) :=
  [.insert (sampleRow "first" 0 [0, 1]) (.scored 1 1) (some 10) 0.75,
    .insert (sampleRow "second" 1 [2]) .forced (some 10) 0.75,
    .insert (sampleRow "third" 2 [2]) (.scored 2 1) (some 10) 0.75,
    .insert (sampleRow "fourth" 3 [1, 3]) (.scored 3 1) (some 10) 0.75]

theorem orthogonality_floor_standard :
    ∃ cuts, run .standard sampleCalls = .ok cuts ∧ cuts.length = 2 ∧
      ∀ c ∈ cuts, ¬c.score.IsForced → ¬Tolerances.standard.IsLt c.orthogonality 0.75 := by
  have hlength : (run .standard sampleCalls).map List.length = .ok 2 := by decide +kernel
  have hm : ∀ call ∈ round sampleCalls, call.UsesThreshold 0.75 := by
    simp [round, sampleCalls, Call.UsesThreshold]
  cases h : run .standard sampleCalls with
  | error f => rw [h] at hlength; cases hlength
  | ok cuts =>
    rw [h] at hlength
    have hfloor := orthogonality_floor (g := .standard) (by decide +kernel) (by decide +kernel) hm h
    exact ⟨cuts, rfl, Except.ok.inj hlength, hfloor.2⟩

end Ranking
end CutSelection
