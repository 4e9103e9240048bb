import CutSelection.Proofs.Binary64.Ordered
import CutSelection.Proofs.Ranking.Diversity

/-!
What the values recorded with a stored cut say. The score is the one that the values give, and the
orthogonality is one that the cut has to some cut of the round. It bounds the orthogonality to every
cut ranked above, since no cut comes to stand above another one without being compared with it.
-/

namespace CutSelection

open Scalar

variable {K : Type} [Scalar K] {threshold : K} {g : Settings K} {rows rows' : Row K → Prop}

theorem Cut.isFinite_orthogonality [OrderedScalar K] (a b : Cut K) :
    OrderedScalar.IsFinite (a.orthogonality b) :=
  OrderedScalar.isFinite_of_le OrderedScalar.isFinite_zero OrderedScalar.isFinite_one
    (a.orthogonality_nonneg b) (a.orthogonality_le_one b)

namespace RankedCut

/-- A cut of one of the given rows with the values that comparisons with some of them gave it. It
may be marked. -/
structure IsRecorded (g : Settings K) (rows : Row K → Prop) (c : RankedCut K) : Prop where
  entered : rows c.row
  values : (c.score = .forced ∧ c.efficacy = none ∧ c.orthogonality = 1) ∨
    ∃ e, c.efficacy = some e ∧
      (c.score = .pendingEviction ∨
        c.score = .finite (g.score c.scorefactor e c.orthogonality)) ∧
      (c.orthogonality = 1 ∨ ∃ row, rows row ∧ c.orthogonality = c.row.orthogonality row.toCut)

/-- The recorded orthogonality is no larger than the one to a cut above. -/
def IsLimitedBy (c above : RankedCut K) : Prop :=
  ∀ v, c.score = .finite v → c.orthogonality ≤ c.row.orthogonality above.row.toCut

/-- What limits a cut is the row above it, whatever was recorded for that row. -/
theorem isLimitedBy_after_iff {c above better : RankedCut K} :
    c.IsLimitedBy (above.after threshold g better) ↔ c.IsLimitedBy above := by
  rw [IsLimitedBy, IsLimitedBy, row_after]

theorem isRecorded_ofValuation {row : Row K} (h : rows row) (valuation : Valuation K) :
    (ofValuation row g valuation).IsRecorded g rows := by
  cases valuation with
  | forced => exact ⟨h, .inl ⟨rfl, rfl, rfl⟩⟩
  | scored efficacy scorefactor => exact ⟨h, .inr ⟨efficacy, rfl, .inr rfl, .inl rfl⟩⟩

theorem IsRecorded.mono {c : RankedCut K} (h : c.IsRecorded g rows)
    (hrows : ∀ row, rows row → rows' row) : c.IsRecorded g rows' := by
  refine ⟨hrows c.row h.entered, ?_⟩
  rcases h.values with hf | ⟨e, he, hs, ho⟩
  · exact .inl hf
  · exact .inr ⟨e, he, hs, ho.imp_right fun ⟨row, hrow, ho⟩ => ⟨row, hrows row hrow, ho⟩⟩

theorem IsRecorded.after {c better : RankedCut K} (h : c.IsRecorded g rows)
    (hb : rows better.row) : (c.after threshold g better).IsRecorded g rows := by
  rcases after_cases threshold g c better with ⟨ha, -⟩ | ⟨v, e, hv, he, -, ha⟩
  · rwa [ha]
  · rw [ha]
    refine ⟨h.entered, .inr ⟨e, he, ?_, .inr ⟨better.row, hb, rfl⟩⟩⟩
    dsimp only
    split
    · exact .inl rfl
    · exact .inr rfl

variable [OrderedScalar K]

theorem IsRecorded.orthogonality_bounds {c : RankedCut K} (h : c.IsRecorded g rows) :
    0 ≤ c.orthogonality ∧ c.orthogonality ≤ 1 := by
  rcases h.values with ⟨-, -, ho⟩ | ⟨-, -, -, ho | ⟨row, -, ho⟩⟩ <;> rw [ho]
  · exact ⟨GradedScalar.zero_le_one, GradedScalar.one_le_one⟩
  · exact ⟨GradedScalar.zero_le_one, GradedScalar.one_le_one⟩
  · exact ⟨Cut.orthogonality_nonneg _ _, Cut.orthogonality_le_one _ _⟩

theorem IsRecorded.isFinite_orthogonality {c : RankedCut K} (h : c.IsRecorded g rows) :
    OrderedScalar.IsFinite c.orthogonality :=
  OrderedScalar.isFinite_of_le OrderedScalar.isFinite_zero OrderedScalar.isFinite_one
    h.orthogonality_bounds.1 h.orthogonality_bounds.2

theorem IsRecorded.orthogonality_le {c : RankedCut K} (h : c.IsRecorded g rows) {a b : Cut K}
    (ho : ¬c.orthogonality ≤ a.orthogonality b) : a.orthogonality b ≤ c.orthogonality :=
  (OrderedScalar.le_total h.isFinite_orthogonality (a.isFinite_orthogonality b)).resolve_left ho

theorem IsRecorded.isLimitedBy_after {c better : RankedCut K} (h : c.IsRecorded g rows) :
    (c.after threshold g better).IsLimitedBy better := by
  intro v hv
  rw [row_after]
  rcases after_cases threshold g c better with ⟨ha, ho⟩ | ⟨_, _, _, _, _, ha⟩
  · rw [ha] at hv ⊢
    rcases h.values with ⟨hs, -⟩ | ⟨e, he, -⟩
    · rw [hs] at hv
      cases hv
    · exact ho v e hv he
  · rw [ha]
    exact OrderedScalar.le_refl (Cut.isFinite_orthogonality _ _)

theorem IsLimitedBy.after {c above : RankedCut K} (h : c.IsLimitedBy above)
    (hc : c.IsRecorded g rows) (better : RankedCut K) :
    (c.after threshold g better).IsLimitedBy above := by
  intro v hv
  rw [row_after]
  rcases after_cases threshold g c better with ⟨ha, -⟩ | ⟨w, _, hw, _, ho, ha⟩
  · rw [ha] at hv ⊢
    exact h v hv
  · rw [ha]
    exact OrderedScalar.le_trans (hc.orthogonality_le ho) (h w hw)

end RankedCut

namespace Ranking

/-- What the values of the stored cuts say while cuts of the given rows are inserted. -/
structure Recorded (g : Settings K) (rows : Row K → Prop) (cuts : Ranking K) : Prop where
  recorded : ∀ c ∈ cuts, c.IsRecorded g rows
  limited : cuts.Pairwise fun above c => c.IsLimitedBy above

theorem recorded_nil : Recorded g rows [] := ⟨by simp, .nil⟩

theorem recorded_cons {c : RankedCut K} {cuts : Ranking K} : Recorded g rows (c :: cuts) ↔
    c.IsRecorded g rows ∧ (∀ d ∈ cuts, d.IsLimitedBy c) ∧ Recorded g rows cuts := by
  constructor
  · rintro ⟨hr, hl⟩
    rw [List.forall_mem_cons] at hr
    rw [List.pairwise_cons] at hl
    exact ⟨hr.1, hl.1, hr.2, hl.2⟩
  · rintro ⟨hc, hd, hr, hl⟩
    exact ⟨List.forall_mem_cons.mpr ⟨hc, hr⟩, List.pairwise_cons.mpr ⟨hd, hl⟩⟩

theorem recorded_append {top rest : Ranking K} : Recorded g rows (top ++ rest) ↔
    Recorded g rows top ∧ Recorded g rows rest ∧ ∀ c ∈ top, ∀ d ∈ rest, d.IsLimitedBy c := by
  constructor
  · rintro ⟨hr, hl⟩
    rw [List.forall_mem_append] at hr
    rw [List.pairwise_append] at hl
    exact ⟨⟨hr.1, hl.1⟩, ⟨hr.2, hl.2.1⟩, hl.2.2⟩
  · rintro ⟨ht, hr, hl⟩
    exact ⟨List.forall_mem_append.mpr ⟨ht.recorded, hr.recorded⟩,
      List.pairwise_append.mpr ⟨ht.limited, hr.limited, hl⟩⟩

theorem Recorded.mono {cuts : Ranking K} (h : Recorded g rows cuts)
    (hrows : ∀ row, rows row → rows' row) : Recorded g rows' cuts :=
  ⟨fun c hc => (h.recorded c hc).mono hrows, h.limited⟩

variable [OrderedScalar K]

theorem isLimitedBy_of_mem_sink {c above : RankedCut K} {cuts : Ranking K}
    (hc : c.IsRecorded g rows) (hca : c.IsLimitedBy above) (hr : ∀ d ∈ cuts, d.IsRecorded g rows)
    (hl : ∀ d ∈ cuts, d.IsLimitedBy above) :
    ∀ d ∈ (sink threshold g c cuts).cuts, d.IsLimitedBy above := by
  have hall : ∀ d ∈ (sink threshold g c cuts).cuts, d.IsRecorded g rows ∧ d.IsLimitedBy above :=
    forall_mem_sink (fun d better hd hb => ⟨hd.1.after hb.1.entered, hd.2.after hd.1 better⟩)
      ⟨hc, hca⟩ fun d hd => ⟨hr d hd, hl d hd⟩
  exact fun d hd => (hall d hd).2

/-- A cut that sinks is limited by the cuts that it sinks past, and still limits the cuts that it
stays above of. -/
theorem Recorded.sink {c : RankedCut K} {cuts : Ranking K} (h : Recorded g rows (c :: cuts)) :
    Recorded g rows (sink threshold g c cuts).cuts := by
  induction cuts generalizing c with
  | nil => exact h
  | cons next cuts ih =>
    rw [sink_cons]
    split
    · obtain ⟨hc, hlimited, hrest⟩ := recorded_cons.mp h
      obtain ⟨hnext, hbelow, hcuts⟩ := recorded_cons.mp hrest
      have hsinks : (c.after threshold g next).IsRecorded g rows := hc.after hnext.entered
      refine recorded_cons.mpr ⟨hnext, ?_, ih (recorded_cons.mpr ⟨hsinks, ?_, hcuts⟩)⟩
      · exact isLimitedBy_of_mem_sink hsinks hc.isLimitedBy_after hcuts.recorded hbelow
      · exact fun d hd => RankedCut.isLimitedBy_after_iff.mpr
          (hlimited d (List.mem_cons_of_mem _ hd))
    · exact h

theorem isLimitedBy_of_mem_settle {inserted above : RankedCut K} {cuts : Ranking K}
    (hi : rows inserted.row) (hr : ∀ c ∈ cuts, c.IsRecorded g rows)
    (hl : ∀ c ∈ cuts, (c.after threshold g inserted).IsLimitedBy above) :
    ∀ d ∈ (settle threshold g inserted cuts).cuts, d.IsLimitedBy above := by
  have hall : ∀ d ∈ (settle threshold g inserted cuts).cuts,
      d.IsRecorded g rows ∧ d.IsLimitedBy above :=
    forall_mem_settle (fun d better hd hb => ⟨hd.1.after hb.1.entered, hd.2.after hd.1 better⟩)
      fun c hc => ⟨(hr c hc).after hi, hl c hc⟩
  exact fun d hd => (hall d hd).2

theorem Recorded.settle {inserted : RankedCut K} (hi : rows inserted.row) {cuts : Ranking K}
    (h : Recorded g rows cuts) : Recorded g rows (settle threshold g inserted cuts).cuts := by
  induction cuts with
  | nil => exact recorded_nil
  | cons c cuts ih =>
    obtain ⟨hc, hlimited, hcuts⟩ := recorded_cons.mp h
    rw [settle_cons]
    refine Recorded.sink (recorded_cons.mpr ⟨hc.after hi, ?_, ih hcuts⟩)
    have hall : ∀ d ∈ (Ranking.settle threshold g inserted cuts).cuts, d.IsLimitedBy c :=
      isLimitedBy_of_mem_settle hi hcuts.recorded fun d hd =>
        (hlimited d hd).after (hcuts.recorded d hd) inserted
    exact fun d hd => RankedCut.isLimitedBy_after_iff.mpr (hall d hd)

/-- A candidate is limited by the cuts that it passes. -/
theorem isRecorded_of_place {worst : Option (Score K)} {c : RankedCut K} {cuts : Ranking K}
    {p : Placement K} (h : place threshold g worst c cuts = .ok p)
    (hrows : ∀ d ∈ cuts, rows d.row) (hc : c.IsRecorded g rows) :
    p.candidate.IsRecorded g rows ∧ ∀ better ∈ p.above, p.candidate.IsLimitedBy better := by
  refine place_induction (R := fun c better => c.IsLimitedBy better)
    (fun {c better d} hm hc _ hd => ?_) (fun {c better other d} hc hr hd => ?_) h hc
  · obtain ⟨rfl, -⟩ := RankedCut.eq_after_of_challenge hd
    exact ⟨hc.after (hrows better hm), hc.isLimitedBy_after⟩
  · obtain ⟨rfl, -⟩ := RankedCut.eq_after_of_challenge hd
    exact hr.after hc other

theorem Recorded.ofPlacement {cuts : Ranking K} (h : Recorded g rows cuts)
    {worst : Option (Score K)} {c : RankedCut K} {p : Placement K}
    (hp : place threshold g worst c cuts = .ok p) (hc : c.IsRecorded g rows)
    (capacity : Option Nat) : Recorded g rows (ofPlacement threshold g p capacity).cuts := by
  obtain ⟨hcand, habove⟩ := isRecorded_of_place hp (fun d hd => (h.recorded d hd).entered) hc
  rw [← above_append_below threshold g hp, recorded_append] at h
  obtain ⟨htop, hbelow, hlimited⟩ := h
  have hi := hcand.entered
  suffices hseated : Recorded g rows (seated threshold g p) by
    have htops := ofPlacement_top threshold g p capacity
    exact ⟨fun d hd => hseated.recorded d (htops.subset hd),
      hseated.limited.sublist htops.sublist⟩
  refine recorded_append.mpr ⟨htop, recorded_cons.mpr ⟨hcand, ?_, hbelow.settle hi⟩,
    fun better hb => List.forall_mem_cons.mpr ⟨habove better hb, ?_⟩⟩
  · exact isLimitedBy_of_mem_settle hi hbelow.recorded fun d hd =>
      (hbelow.recorded d hd).isLimitedBy_after
  · exact isLimitedBy_of_mem_settle hi hbelow.recorded fun d hd =>
      (hlimited better hb d hd).after (hbelow.recorded d hd) p.candidate

omit [OrderedScalar K] in
theorem not_pending_of_mem_of_place {worst : Option (Score K)} {c : RankedCut K}
    {cuts : Ranking K} {p : Placement K} (hp : place threshold g worst c cuts = .ok p)
    (hc : c.score ≠ .pendingEviction) (h : ∀ d ∈ cuts, d.score ≠ .pendingEviction)
    (capacity : Option Nat) :
    ∀ d ∈ (ofPlacement threshold g p capacity).cuts, d.score ≠ .pendingEviction := by
  have hcuts := above_append_below threshold g hp
  exact not_pending_of_mem_ofPlacement threshold g capacity
    (fun d hd => h d (hcuts ▸ List.mem_append_left _ hd)) (not_pending_of_place hp hc)

/-- The row was accepted, and the ranking has not been drained since. -/
def Entered (g : Settings K) (calls : List (Call K)) (row : Row K) : Prop :=
  ∃ before valuation capacity threshold since,
    calls = before ++ .insert row valuation capacity threshold :: since ∧ .drain ∉ since ∧
      ∃ cuts i, run g before = .ok cuts ∧ cuts.insert threshold g row valuation capacity = .ok i

omit [OrderedScalar K] in
theorem Entered.concat {calls : List (Call K)} {row : Row K} (h : Entered g calls row)
    (other : Row K) (valuation : Valuation K) (capacity : Option Nat) (threshold : K) :
    Entered g (calls ++ [.insert other valuation capacity threshold]) row := by
  obtain ⟨before, v, n, m, since, rfl, hs, hi⟩ := h
  exact ⟨before, v, n, m, since ++ [.insert other valuation capacity threshold], by simp,
    by simpa using hs, hi⟩

theorem recorded_of_run {calls : List (Call K)} {cuts : Ranking K} (h : run g calls = .ok cuts) :
    Recorded g (Entered g calls) cuts ∧ ∀ c ∈ cuts, c.score ≠ .pendingEviction := by
  induction calls using List.reverseRecOn generalizing cuts with
  | nil =>
    cases h
    exact ⟨recorded_nil, by simp⟩
  | append_singleton calls call ih =>
    obtain ⟨before, hb, hc⟩ := run_concat_eq_ok.mp h
    obtain ⟨hrecorded, hpending⟩ := ih hb
    cases call with
    | drain =>
      cases hc
      exact ⟨recorded_nil, by simp⟩
    | insert row valuation capacity threshold =>
      have hold := hrecorded.mono fun _ hrow => hrow.concat row valuation capacity threshold
      rcases perform_insert_eq_ok hc with ⟨rfl, -⟩ | ⟨p, hp, rfl, -⟩
      · exact ⟨hold, hpending⟩
      · have hnew : Entered g (calls ++ [.insert row valuation capacity threshold]) row :=
          ⟨calls, valuation, capacity, threshold, [], rfl, by simp, before, _, hb, by
            rw [insert_eq_map_offer, hp]
            rfl⟩
        have hplace := place_of_offer _ _ hp
        have hc := RankedCut.isRecorded_ofValuation (g := g) hnew valuation
        exact ⟨hold.ofPlacement hplace hc capacity, not_pending_of_mem_of_place hplace
          (RankedCut.not_pending_ofValuation g row valuation) hpending capacity⟩

/-- The values stored with the cuts are true at all times. No cut is marked, a forced one has no
efficacy and counts as orthogonal to all others, and a scored one has the score that its efficacy
and its orthogonality give. That orthogonality is one, or the one to some cut that entered in this
round, and no cut above is less orthogonal to it. -/
theorem truthful_of_run {calls : List (Call K)} {cuts : Ranking K} (h : run g calls = .ok cuts) :
    (∀ c ∈ cuts, ¬c.score.IsPending ∧
      (c.score.IsForced → c.efficacy = none ∧ c.orthogonality = 1) ∧
      (¬c.score.IsForced → ∃ e, c.efficacy = some e ∧
        c.score = .finite (c.scorefactor * (e + g.orthogonalityWeight * c.orthogonality)) ∧
          (c.orthogonality = 1 ∨
            ∃ row, Entered g calls row ∧ c.orthogonality = c.row.orthogonality row.toCut))) ∧
      cuts.Pairwise fun above c =>
        ¬c.score.IsForced → c.orthogonality ≤ c.row.orthogonality above.row.toCut := by
  obtain ⟨⟨hrecorded, hlimited⟩, hpending⟩ := recorded_of_run h
  have hscored : ∀ c ∈ cuts, ¬c.score.IsForced → ∃ e, c.efficacy = some e ∧
      c.score = .finite (g.score c.scorefactor e c.orthogonality) ∧ (c.orthogonality = 1 ∨
        ∃ row, Entered g calls row ∧ c.orthogonality = c.row.orthogonality row.toCut) := by
    intro c hc hs
    rcases (hrecorded c hc).values with ⟨hf, -⟩ | ⟨e, he, hp | hv, ho⟩
    · exact absurd ((Score.isForced_iff _).mpr hf) hs
    · exact absurd hp (hpending c hc)
    · exact ⟨e, he, hv, ho⟩
  refine ⟨fun c hc => ⟨by simpa using hpending c hc, fun hs => ?_, hscored c hc⟩, ?_⟩
  · rcases (hrecorded c hc).values with ⟨-, hf⟩ | ⟨e, -, hp | hv, -⟩
    · exact hf
    · exact absurd hp (hpending c hc)
    · simp [hv] at hs
  · refine hlimited.imp_of_mem fun _ hc hl hs => ?_
    obtain ⟨e, -, hv, -⟩ := hscored _ hc hs
    exact hl _ hv

/-- The last cut lowers `low` so far that it sinks below `wide`, which stays limited by it. -/
def sunkenCalls : List (Call Float) :=
  [.insert (sampleRow "forced" 0 []) .forced (some 10) 0.1,
    .insert (sampleRow "low" 1 [0, 1, 2, 3]) (.scored 1.5 1) (some 10) 0.1,
    .insert (sampleRow "wide" 2 [2, 3, 4]) (.scored 1.5 1) (some 10) 0.1,
    .insert (sampleRow "best" 3 [0, 1, 2]) (.scored 2 1) (some 10) 0.1]

theorem truthful_sunken :
    ∃ cuts, run .standard sunkenCalls = .ok cuts ∧
      cuts.map (·.row.name) = ["forced", "best", "wide", "low"] ∧
      (∀ c ∈ cuts, ¬c.score.IsForced → ∃ e, c.efficacy = some e ∧
        c.score = .finite (c.scorefactor * (e + 1 * c.orthogonality))) ∧
      cuts.Pairwise fun above c =>
        ¬c.score.IsForced → c.orthogonality ≤ c.row.orthogonality above.row.toCut := by
  have hnames : (run .standard sunkenCalls).map (·.map (·.row.name)) =
      .ok ["forced", "best", "wide", "low"] := by decide +kernel
  cases h : run .standard sunkenCalls with
  | error f =>
    rw [h] at hnames
    cases hnames
  | ok cuts =>
    rw [h] at hnames
    obtain ⟨hvalues, hlimited⟩ := truthful_of_run h
    refine ⟨cuts, rfl, Except.ok.inj hnames, fun c hc hs => ?_, hlimited⟩
    obtain ⟨e, he, hv, -⟩ := (hvalues c hc).2.2 hs
    exact ⟨e, he, hv⟩

end Ranking
end CutSelection
