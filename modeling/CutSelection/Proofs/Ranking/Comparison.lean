import CutSelection.Proofs.Ranking.Calls

/-!
What comparisons do to a ranking. Neither a comparison nor the walk of a candidate or a displaced
cut changes what was submitted: the row, its efficacy and its score factor. Displaced cuts are only
permuted, and the marked ones among them end up at the tail.
-/

namespace CutSelection

variable {K : Type} [Scalar K] {threshold : K} {g : Settings K}

@[simp] theorem Score.forced_isBetterThan (s : Score K) (t : Tolerances K) :
    forced.IsBetterThan s t ↔ s ≠ forced := by cases s <;> simp [IsBetterThan, tag]

namespace RankedCut

def submission (c : RankedCut K) : Row K × Option K × K := (c.row, c.efficacy, c.scorefactor)

theorem submission_eq_iff {c d : RankedCut K} : c.submission = d.submission ↔
    c.row = d.row ∧ c.efficacy = d.efficacy ∧ c.scorefactor = d.scorefactor := by
  simp [submission]

variable (threshold g) in
/-- A stored cut after a comparison with a better one. -/
def after (c better : RankedCut K) : RankedCut K := (c.comparedWith threshold g better).1

theorem after_eq_getD (c better : RankedCut K) :
    c.after threshold g better = (c.reduceBy threshold g better).getD c := by
  rw [after, comparedWith]
  cases c.reduceBy threshold g better <;> rfl

variable (threshold g) in
/-- A comparison lowers the orthogonality of a scored cut to the one it has to the better cut, or it
changes nothing. -/
theorem after_cases (c better : RankedCut K) :
    let o := c.row.orthogonality better.row.toCut
    (c.after threshold g better = c ∧
        ∀ v e, c.score = .finite v → c.efficacy = some e → c.orthogonality ≤ o) ∨
      ∃ v e, c.score = .finite v ∧ c.efficacy = some e ∧ ¬c.orthogonality ≤ o ∧
        c.after threshold g better = { c with
          orthogonality := o
          score := if g.tolerances.IsLt o threshold then .pendingEviction
            else .finite (g.score c.scorefactor e o) } := by
  rw [after_eq_getD, reduceBy, reduce]
  dsimp only
  split
  · rename_i v e hv he
    by_cases ho : c.orthogonality ≤ c.row.orthogonality better.row.toCut
    · left
      simp [ho]
    · right
      exact ⟨v, e, hv, he, ho, by simp [ho]⟩
  · rename_i hne
    exact .inl ⟨rfl, fun v e hv he => (hne v e hv he).elim⟩

@[simp] theorem submission_after (c better : RankedCut K) :
    (c.after threshold g better).submission = c.submission := by
  rcases after_cases threshold g c better with ⟨h, _⟩ | ⟨v, e, _, _, _, h⟩
  · rw [h]
  · rw [h]
    rfl

@[simp] theorem row_after (c better : RankedCut K) : (c.after threshold g better).row = c.row :=
  (submission_eq_iff.mp (submission_after c better)).1

@[simp] theorem efficacy_after (c better : RankedCut K) :
    (c.after threshold g better).efficacy = c.efficacy :=
  (submission_eq_iff.mp (submission_after c better)).2.1

theorem after_of_not_finite {c : RankedCut K} (h : ∀ v, c.score ≠ .finite v) (better : RankedCut K) :
    c.after threshold g better = c := by
  rcases after_cases threshold g c better with ⟨h', _⟩ | ⟨v, _, hv, _⟩
  · exact h'
  · exact absurd hv (h v)

theorem isForced_after_iff {c better : RankedCut K} :
    (c.after threshold g better).score.IsForced ↔ c.score.IsForced := by
  rcases after_cases threshold g c better with ⟨h, _⟩ | ⟨v, e, hv, _, _, h⟩
  · rw [h]
  · rw [h, hv]
    dsimp only
    split <;> simp

theorem not_pending_of_isBetterThan {c d : RankedCut K} {t : Tolerances K}
    (h : c.IsBetterThan d t) : c.score ≠ .pendingEviction := by
  intro hc
  rw [IsBetterThan, hc] at h
  exact Score.not_pendingEviction_isBetterThan d.score t h

/-- A candidate that passes a better cut is compared with it like a stored one, and not marked. -/
theorem eq_after_of_challenge {worst : Option (Score K)} {c better d : RankedCut K}
    (h : c.challenge threshold g worst better = .ok d) :
    d = c.after threshold g better ∧ (c.score ≠ .pendingEviction → d.score ≠ .pendingEviction) := by
  rw [after_eq_getD]
  unfold challenge at h
  cases hr : c.reduceBy threshold g better with
  | none =>
    simp only [hr, Except.ok.injEq] at h
    exact ⟨h.symm, fun hc => h ▸ hc⟩
  | some reduced =>
    simp only [hr] at h
    split at h
    · cases h
    · rename_i hp
      split at h
      · cases h
      · cases h
        exact ⟨rfl, fun _ hd => hp ((Score.isPending_iff _).mpr hd)⟩

theorem not_isOutclassed_of_challenge {worst : Option (Score K)} {c better d : RankedCut K}
    (h : c.challenge threshold g worst better = .ok d)
    (hc : ¬c.IsOutclassed worst g.tolerances) : ¬d.IsOutclassed worst g.tolerances := by
  unfold challenge at h
  split at h
  · cases h
    exact hc
  · split at h
    · cases h
    · split at h
      · cases h
      · cases h
        assumption

@[simp] theorem row_ofValuation (row : Row K) (valuation : Valuation K) :
    (ofValuation row g valuation).row = row := by cases valuation <;> rfl

variable (g) in
theorem not_pending_ofValuation (row : Row K) (valuation : Valuation K) :
    (ofValuation row g valuation).score ≠ .pendingEviction := by
  cases valuation <;> simp [ofValuation]

end RankedCut

namespace Ranking

/-- Below a marked cut there are only marked ones. -/
def MarkedLast (cuts : Ranking K) : Prop :=
  cuts.Pairwise fun c d => c.score = .pendingEviction → d.score = .pendingEviction

theorem place_cons_eq_ok {worst : Option (Score K)} {c better : RankedCut K} {cuts : Ranking K}
    {p : Placement K} :
    place threshold g worst c (better :: cuts) = .ok p ↔
      (c.IsBetterThan better g.tolerances ∧ p = ⟨[], c, better :: cuts⟩) ∨
        ¬c.IsBetterThan better g.tolerances ∧ ∃ d q,
          c.challenge threshold g worst better = .ok d ∧
            place threshold g worst d cuts = .ok q ∧ p = { q with above := better :: q.above } := by
  rw [place]
  split
  · rename_i hb
    simp [hb, eq_comm]
  · rename_i hb
    cases hd : c.challenge threshold g worst better with
    | error e => simp [hb, bind, Except.bind]
    | ok d =>
      cases hq : place threshold g worst d cuts with
      | error e => simp [hb, hq, bind, Except.bind]
      | ok q => simp [hb, hq, bind, Except.bind, eq_comm]

/-- A walk keeps what every comparison on it keeps, and each better cut that it passes stays in the
relation that the comparison with it established. -/
theorem place_induction {P : RankedCut K → Prop} {R : RankedCut K → RankedCut K → Prop}
    {worst : Option (Score K)} {cuts : Ranking K}
    (pass : ∀ {c better d}, better ∈ cuts → P c → ¬c.IsBetterThan better g.tolerances →
      c.challenge threshold g worst better = .ok d → P d ∧ R d better)
    (keep : ∀ {c better other d}, P c → R c better →
      c.challenge threshold g worst other = .ok d → R d better)
    {c : RankedCut K} {p : Placement K}
    (h : place threshold g worst c cuts = .ok p) (hc : P c) :
    P p.candidate ∧ ∀ better ∈ p.above, R p.candidate better := by
  suffices hs : ∀ passed : Ranking K, (∀ better ∈ passed, R c better) →
      P p.candidate ∧ ∀ better ∈ passed ++ p.above, R p.candidate better by
    simpa using hs [] (by simp)
  induction cuts generalizing c p with
  | nil =>
    intro passed hp
    cases h
    exact ⟨hc, by simpa using hp⟩
  | cons better cuts ih =>
    intro passed hp
    rcases place_cons_eq_ok.mp h with ⟨_, rfl⟩ | ⟨hb, d, q, hd, hq, rfl⟩
    · exact ⟨hc, by simpa using hp⟩
    · have hpass := pass List.mem_cons_self hc hb hd
      have hnext := ih (fun hm => pass (List.mem_cons_of_mem _ hm)) hq hpass.1
        (passed ++ [better]) fun other hother => by
        rcases List.mem_append.mp hother with hother | hother
        · exact keep hc (hp other hother) hd
        · exact List.mem_singleton.mp hother ▸ hpass.2
      simpa using hnext

/-- The walk ends at the first cut that the candidate is better than. -/
theorem isBetterThan_of_below {worst : Option (Score K)} {c next : RankedCut K}
    {cuts rest : Ranking K} {p : Placement K} (h : place threshold g worst c cuts = .ok p)
    (hp : p.below = next :: rest) : p.candidate.IsBetterThan next g.tolerances := by
  induction cuts generalizing c p with
  | nil =>
    cases h
    cases hp
  | cons better cuts ih =>
    rcases place_cons_eq_ok.mp h with ⟨hb, rfl⟩ | ⟨_, d, q, _, hq, rfl⟩
    · cases hp
      exact hb
    · exact ih (p := q) hq hp

theorem submission_of_place {worst : Option (Score K)} {c : RankedCut K} {cuts : Ranking K}
    {p : Placement K} (h : place threshold g worst c cuts = .ok p) :
    p.candidate.submission = c.submission := by
  refine (place_induction (P := fun d => d.submission = c.submission) (R := fun _ _ => True)
    (fun _ hd _ hc => ?_) (fun _ _ _ => trivial) h rfl).1
  rw [(RankedCut.eq_after_of_challenge hc).1, RankedCut.submission_after, hd]
  exact ⟨rfl, trivial⟩

theorem row_of_place {worst : Option (Score K)} {c : RankedCut K} {cuts : Ranking K}
    {p : Placement K} (h : place threshold g worst c cuts = .ok p) : p.candidate.row = c.row :=
  (RankedCut.submission_eq_iff.mp (submission_of_place h)).1

theorem isForced_of_place {worst : Option (Score K)} {c : RankedCut K} {cuts : Ranking K}
    {p : Placement K} (h : place threshold g worst c cuts = .ok p) :
    p.candidate.score.IsForced ↔ c.score.IsForced := by
  refine (place_induction (P := fun d => d.score.IsForced ↔ c.score.IsForced)
    (R := fun _ _ => True) (fun _ hd _ hc => ⟨?_, trivial⟩) (fun _ _ _ => trivial) h .rfl).1
  rw [(RankedCut.eq_after_of_challenge hc).1, RankedCut.isForced_after_iff, hd]

theorem not_pending_of_place {worst : Option (Score K)} {c : RankedCut K} {cuts : Ranking K}
    {p : Placement K} (h : place threshold g worst c cuts = .ok p)
    (hc : c.score ≠ .pendingEviction) : p.candidate.score ≠ .pendingEviction :=
  (place_induction (P := fun d => d.score ≠ .pendingEviction) (R := fun _ _ => True)
    (fun _ hd _ hc => ⟨(RankedCut.eq_after_of_challenge hc).2 hd, trivial⟩)
    (fun _ _ _ => trivial) h hc).1

theorem sink_cons (c next : RankedCut K) (cuts : Ranking K) :
    (sink threshold g c (next :: cuts)).cuts =
      if next.IsBetterThan c g.tolerances then
        next :: (sink threshold g (c.after threshold g next) cuts).cuts
      else c :: next :: cuts := by
  rw [sink]
  split <;> rfl

theorem settle_cons (inserted c : RankedCut K) (cuts : Ranking K) :
    (settle threshold g inserted (c :: cuts)).cuts =
      (sink threshold g (c.after threshold g inserted)
        (settle threshold g inserted cuts).cuts).cuts := rfl

variable (threshold g) in
theorem submissions_sink (c : RankedCut K) (cuts : Ranking K) :
    ((sink threshold g c cuts).cuts.map (·.submission)).Perm
      (c.submission :: cuts.map (·.submission)) := by
  induction cuts generalizing c with
  | nil => exact .refl _
  | cons next cuts ih =>
    rw [sink_cons]
    split
    · have h := (ih (c.after threshold g next)).cons next.submission
      rw [RankedCut.submission_after] at h
      exact h.trans (.swap _ _ _)
    · exact .refl _

variable (threshold g) in
theorem submissions_settle (inserted : RankedCut K) (cuts : Ranking K) :
    ((settle threshold g inserted cuts).cuts.map (·.submission)).Perm
      (cuts.map (·.submission)) := by
  induction cuts with
  | nil => exact .refl _
  | cons c cuts ih =>
    rw [settle_cons]
    have h := submissions_sink threshold g (c.after threshold g inserted)
      (settle threshold g inserted cuts).cuts
    rw [RankedCut.submission_after] at h
    exact h.trans (ih.cons _)

/-- No cut appears among the displaced ones or leaves them before the tail is trimmed. -/
theorem exists_submission_of_mem_settle {inserted d : RankedCut K} {cuts : Ranking K}
    (h : d ∈ (settle threshold g inserted cuts).cuts) : ∃ c ∈ cuts, c.submission = d.submission :=
  List.mem_map.mp ((submissions_settle threshold g inserted cuts).mem_iff.mp
    (List.mem_map_of_mem h))

theorem forall_mem_sink {P : RankedCut K → Prop}
    (hP : ∀ c better, P c → P better → P (c.after threshold g better)) {c : RankedCut K}
    {cuts : Ranking K}
    (hc : P c) (h : ∀ d ∈ cuts, P d) : ∀ d ∈ (sink threshold g c cuts).cuts, P d := by
  induction cuts generalizing c with
  | nil => simpa [sink] using hc
  | cons next cuts ih =>
    rw [List.forall_mem_cons] at h
    rw [sink_cons]
    split
    · exact List.forall_mem_cons.mpr ⟨h.1, ih (hP c next hc h.1) h.2⟩
    · exact List.forall_mem_cons.mpr ⟨hc, List.forall_mem_cons.mpr h⟩

theorem forall_mem_settle {P : RankedCut K → Prop}
    (hP : ∀ c better, P c → P better → P (c.after threshold g better)) {inserted : RankedCut K}
    {cuts : Ranking K} (h : ∀ d ∈ cuts, P (d.after threshold g inserted)) :
    ∀ d ∈ (settle threshold g inserted cuts).cuts, P d := by
  induction cuts with
  | nil => simp [settle]
  | cons c cuts ih =>
    rw [List.forall_mem_cons] at h
    rw [settle_cons]
    exact forall_mem_sink hP h.1 (ih h.2)

theorem markedLast_sink {c : RankedCut K} {cuts : Ranking K} (h : MarkedLast cuts) :
    MarkedLast (sink threshold g c cuts).cuts := by
  induction cuts generalizing c with
  | nil => simp [sink, MarkedLast]
  | cons next cuts ih =>
    have ht := List.pairwise_cons.mp h
    rw [sink_cons]
    split
    · rename_i hb
      -- a cut that another one sinks past is not marked itself
      have hn := RankedCut.not_pending_of_isBetterThan hb
      exact List.pairwise_cons.mpr ⟨fun d _ hp => absurd hp hn, ih ht.2⟩
    · rename_i hb
      refine List.pairwise_cons.mpr ⟨fun d hd hp => ?_, h⟩
      have hn : next.score = .pendingEviction := by
        simpa [RankedCut.IsBetterThan, hp] using hb
      rcases List.mem_cons.mp hd with rfl | hd
      · exact hn
      · exact ht.1 d hd hn

theorem markedLast_settle (inserted : RankedCut K) (cuts : Ranking K) :
    MarkedLast (settle threshold g inserted cuts).cuts := by
  induction cuts with
  | nil => exact List.Pairwise.nil
  | cons c cuts ih => exact markedLast_sink ih

theorem withoutPendingTail_concat (cuts : Ranking K) (last : RankedCut K) :
    withoutPendingTail (cuts ++ [last]) =
      if last.score.IsPending then withoutPendingTail cuts else cuts ++ [last] := by
  by_cases h : last.score = .pendingEviction <;> simp [withoutPendingTail, h]

theorem withoutPendingTail_eq_self {cuts : Ranking K}
    (h : ∀ c ∈ cuts, c.score ≠ .pendingEviction) : withoutPendingTail cuts = cuts := by
  induction cuts using List.reverseRecOn with
  | nil => rfl
  | append_singleton cuts last =>
    rw [withoutPendingTail_concat, if_neg (by simpa using h last (by simp))]

theorem MarkedLast.not_pending_of_mem {cuts : Ranking K} (h : MarkedLast cuts) :
    ∀ c ∈ withoutPendingTail cuts, c.score ≠ .pendingEviction := by
  induction cuts using List.reverseRecOn with
  | nil => simp [withoutPendingTail]
  | append_singleton cuts last ih =>
    have hp := List.pairwise_append.mp h
    rw [withoutPendingTail_concat]
    split
    · exact ih hp.1
    · rename_i hl
      rw [Score.isPending_iff] at hl
      intro c hc hcp
      rcases List.mem_append.mp hc with hc | hc
      · exact hl (hp.2.2 c hc last (by simp) hcp)
      · exact hl (List.mem_singleton.mp hc ▸ hcp)

theorem concat_top_withoutPendingTail (top rest : Ranking K) {c : RankedCut K}
    (h : c.score ≠ .pendingEviction) :
    top ++ [c] <+: withoutPendingTail (top ++ c :: rest) := by
  induction rest using List.reverseRecOn with
  | nil =>
    have hc : withoutPendingTail (top ++ [c]) = top ++ [c] := by
      rw [withoutPendingTail_concat, if_neg (by simpa using h)]
    exact ⟨[], by rw [hc, List.append_nil]⟩
  | append_singleton rest last ih =>
    rw [← List.cons_append, ← List.append_assoc, withoutPendingTail_concat]
    split
    · exact ih
    · exact ⟨rest ++ [last], by simp⟩

variable (threshold g) in
/-- A ranking with a placed candidate, before any cut has to leave. -/
def seated (p : Placement K) : Ranking K :=
  p.above ++ p.candidate :: (settle threshold g p.candidate p.below).cuts

theorem length_seated_of_place {worst : Option (Score K)} {c : RankedCut K} {cuts : Ranking K}
    {p : Placement K} (h : place threshold g worst c cuts = .ok p) :
    (seated threshold g p).length = cuts.length + 1 := by
  rw [← above_append_below threshold g h]
  simp only [seated, List.length_append, List.length_cons, length_settle]
  omega

variable (threshold g) in
def withinCapacity (p : Placement K) (capacity : Option Nat) : Ranking K :=
  let cuts := seated threshold g p
  let last := if p.candidate.score.IsForced then none else overflow cuts capacity
  if last.isSome then cuts.dropLast else cuts

theorem cuts_ofPlacement (p : Placement K) (capacity : Option Nat) :
    (ofPlacement threshold g p capacity).cuts =
      withoutPendingTail (withinCapacity threshold g p capacity) := rfl

variable (threshold g) in
theorem withinCapacity_cases (p : Placement K) (capacity : Option Nat) :
    withinCapacity threshold g p capacity = (seated threshold g p).dropLast ∨
      withinCapacity threshold g p capacity = seated threshold g p := ite_eq_or_eq _ _ _

variable (threshold g) in
theorem withinCapacity_top (p : Placement K) (capacity : Option Nat) :
    withinCapacity threshold g p capacity <+: seated threshold g p := by
  rcases withinCapacity_cases threshold g p capacity with h | h
  · rw [h]
    exact List.dropLast_prefix _
  · exact ⟨[], by rw [h, List.append_nil]⟩

theorem withinCapacity_eq_seated {p : Placement K} {capacity : Option Nat}
    (h : ¬p.candidate.score.IsForced → ∀ n, capacity = some n →
      (seated threshold g p).length ≤ n) :
    withinCapacity threshold g p capacity = seated threshold g p := by
  unfold withinCapacity
  dsimp only
  split
  · rfl
  · rename_i hf
    cases capacity with
    | none => rfl
    | some n => simp [overflow, Nat.not_lt.mpr (h hf n rfl)]

theorem withinCapacity_eq_dropLast {p : Placement K} {n : Nat}
    (hc : ¬p.candidate.score.IsForced) (hn : n < (seated threshold g p).length)
    (hlast : ∀ c, (seated threshold g p).getLast? = some c → ¬c.score.IsForced) :
    withinCapacity threshold g p (some n) = (seated threshold g p).dropLast := by
  obtain ⟨last, hl⟩ : ∃ last, (seated threshold g p).getLast? = some last :=
    ⟨_, List.getLast?_eq_some_getLast (List.ne_nil_of_length_pos (by omega))⟩
  have hover : overflow (seated threshold g p) (some n) = some last := by
    have hfree := hlast last hl
    rw [Score.isForced_iff] at hfree
    simp [overflow, hn, hl, hfree]
  unfold withinCapacity
  dsimp only
  rw [if_neg hc, hover, Option.isSome_some, if_pos rfl]

variable (threshold g) in
/-- Capacity takes at most the last cut, which is not forced, and only for a scored candidate. -/
theorem exists_popped (p : Placement K) (capacity : Option Nat) :
    withinCapacity threshold g p capacity = seated threshold g p ∨
      ∃ last, seated threshold g p = withinCapacity threshold g p capacity ++ [last] ∧
        ¬last.score.IsForced ∧ ¬p.candidate.score.IsForced ∧
          ∃ n, capacity = some n ∧ n < (seated threshold g p).length := by
  by_cases hforced : p.candidate.score.IsForced
  · exact .inl (withinCapacity_eq_seated fun h => absurd hforced h)
  by_cases hfull : ∃ n, capacity = some n ∧ n < (seated threshold g p).length
  · obtain ⟨n, rfl, hn⟩ := hfull
    obtain ⟨top, last, hlast⟩ : ∃ top last, seated threshold g p = top ++ [last] :=
      ⟨_, _, (List.dropLast_concat_getLast (List.ne_nil_of_length_pos (by omega))).symm⟩
    by_cases hfree : last.score.IsForced
    · left
      have hover : overflow (seated threshold g p) (some n) = none := by
        rw [Score.isForced_iff] at hfree
        simp [overflow, hlast, hfree]
      simp [withinCapacity, hover]
    · right
      refine ⟨last, ?_, hfree, hforced, n, rfl, hn⟩
      rw [withinCapacity_eq_dropLast hforced hn fun c hc => ?_, hlast, List.dropLast_concat]
      rw [hlast, List.getLast?_concat] at hc
      exact Option.some.inj hc ▸ hfree
  · exact .inl (withinCapacity_eq_seated fun _ n hn =>
      Nat.not_lt.mp fun hlt => hfull ⟨n, hn, hlt⟩)

theorem worst_eq_some {cuts : Ranking K} {n : Nat} (hn : n ≠ 0) (h : n ≤ cuts.length) :
    ∃ last, cuts.getLast? = some last ∧ cuts.worst (some n) = some last.score := by
  cases hl : cuts.getLast? with
  | none =>
    rw [List.getLast?_eq_none_iff] at hl
    simp [hl] at h
    omega
  | some last => exact ⟨last, rfl, by simp [worst, h, hl]⟩

/-- The score to beat is the one of the last cut, for a candidate that may have to leave again. -/
theorem bar_cases (cuts : Ranking K) (candidate : RankedCut K) (capacity : Option Nat) :
    cuts.bar candidate capacity = none ∨ ∃ n last, capacity = some n ∧ n ≤ cuts.length ∧
      cuts.getLast? = some last ∧ cuts.bar candidate capacity = some last.score ∧
        ¬candidate.score.IsForced := by
  unfold bar
  split
  · exact .inl rfl
  · rename_i hforced
    cases capacity with
    | none => exact .inl rfl
    | some n =>
      rw [worst]
      split
      · rename_i hn
        cases hl : cuts.getLast? with
        | none => exact .inl rfl
        | some last => exact .inr ⟨n, last, rfl, hn, rfl, rfl, hforced⟩
      · exact .inl rfl

theorem withoutPendingTail_top (cuts : Ranking K) : withoutPendingTail cuts <+: cuts :=
  ⟨(pendingTail cuts).reverse, withoutPendingTail_append cuts⟩

variable (threshold g) in
theorem ofPlacement_top (p : Placement K) (capacity : Option Nat) :
    (ofPlacement threshold g p capacity).cuts <+: seated threshold g p :=
  (withoutPendingTail_top _).trans (withinCapacity_top threshold g p capacity)

/-- The cut next to the candidate stays with it, unless it is marked or the last one. -/
theorem candidate_next_top_ofPlacement {p : Placement K} {next second : RankedCut K}
    {rest : Ranking K} (capacity : Option Nat)
    (hs : (settle threshold g p.candidate p.below).cuts = next :: second :: rest)
    (hn : next.score ≠ .pendingEviction) :
    p.above ++ [p.candidate, next] <+: (ofPlacement threshold g p capacity).cuts := by
  have hkept : ∃ kept, withinCapacity threshold g p capacity =
      (p.above ++ [p.candidate]) ++ next :: kept := by
    rcases withinCapacity_cases threshold g p capacity with h | h
    · exact ⟨(second :: rest).dropLast, by simp [h, seated, hs]⟩
    · exact ⟨second :: rest, by simp [h, seated, hs]⟩
  obtain ⟨kept, hk⟩ := hkept
  have := concat_top_withoutPendingTail (p.above ++ [p.candidate]) kept hn
  rw [← hk, ← cuts_ofPlacement] at this
  simpa using this

/-- If neither the candidate nor a better cut is marked, the marked cuts stand at the tail. -/
theorem markedLast_seated {p : Placement K} (habove : ∀ c ∈ p.above, c.score ≠ .pendingEviction)
    (hc : p.candidate.score ≠ .pendingEviction) : MarkedLast (seated threshold g p) := by
  have hall : ∀ c ∈ p.above ++ [p.candidate], c.score ≠ .pendingEviction := by
    simpa [or_imp, forall_and] using ⟨habove, hc⟩
  rw [seated, ← List.singleton_append, ← List.append_assoc]
  refine List.pairwise_append.mpr ⟨?_, markedLast_settle _ _, ?_⟩
  · exact List.pairwise_iff_forall_sublist.mpr fun hs hp =>
      absurd hp (hall _ (hs.subset (by simp)))
  · exact fun c hc _ _ hp => absurd hp (hall c hc)

variable (threshold g) in
theorem not_pending_of_mem_ofPlacement {p : Placement K} (capacity : Option Nat)
    (habove : ∀ c ∈ p.above, c.score ≠ .pendingEviction)
    (hc : p.candidate.score ≠ .pendingEviction) :
    ∀ c ∈ (ofPlacement threshold g p capacity).cuts, c.score ≠ .pendingEviction :=
  MarkedLast.not_pending_of_mem ((markedLast_seated habove hc).sublist
    (withinCapacity_top threshold g p capacity).sublist)

theorem below_ne_nil_of_place {c last : RankedCut K} {cuts : Ranking K} {p : Placement K}
    (h : place threshold g (some last.score) c cuts = .ok p) (hlast : cuts.getLast? = some last)
    (hc : ¬c.IsOutclassed (some last.score) g.tolerances) : p.below ≠ [] := by
  induction cuts generalizing c p with
  | nil => cases hlast
  | cons better cuts ih =>
    rcases place_cons_eq_ok.mp h with ⟨-, rfl⟩ | ⟨hb, d, q, hd, hq, rfl⟩
    · exact List.cons_ne_nil _ _
    · cases cuts with
      | nil =>
        obtain rfl : better = last := by simpa using hlast
        exact absurd (not_not.mp hc) hb
      | cons next cuts =>
        rw [List.getLast?_cons_cons] at hlast
        exact ih (p := q) hq hlast (RankedCut.not_isOutclassed_of_challenge hd hc)

theorem below_ne_nil_of_offer {cuts : Ranking K} {row : Row K} {valuation : Valuation K}
    {n : Nat} {p : Placement K} (ho : cuts.offer threshold g row valuation (some n) = .ok p)
    (hforced : ¬p.candidate.score.IsForced) (hfull : n ≤ cuts.length) : p.below ≠ [] := by
  obtain ⟨hpos, hbar, hp⟩ := (offer_eq_ok threshold g).mp ho
  obtain ⟨last, hlast, hworst⟩ := worst_eq_some (fun h0 => hpos (congrArg some h0)) hfull
  rw [bar, if_neg ((isForced_of_place hp).not.mp hforced), hworst] at hbar hp
  exact below_ne_nil_of_place hp hlast hbar

/-- An accepted candidate is neither marked nor the cut that has to leave. -/
theorem candidate_stays {cuts : Ranking K} {row : Row K} {valuation : Valuation K}
    {capacity : Option Nat} {p : Placement K}
    (ho : cuts.offer threshold g row valuation capacity = .ok p) :
    p.above ++ [p.candidate] <+: (ofPlacement threshold g p capacity).cuts := by
  have hp := place_of_offer _ _ ho
  suffices hkept : ∃ kept, withinCapacity threshold g p capacity =
      p.above ++ p.candidate :: kept by
    obtain ⟨kept, hkept⟩ := hkept
    rw [cuts_ofPlacement, hkept]
    exact concat_top_withoutPendingTail p.above kept
      (not_pending_of_place hp (RankedCut.not_pending_ofValuation g row valuation))
  by_cases hbelow : p.below = []
  · refine ⟨_, withinCapacity_eq_seated fun hforced n hn => Nat.not_lt.mp fun hlt => ?_⟩
    subst hn
    refine below_ne_nil_of_offer ho hforced ?_ hbelow
    rw [← above_append_below threshold g hp, hbelow, List.append_nil]
    simpa [seated, hbelow, Nat.lt_succ_iff] using hlt
  · have hsettled : (settle threshold g p.candidate p.below).cuts ≠ [] := by
      rwa [← List.length_pos_iff, length_settle, List.length_pos_iff]
    rcases withinCapacity_cases threshold g p capacity with hk | hk
    · refine ⟨(settle threshold g p.candidate p.below).cuts.dropLast, ?_⟩
      rw [hk, seated, List.dropLast_append_of_ne_nil (List.cons_ne_nil _ _),
        List.dropLast_cons_of_ne_nil hsettled]
    · exact ⟨_, hk⟩

theorem row_of_mem_insert {cuts : Ranking K} {row : Row K} {valuation : Valuation K}
    {capacity : Option Nat} {i : Insertion K}
    (h : cuts.insert threshold g row valuation capacity = .ok i) :
    ∀ c ∈ i.cuts, c.row = row ∨ ∃ d ∈ cuts, d.row = c.row := by
  rw [insert_eq_map_offer] at h
  cases ho : cuts.offer threshold g row valuation capacity with
  | error e => simp [ho, Functor.map, Except.map] at h
  | ok p =>
    simp only [ho, Functor.map, Except.map, Except.ok.injEq] at h
    subst h
    have hp := place_of_offer _ _ ho
    have hcuts := above_append_below threshold g hp
    have hcand : p.candidate.row = row := by
      rw [row_of_place hp, RankedCut.row_ofValuation]
    intro c hc
    rcases List.mem_append.mp ((ofPlacement_top threshold g p capacity).subset hc) with hc | hc
    · exact .inr ⟨c, hcuts ▸ List.mem_append_left _ hc, rfl⟩
    · rcases List.mem_cons.mp hc with rfl | hc
      · exact .inl hcand
      · obtain ⟨d, hd, hs⟩ := exists_submission_of_mem_settle hc
        exact .inr ⟨d, hcuts ▸ List.mem_append_right _ hd, (RankedCut.submission_eq_iff.mp hs).1⟩

end Ranking
end CutSelection
