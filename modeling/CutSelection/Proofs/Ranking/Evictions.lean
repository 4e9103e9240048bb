import Mathlib.Data.List.Forall2
import CutSelection.Proofs.Ranking.Records

/-!
Evictions. A cut that leaves a ranking does so for a reason that can be seen in what it leaves
behind: a cut to which it is too parallel, or a ranking that was full. The cuts that a candidate
displaces are traced one by one from their old ranks to the new ones, and each mark is traced to a
cut that is not marked itself, so that the reason for an eviction is never evicted with it.
-/

namespace CutSelection

variable {K : Type} [Scalar K] {threshold : K} {g : Settings K} {rows : Row K → Prop}

namespace RankedCut

theorem isLt_of_reduceBy {c better d : RankedCut K} (h : c.reduceBy threshold g better = some d)
    (hd : d.score.IsPending) :
    g.tolerances.IsLt (c.row.orthogonality better.row.toCut) threshold := by
  rw [reduceBy, reduce] at h
  split at h
  · split at h
    · cases h
    · cases h
      by_contra hlt
      simp [hlt] at hd
  · cases h

theorem challenge_eq_error {worst : Option (Score K)} {c better : RankedCut K} {r : Rejection}
    (h : c.challenge threshold g worst better = .error r) :
    (r = .tooParallel ∧ g.tolerances.IsLt (c.row.orthogonality better.row.toCut) threshold) ∨
      r = .scoreTooLow ∧ worst ≠ none := by
  rw [challenge] at h
  cases hr : c.reduceBy threshold g better with
  | none => simp [hr] at h
  | some d =>
    simp only [hr] at h
    split at h
    · rename_i hd
      cases h
      exact .inl ⟨rfl, isLt_of_reduceBy hr hd⟩
    · split at h
      · rename_i ho
        cases h
        refine .inr ⟨rfl, ?_⟩
        rintro rfl
        exact ho
      · cases h

/-- What comparisons made of a cut. It is the same cut, no more orthogonal than before, and a new
mark on it is due to one of the given cuts that has none. -/
structure LoweredBy (threshold : K) (g : Settings K) (others : Ranking K) (c d : RankedCut K) :
    Prop where
  submission_eq : d.submission = c.submission
  isForced_iff : d.score.IsForced ↔ c.score.IsForced
  orthogonality_le : d.orthogonality ≤ c.orthogonality
  reason : d.score = .pendingEviction → c.score = .pendingEviction ∨
    ∃ better ∈ others, better.score ≠ .pendingEviction ∧
      g.tolerances.IsLt (c.row.orthogonality better.row.toCut) threshold

variable {others others' : Ranking K} {c d e : RankedCut K}

theorem LoweredBy.mono (h : LoweredBy threshold g others c d) (hsub : others ⊆ others') :
    LoweredBy threshold g others' c d :=
  ⟨h.submission_eq, h.isForced_iff, h.orthogonality_le, fun hd =>
    (h.reason hd).imp_right fun ⟨better, hb, hbetter⟩ => ⟨better, hsub hb, hbetter⟩⟩

variable [OrderedScalar K]

theorem IsRecorded.loweredBy_refl (h : c.IsRecorded g rows) (others : Ranking K) :
    LoweredBy threshold g others c c :=
  ⟨rfl, .rfl, OrderedScalar.le_refl h.isFinite_orthogonality, .inl⟩

theorem LoweredBy.trans (h : LoweredBy threshold g others c d)
    (h' : LoweredBy threshold g others d e) : LoweredBy threshold g others c e := by
  have hrow : d.row = c.row := (submission_eq_iff.mp h.submission_eq).1
  refine ⟨h'.submission_eq.trans h.submission_eq, h'.isForced_iff.trans h.isForced_iff,
    OrderedScalar.le_trans h'.orthogonality_le h.orthogonality_le, fun he => ?_⟩
  rcases h'.reason he with hd | hreason
  · exact h.reason hd
  · exact .inr (hrow ▸ hreason)

theorem IsRecorded.loweredBy_after (h : c.IsRecorded g rows) {better : RankedCut K}
    (hm : better ∈ others) (hb : better.score ≠ .pendingEviction) :
    LoweredBy threshold g others c (c.after threshold g better) := by
  refine ⟨submission_after c better, isForced_after_iff, ?_, fun hp => ?_⟩
  · rcases after_cases threshold g c better with ⟨ha, -⟩ | ⟨v, e, -, -, ho, ha⟩
    · rw [ha]
      exact OrderedScalar.le_refl h.isFinite_orthogonality
    · rw [ha]
      exact h.orthogonality_le ho
  · rcases after_cases threshold g c better with ⟨ha, -⟩ | ⟨v, e, -, -, -, ha⟩
    · exact .inl (ha ▸ hp)
    · right
      refine ⟨better, hm, hb, ?_⟩
      by_contra hlt
      rw [ha] at hp
      simp [hlt] at hp

end RankedCut

namespace Ranking

open RankedCut

theorem place_eq_error {worst : Option (Score K)} {c : RankedCut K} {cuts : Ranking K}
    {r : Rejection} (h : place threshold g worst c cuts = .error r) :
    (r = .tooParallel ∧ ∃ better ∈ cuts,
        g.tolerances.IsLt (c.row.orthogonality better.row.toCut) threshold) ∨
      r = .scoreTooLow ∧ worst ≠ none := by
  induction cuts generalizing c with
  | nil => cases h
  | cons better cuts ih =>
    rw [place] at h
    split at h
    · cases h
    · cases hd : c.challenge threshold g worst better with
      | error r' =>
        simp only [hd, bind, Except.bind, Except.error.injEq] at h
        subst h
        rcases challenge_eq_error hd with ⟨hr, hlt⟩ | hlow
        · exact .inl ⟨hr, better, List.mem_cons_self, hlt⟩
        · exact .inr hlow
      | ok d =>
        cases hp : place threshold g worst d cuts with
        | ok q => simp [hd, hp, bind, Except.bind] at h
        | error r' =>
          simp only [hd, hp, bind, Except.bind, Except.error.injEq] at h
          subst h
          obtain ⟨rfl, -⟩ := eq_after_of_challenge hd
          rcases ih hp with ⟨hr, other, hm, hlt⟩ | hlow
          · rw [row_after] at hlt
            exact .inl ⟨hr, other, List.mem_cons_of_mem _ hm, hlt⟩
          · exact .inr hlow

/-- What a reason says about the ranking that a candidate is turned away from. -/
def Gives (cuts : Ranking K) (row : Row K) (capacity : Option Nat) (threshold : K)
    (t : Tolerances K) : Rejection → Prop
  | .noCapacity => capacity = some 0
  | .tooParallel => ∃ better ∈ cuts, t.IsLt (row.orthogonality better.row.toCut) threshold
  | .scoreTooLow => ∃ n, capacity = some n ∧ n ≤ cuts.length

theorem gives_of_offer {cuts : Ranking K} {row : Row K} {valuation : Valuation K}
    {capacity : Option Nat} {r : Rejection}
    (h : cuts.offer threshold g row valuation capacity = .error r) :
    cuts.Gives row capacity threshold g.tolerances r := by
  have hfull : cuts.bar (.ofValuation row g valuation) capacity ≠ none →
      ∃ n, capacity = some n ∧ n ≤ cuts.length := fun hbar => by
    rcases bar_cases cuts (.ofValuation row g valuation) capacity with h | ⟨n, _, hn, hle, -⟩
    · exact absurd h hbar
    · exact ⟨n, hn, hle⟩
  rw [offer] at h
  split at h
  · rename_i hcap
    cases h
    exact hcap
  · dsimp only at h
    split at h
    · rename_i ho
      cases h
      refine hfull fun hbar => ?_
      rw [hbar] at ho
      exact ho
    · rcases place_eq_error h with ⟨rfl, hparallel⟩ | ⟨rfl, hbar⟩
      · rwa [row_ofValuation] at hparallel
      · exact hfull hbar

/-- The cuts that capacity and the trimming of the tail take from a ranking. Either all of them are
marked, or there is only one. -/
theorem exists_lost {p : Placement K} (capacity : Option Nat)
    (hmarked : MarkedLast (seated threshold g p)) :
    ∃ lost, seated threshold g p = (ofPlacement threshold g p capacity).cuts ++ lost ∧
      ((∀ d ∈ lost, d.score = .pendingEviction) ∨
        ∃ d, lost = [d] ∧ ¬d.score.IsForced ∧ ¬p.candidate.score.IsForced ∧
          ∃ n, capacity = some n ∧ n < (seated threshold g p).length) := by
  let kept := withinCapacity threshold g p capacity
  have htrimmed : kept = (ofPlacement threshold g p capacity).cuts ++ (pendingTail kept).reverse :=
    (withoutPendingTail_append kept).symm
  have hpending : ∀ d ∈ (pendingTail kept).reverse, d.score = .pendingEviction := fun d hd => by
    have := List.mem_takeWhile_imp (List.mem_reverse.mp hd)
    simpa using this
  rcases exists_popped threshold g p capacity with hk | ⟨last, hk, hlast, hcand, hn⟩
  · exact ⟨(pendingTail kept).reverse, hk ▸ htrimmed, .inl hpending⟩
  · refine ⟨(pendingTail kept).reverse ++ [last], by rw [hk, ← List.append_assoc, ← htrimmed], ?_⟩
    by_cases hp : last.score = .pendingEviction
    · exact .inl (List.forall_mem_append.mpr ⟨hpending, by simpa using hp⟩)
    · -- above a cut without a mark there is none with a mark
      have hnone : (pendingTail kept).reverse = [] := by
        refine List.eq_nil_iff_forall_not_mem.mpr fun d hd => hp ?_
        have hkept : d ∈ kept := htrimmed ▸ List.mem_append_right _ hd
        rw [hk] at hmarked
        exact (List.pairwise_append.mp hmarked).2.2 d hkept last (by simp) (hpending d hd)
      exact .inr ⟨last, by rw [hnone, List.nil_append], hlast, hcand, hn⟩

theorem exists_of_mem_of_forall₂ {α β : Type} {R : α → β → Prop} {as : List α} {bs : List β}
    (h : List.Forall₂ R as bs) {a : α} (ha : a ∈ as) : ∃ b ∈ bs, R a b := by
  induction h with
  | nil => cases ha
  | cons hab _ ih =>
    rcases List.mem_cons.mp ha with rfl | ha
    · exact ⟨_, List.mem_cons_self, hab⟩
    · obtain ⟨b, hb, hr⟩ := ih ha
      exact ⟨b, List.mem_cons_of_mem _ hb, hr⟩

variable [OrderedScalar K]

variable (threshold) in
/-- A cut that sinks is the only one that changes, and only cuts that it sinks past can mark it. -/
theorem exists_sink (cuts : Ranking K) {c : RankedCut K}
    (hc : c.IsRecorded g fun _ => True) :
    ∃ d, LoweredBy threshold g cuts c d ∧ (sink threshold g c cuts).cuts.Perm (d :: cuts) := by
  induction cuts generalizing c with
  | nil => exact ⟨c, hc.loweredBy_refl _, .refl _⟩
  | cons next cuts ih =>
    rw [sink_cons]
    split
    · rename_i hb
      have hnext : (c.after threshold g next).IsRecorded g fun _ => True := hc.after trivial
      obtain ⟨d, hd, hperm⟩ := ih hnext
      refine ⟨d, ?_, (hperm.cons next).trans (.swap _ _ _)⟩
      exact (hc.loweredBy_after List.mem_cons_self (not_pending_of_isBetterThan hb)).trans
        (hd.mono (List.subset_cons_self _ _))
    · exact ⟨c, hc.loweredBy_refl _, .refl _⟩

variable (threshold) in
/-- Displaced cuts are traced one by one. The cuts that marked them are among those in the end,
since a cut does not change once it has sunk. -/
theorem exists_settle {inserted : RankedCut K} {cuts : Ranking K}
    (hi : inserted.score ≠ .pendingEviction) (hc : ∀ c ∈ cuts, c.IsRecorded g fun _ => True) :
    ∃ after : Ranking K, List.Forall₂ (LoweredBy threshold g (inserted :: after)) cuts after ∧
      (settle threshold g inserted cuts).cuts.Perm after := by
  induction cuts with
  | nil => exact ⟨[], .nil, .refl _⟩
  | cons c cuts ih =>
    rw [List.forall_mem_cons] at hc
    obtain ⟨after, hafter, hperm⟩ := ih hc.2
    have hlowered : (c.after threshold g inserted).IsRecorded g fun _ => True :=
      hc.1.after trivial
    obtain ⟨d, hd, hsink⟩ := exists_sink threshold (settle threshold g inserted cuts).cuts hlowered
    refine ⟨d :: after, .cons ?_ ?_, ?_⟩
    · refine (hc.1.loweredBy_after List.mem_cons_self hi).trans (hd.mono fun b hb => ?_)
      simp [hperm.mem_iff.mp hb]
    · exact hafter.imp fun _ _ h => h.mono (by simp)
    · exact hsink.trans (hperm.cons d)

variable (threshold) in
theorem exists_traced {inserted : RankedCut K} {cuts : Ranking K}
    (hi : inserted.score ≠ .pendingEviction) (hc : ∀ c ∈ cuts, c.IsRecorded g fun _ => True) :
    ∃ before, cuts.Perm before ∧
      List.Forall₂ (LoweredBy threshold g (inserted :: (settle threshold g inserted cuts).cuts))
        before (settle threshold g inserted cuts).cuts := by
  obtain ⟨after, hafter, hperm⟩ := exists_settle threshold hi hc
  have hcomp : Relation.Comp (List.Forall₂ (LoweredBy threshold g (inserted :: after))) List.Perm
      cuts (settle threshold g inserted cuts).cuts := ⟨after, hafter, hperm.symm⟩
  rw [List.forall₂_comp_perm_eq_perm_comp_forall₂] at hcomp
  obtain ⟨before, hbefore, htraced⟩ := hcomp
  exact ⟨before, hbefore, htraced.imp fun _ _ h => h.mono (hperm.symm.cons inserted).subset⟩

/-- An accepted candidate stands between the cuts above it, which stay, and some of those that it
displaced. The others are gone, each for a reason. -/
theorem exists_kept_missing {cuts : Ranking K} (hc : ∀ c ∈ cuts, c.IsRecorded g fun _ => True)
    (hcuts : ∀ c ∈ cuts, c.score ≠ .pendingEviction) {row : Row K} {valuation : Valuation K}
    {capacity : Option Nat} {p : Placement K}
    (ho : cuts.offer threshold g row valuation capacity = .ok p) :
    ∃ rest kept missing : Ranking K,
      (ofPlacement threshold g p capacity).cuts = p.above ++ p.candidate :: rest ∧
        (kept ++ missing).Perm p.below ∧
        List.Forall₂ (fun c d => d.submission = c.submission ∧ d.orthogonality ≤ c.orthogonality)
          kept rest ∧
        ∀ c ∈ missing, ¬c.score.IsForced ∧
          ((∃ d ∈ (ofPlacement threshold g p capacity).cuts,
              g.tolerances.IsLt (c.row.orthogonality d.row.toCut) threshold) ∨
            missing = [c] ∧ ¬p.candidate.score.IsForced ∧
              ∃ n, capacity = some n ∧ n ≤ cuts.length) := by
  have hp := place_of_offer _ _ ho
  have hsplit := above_append_below threshold g hp
  have hbelow : ∀ c ∈ p.below, c ∈ cuts := fun c hb => hsplit ▸ List.mem_append_right _ hb
  have hcand := not_pending_of_place hp (not_pending_ofValuation g row valuation)
  obtain ⟨lost, hlost, hwhy⟩ := exists_lost capacity
    (markedLast_seated (fun c ha => hcuts c (hsplit ▸ List.mem_append_left _ ha)) hcand)
  obtain ⟨rest, hstays⟩ := candidate_stays ho
  rw [List.append_assoc, List.singleton_append] at hstays
  have hsettled : (settle threshold g p.candidate p.below).cuts = rest ++ lost := by
    rw [seated, ← hstays] at hlost
    simpa using hlost
  obtain ⟨before, hbefore, htraced⟩ := exists_traced threshold hcand fun c hb => hc c (hbelow c hb)
  rw [hsettled] at htraced
  have hkept := List.forall₂_take_append _ _ _ htraced
  have hmissing := List.forall₂_drop_append _ _ _ htraced
  refine ⟨rest, before.take rest.length, before.drop rest.length, hstays.symm, ?_,
    hkept.imp fun _ _ h => ⟨h.submission_eq, h.orthogonality_le⟩, fun c hm => ?_⟩
  · rw [List.take_append_drop]
    exact hbefore.symm
  have hc : c ∈ p.below := hbefore.mem_iff.mpr (List.mem_of_mem_drop hm)
  obtain ⟨d, hd, hlow⟩ := exists_of_mem_of_forall₂ hmissing hm
  rcases hwhy with hmarked | ⟨last, rfl, hlast, hforced, n, hn, hlong⟩
  · have hpending := hmarked d hd
    refine ⟨fun hf => ?_, .inl ?_⟩
    · have hf := hlow.isForced_iff.mpr hf
      simp [hpending] at hf
    · obtain ⟨better, hb, hfree, hlt⟩ := (hlow.reason hpending).resolve_left (hcuts c (hbelow c hc))
      refine ⟨better, ?_, hlt⟩
      have hseated : better ∈ seated threshold g p := by
        rw [seated, hsettled]
        exact List.mem_append_right _ hb
      rw [hlost] at hseated
      exact (List.mem_append.mp hseated).resolve_right fun h => hfree (hmarked better h)
  · obtain rfl := List.mem_singleton.mp hd
    refine ⟨hlow.isForced_iff.not.mp hlast, .inr ⟨?_, hforced, n, hn, ?_⟩⟩
    · obtain ⟨c', hone⟩ := List.length_eq_one_iff.mp hmissing.length_eq
      rw [hone] at hm ⊢
      rw [List.mem_singleton.mp hm]
    · rw [length_seated_of_place hp] at hlong
      omega

/-- No cut is lost without a reason. An accepted candidate stands at the position that is reported,
below the same cuts as before. Every other cut was displaced by it: it is the same cut as before, at
most recorded as less orthogonal. A displaced cut that is missing is not forced, and it is too
parallel to a cut that is still there, or it is the only one missing, and the ranking was full. A
rejection changes nothing and gives a reason that holds. -/
theorem accounted_for_of_run {calls : List (Call K)} {cuts : Ranking K}
    (h : run g calls = .ok cuts) (row : Row K) (valuation : Valuation K) (capacity : Option Nat)
    (threshold : K) :
    (∀ i, cuts.insert threshold g row valuation capacity = .ok i →
      i.position ≤ cuts.length ∧ ∃ (candidate : RankedCut K) (rest kept missing : Ranking K),
        i.cuts = cuts.take i.position ++ candidate :: rest ∧
          candidate.submission = (RankedCut.ofValuation row g valuation).submission ∧
          (kept ++ missing).Perm (cuts.drop i.position) ∧
          List.Forall₂ (fun c d => d.row = c.row ∧ d.efficacy = c.efficacy ∧
            d.scorefactor = c.scorefactor ∧ d.orthogonality ≤ c.orthogonality) kept rest ∧
          ∀ c ∈ missing, ¬c.score.IsForced ∧
            ((∃ d ∈ i.cuts, g.tolerances.IsLt (c.row.orthogonality d.row.toCut) threshold) ∨
              missing = [c] ∧ valuation ≠ .forced ∧ ∃ n, capacity = some n ∧ n ≤ cuts.length)) ∧
    (cuts.insert threshold g row valuation capacity = .error .noCapacity ↔ capacity = some 0) ∧
    ∀ r, cuts.insert threshold g row valuation capacity = .error r →
      perform g cuts (.insert row valuation capacity threshold) = .ok cuts ∧
        (r = .tooParallel →
          ∃ d ∈ cuts, g.tolerances.IsLt (d.row.orthogonality row.toCut) threshold) ∧
        (r = .scoreTooLow → ∃ n, capacity = some n ∧ n ≤ cuts.length) := by
  obtain ⟨⟨hrecorded, -⟩, hpending⟩ := recorded_of_run h
  refine ⟨fun i hi => ?_, ?_, fun r hr => ?_⟩
  · obtain ⟨p, ho, rfl⟩ := insert_eq_ok.mp hi
    have hp := place_of_offer _ _ ho
    obtain ⟨rest, kept, missing, hcuts, hperm, hkept, hmissing⟩ :=
      exists_kept_missing (fun c hc => (hrecorded c hc).mono fun _ _ => trivial) hpending ho
    have hforced : ¬p.candidate.score.IsForced → valuation ≠ .forced := by
      rintro hf rfl
      exact hf ((isForced_of_place hp).mpr rfl)
    have hsplit := above_append_below threshold g hp
    refine ⟨?_, p.candidate, rest, kept, missing, ?_, submission_of_place hp, ?_, ?_, ?_⟩
    · rw [← hsplit, List.length_append]
      exact Nat.le_add_right _ _
    · rw [hcuts, ← hsplit]
      change _ = List.take p.above.length _ ++ _
      rw [List.take_left]
    · rw [← hsplit]
      change List.Perm _ (List.drop p.above.length _)
      rwa [List.drop_left]
    · exact hkept.imp fun _ _ hd => by simpa [submission, and_assoc] using hd
    · refine fun c hc => (hmissing c hc).imp_right (Or.imp_right ?_)
      rintro ⟨hone, hf, hfull⟩
      exact ⟨hone, hforced hf, hfull⟩
  · rw [insert_eq_error]
    exact ⟨gives_of_offer, fun hcap => by rw [offer, if_pos hcap]⟩
  · have ho := insert_eq_error.mp hr
    refine ⟨perform_of_offer_error ho, ?_, ?_⟩
    · rintro rfl
      obtain ⟨better, hb, hlt⟩ := gives_of_offer ho
      exact ⟨better, hb, by rwa [Cut.orthogonality_comm]⟩
    · rintro rfl
      exact gives_of_offer ho

theorem accounted_for_displaced :
    ∃ cuts i, run .standard (sampleCalls.take 3) = .ok cuts ∧
      cuts.insert 0.75 .standard (sampleRow "fourth" 3 [1, 3]) (.scored 3 1) (some 10) = .ok i ∧
      cuts.map (·.row.name) = ["second", "first"] ∧
      i.cuts.map (·.row.name) = ["second", "fourth"] ∧
      ∃ kept missing : Ranking Float, (kept ++ missing).Perm (cuts.drop i.position) ∧
        ∀ c ∈ missing, ¬c.score.IsForced ∧
          ((∃ d ∈ i.cuts, Tolerances.standard.IsLt (c.row.orthogonality d.row.toCut) 0.75) ∨
            missing = [c] ∧ 10 ≤ cuts.length) := by
  have hnames : (run .standard (sampleCalls.take 3)).map (fun cuts =>
      (cuts.map (·.row.name),
        (cuts.insert 0.75 .standard (sampleRow "fourth" 3 [1, 3]) (.scored 3 1) (some 10)).map
          (·.cuts.map (·.row.name)))) = .ok (["second", "first"], .ok ["second", "fourth"]) := by
    decide +kernel
  cases hr : run .standard (sampleCalls.take 3) with
  | error f =>
    rw [hr] at hnames
    cases hnames
  | ok cuts =>
    rw [hr] at hnames
    obtain ⟨hbefore, hafter⟩ := Prod.mk.inj (Except.ok.inj hnames)
    cases hi : cuts.insert 0.75 .standard (sampleRow "fourth" 3 [1, 3]) (.scored 3 1)
        (some 10) with
    | error r =>
      rw [hi] at hafter
      cases hafter
    | ok i =>
      rw [hi] at hafter
      obtain ⟨-, _, _, kept, missing, -, -, hperm, -, hmissing⟩ :=
        (accounted_for_of_run hr _ _ _ _).1 i hi
      refine ⟨cuts, i, rfl, hi, hbefore, Except.ok.inj hafter, kept, missing, hperm, fun c hc => ?_⟩
      obtain ⟨hforced, hreason⟩ := hmissing c hc
      refine ⟨hforced, hreason.imp_right ?_⟩
      rintro ⟨hone, -, n, hn, hfull⟩
      rw [← Option.some.inj hn] at hfull
      exact ⟨hone, hfull⟩

end Ranking
end CutSelection
