import CutSelection.Proofs.Ranking.TotalOrder

/-!
Cuts at right angles to each other. No comparison changes anything then, and a ranking with room for
a given number of cuts holds the best of those that were submitted, in the order that a stable sort
of all of them gives.
-/

namespace CutSelection

open Scalar

section Stable

variable {α : Type} {le : α → α → Bool} (trans : ∀ a b c, le a b → le b c → le a c)
  (total : ∀ a b, le a b || le b a)

include trans total

/-- Sorting is stable: the first entry is inserted before those that tie with it. -/
theorem mergeSort_cons_eq (a : α) (l : List α) :
    (a :: l).mergeSort le = (l.mergeSort le).orderedInsert (fun a b => le a b) a := by
  obtain ⟨front, back, hcons, hsorted, hfront⟩ := List.mergeSort_cons trans total a l
  have hpairwise := List.pairwise_mergeSort trans total (a :: l)
  rw [hcons, List.pairwise_append, List.pairwise_cons] at hpairwise
  have hhead : ∀ b ∈ back.head?, le a b := fun b hb => hpairwise.2.1.1 b (List.mem_of_mem_head? hb)
  rw [hcons, hsorted, List.orderedInsert_eq_take_drop, List.takeWhile_append_of_pos,
    List.dropWhile_append_of_pos]
  · cases back with
    | nil => simp
    | cons b back => simp [hhead b rfl]
  · simpa using hfront
  · simpa using hfront

theorem orderedInsert_comm (a x : α) (l : List α) :
    (l.orderedInsert (fun a b => ¬le b a) a).orderedInsert (fun a b => le a b) x =
      (l.orderedInsert (fun a b => le a b) x).orderedInsert (fun a b => ¬le b a) a := by
  induction l with
  | nil => by_cases h : le x a <;> simp [h]
  | cons b l ih =>
    by_cases hba : le b a
    · by_cases hxb : le x b
      · simp [hba, hxb, trans x b a hxb hba]
      · simpa [hba, hxb] using ih
    · have hab : le a b := by simpa [hba] using total a b
      by_cases hxb : le x b
      · by_cases hxa : le x a <;> simp [hba, hxb, hxa]
      · have hxa : ¬le x a := fun hxa => hxb (trans x a b hxa hab)
        simp [hba, hxb, hxa]

theorem mergeSort_concat (a : α) (l : List α) :
    (l ++ [a]).mergeSort le = (l.mergeSort le).orderedInsert (fun a b => ¬le b a) a := by
  induction l with
  | nil => simp
  | cons x l ih =>
    rw [List.cons_append, mergeSort_cons_eq trans total, mergeSort_cons_eq trans total, ih,
      orderedInsert_comm trans total]

end Stable

theorem mergeSort_concat_of_mem {α : Type} {le : α → α → Bool} {r : α → α → Prop} [DecidableRel r]
    {P : α → Prop} (trans : ∀ a b c, P a → P b → P c → le a b → le b c → le a c)
    (total : ∀ a b, P a → P b → le a b || le b a) (hr : ∀ a b, P a → P b → (r a b ↔ ¬le b a))
    {a : α} {l : List α} (ha : P a) (hl : ∀ b ∈ l, P b) :
    (l ++ [a]).mergeSort le = (l.mergeSort le).orderedInsert r a := by
  lift l to List {a // P a} using hl
  lift a to {a // P a} using ha
  have hmap : ∀ l : List {a // P a}, (l.map Subtype.val).mergeSort le =
      (l.mergeSort fun a b => le a.1 b.1).map Subtype.val := fun l =>
    (List.map_mergeSort (by simp)).symm
  have hconcat := hmap (l ++ [a])
  rw [List.map_append, List.map_singleton] at hconcat
  have hstable : ((l ++ [a]).mergeSort fun a b => le a.1 b.1) =
      (l.mergeSort fun a b => le a.1 b.1).orderedInsert (fun a b => ¬le b.1 a.1) a :=
    mergeSort_concat (fun (x y z : {a // P a}) => trans x y z x.2 y.2 z.2)
      (fun x y => total x y x.2 y.2) a l
  rw [hconcat, hmap, hstable, List.map_orderedInsert _ r]
  · exact fun b _ => (hr b a b.2 a.2).symm
  · exact fun b _ => (hr a b a.2 b.2).symm

/-- The first entries after an insertion are those after an insertion into the first entries. -/
theorem take_orderedInsert {α : Type} (r : α → α → Prop) [DecidableRel r] (a : α) (l : List α)
    (n : Nat) : (l.orderedInsert r a).take n = ((l.take n).orderedInsert r a).take n := by
  induction l generalizing n with
  | nil => simp
  | cons b l ih =>
    cases n with
    | zero => simp
    | succ n =>
      by_cases h : r a b
      · cases n <;> simp [h, List.take_take]
      · simp [h, ih n]

theorem orderedInsert_of_forall_not {α : Type} {r : α → α → Prop} [DecidableRel r] {a : α}
    {l : List α} (h : ∀ b ∈ l, ¬r a b) : l.orderedInsert r a = l ++ [a] := by
  induction l with
  | nil => rfl
  | cons b l ih =>
    rw [List.forall_mem_cons] at h
    rw [List.orderedInsert_of_not_le r l h.1, ih h.2, List.cons_append]

variable {K : Type} [Scalar K] {threshold : K} {g : Settings K}

namespace Ranking

/-- A candidate that no comparison affects is inserted above the first cut that it is better than.
-/
theorem place_of_unaffected (worst : Option (Score K)) {c : RankedCut K} {cuts : Ranking K}
    (h : ∀ better ∈ cuts, c.reduceBy threshold g better = none) :
    ∃ p, place threshold g worst c cuts = .ok p ∧ p.candidate = c ∧
      p.above ++ c :: p.below = cuts.orderedInsert (·.IsBetterThan · g.tolerances) c := by
  induction cuts with
  | nil => exact ⟨⟨[], c, []⟩, rfl, rfl, rfl⟩
  | cons better cuts ih =>
    rw [List.forall_mem_cons] at h
    by_cases hb : c.IsBetterThan better g.tolerances
    · exact ⟨⟨[], c, better :: cuts⟩, place_cons_eq_ok.mpr (.inl ⟨hb, rfl⟩), rfl, by simp [hb]⟩
    · obtain ⟨q, hq, hcand, hsplit⟩ := ih h.2
      have hd : c.challenge threshold g worst better = .ok c := by
        rw [RankedCut.challenge, h.1]
      refine ⟨{ q with above := better :: q.above },
        place_cons_eq_ok.mpr (.inr ⟨hb, c, q, hd, hq, rfl⟩), hcand, ?_⟩
      simp [hb, ← hsplit]

theorem sink_of_sorted {c : RankedCut K} {cuts : Ranking K}
    (h : Sorted g.tolerances (c :: cuts)) : (sink threshold g c cuts).cuts = c :: cuts := by
  cases cuts with
  | nil => rfl
  | cons next cuts => rw [sink_cons, if_neg h.1]

theorem settle_of_unaffected {inserted : RankedCut K} {cuts : Ranking K}
    (h : ∀ c ∈ cuts, c.reduceBy threshold g inserted = none) (hs : Sorted g.tolerances cuts) :
    (settle threshold g inserted cuts).cuts = cuts := by
  induction cuts with
  | nil => rfl
  | cons c cuts ih =>
    rw [List.forall_mem_cons] at h
    have hrest : Sorted g.tolerances cuts :=
      sorted_iff_isChain.mpr (sorted_iff_isChain.mp hs).tail
    rw [settle_cons, RankedCut.after_eq_getD, h.1, ih h.2 hrest]
    exact sink_of_sorted hs

theorem withinCapacity_eq_take {p : Placement K} {n : Nat}
    (hforced : ∀ c ∈ seated threshold g p, ¬c.score.IsForced)
    (hn : (seated threshold g p).length ≤ n + 1) :
    withinCapacity threshold g p (some n) = (seated threshold g p).take n := by
  have hcand : ¬p.candidate.score.IsForced := hforced p.candidate (by simp [seated])
  by_cases hfull : n < (seated threshold g p).length
  · rw [withinCapacity_eq_dropLast hcand hfull fun c hc => hforced c (List.mem_of_getLast? hc),
      List.dropLast_eq_take]
    congr 1
    omega
  · rw [withinCapacity_eq_seated, List.take_of_length_le (Nat.not_lt.mp hfull)]
    exact fun _ m hm => by
      cases hm
      exact Nat.not_lt.mp hfull

variable [OrderedScalar K]

/-- A cut that was never lowered, with a score that did not overflow. -/
def IsFresh (c : RankedCut K) : Prop :=
  c.orthogonality = 1 ∧ ∃ v, c.score = .finite v ∧ OrderedScalar.IsFinite v

theorem IsFresh.isFinite {c : RankedCut K} (h : IsFresh c) : c.score.IsFinite := by
  obtain ⟨-, v, hv, hf⟩ := h
  rw [hv]
  exact hf

theorem IsFresh.not_isForced {c : RankedCut K} (h : IsFresh c) : ¬c.score.IsForced := by
  obtain ⟨-, v, hv, -⟩ := h
  simp [hv]

theorem IsFresh.not_pending {c : RankedCut K} (h : IsFresh c) : c.score ≠ .pendingEviction := by
  obtain ⟨-, v, hv, -⟩ := h
  simp [hv]

theorem IsFresh.reduceBy_eq_none {c better : RankedCut K} (h : IsFresh c)
    (ho : c.row.orthogonality better.row.toCut = 1) : c.reduceBy threshold g better = none := by
  rw [RankedCut.reduceBy, ho, RankedCut.reduce]
  split
  · rw [if_pos (h.1.symm ▸ GradedScalar.one_le_one)]
  · rfl

theorem descending_orderedInsert (h0 : IsZero g.tolerances.epsilon) {c : RankedCut K}
    {cuts : Ranking K} (hd : Descending cuts) (hc : c.score.IsFinite)
    (hf : ∀ d ∈ cuts, d.score.IsFinite) :
    Descending (cuts.orderedInsert (·.IsBetterThan · g.tolerances) c) := by
  induction cuts with
  | nil => exact List.pairwise_singleton _ _
  | cons next cuts ih =>
    have hcons := List.pairwise_cons.mp hd
    rw [List.forall_mem_cons] at hf
    rw [List.orderedInsert_cons]
    split
    · rename_i hb
      have hle := Score.atMost_of_isBetterThan h0 hb
      exact List.pairwise_cons.mpr ⟨List.forall_mem_cons.mpr
        ⟨hle, fun d hm => (hcons.1 d hm).trans hle⟩, hd⟩
    · rename_i hb
      refine List.pairwise_cons.mpr ⟨fun d hm => ?_, ih hcons.2 hf.2⟩
      rcases List.mem_orderedInsert _ |>.mp hm with rfl | hm
      · exact Score.atMost_of_not_isBetterThan h0 hc hf.1 hb
      · exact hcons.1 d hm

theorem orderedInsert_of_isOutclassed (h0 : IsZero g.tolerances.epsilon) {c last : RankedCut K}
    {cuts : Ranking K} (hd : Descending cuts) (hc : c.score.IsFinite)
    (hf : ∀ d ∈ cuts, d.score.IsFinite) (hlast : cuts.getLast? = some last)
    (ho : c.IsOutclassed (some last.score) g.tolerances) :
    cuts.orderedInsert (·.IsBetterThan · g.tolerances) c = cuts ++ [c] := by
  have hfinite := hf last (List.mem_of_getLast? hlast)
  have hle := hd.last_atMost (Score.atMost_refl hfinite) hlast
  exact orderedInsert_of_forall_not fun d hm hb =>
    ho (Score.IsBetterThan.mono h0 hb (Score.atMost_refl hc) id (hle d hm) fun _ => hfinite)

theorem cuts_ofPlacement_of_fresh {p : Placement K} {n : Nat}
    (hf : ∀ c ∈ p.above ++ p.candidate :: p.below, IsFresh c)
    (hup : ∀ d ∈ p.below, d.reduceBy threshold g p.candidate = none)
    (hs : Sorted g.tolerances p.below)
    (hn : (p.above ++ p.candidate :: p.below).length ≤ n + 1) :
    (ofPlacement threshold g p (some n)).cuts = (p.above ++ p.candidate :: p.below).take n := by
  have hseated : seated threshold g p = p.above ++ p.candidate :: p.below := by
    rw [seated, settle_of_unaffected hup hs]
  rw [← hseated] at hf hn ⊢
  rw [cuts_ofPlacement, withinCapacity_eq_take (fun c hm => (hf c hm).not_isForced) hn]
  exact withoutPendingTail_eq_self fun c hm => (hf c (List.mem_of_mem_take hm)).not_pending

section RightAngle

variable (h0 : IsZero g.tolerances.epsilon) {n : Nat} {cuts : Ranking K} (hn : cuts.length ≤ n)
  (hd : Descending cuts) (hf : ∀ d ∈ cuts, IsFresh d)

include h0 hn hd hf

theorem exists_place_of_fresh (worst : Option (Score K)) {c : RankedCut K} (hc : IsFresh c)
    (hright : ∀ d ∈ cuts, c.row.orthogonality d.row.toCut = 1) :
    ∃ p, place threshold g worst c cuts = .ok p ∧
      (ofPlacement threshold g p (some n)).cuts =
        (cuts.orderedInsert (·.IsBetterThan · g.tolerances) c).take n := by
  obtain ⟨p, hp, rfl, hsplit⟩ :=
    place_of_unaffected worst fun d hm => hc.reduceBy_eq_none (hright d hm)
  have hbelow : ∀ d ∈ p.below, d ∈ cuts := fun d hm =>
    above_append_below threshold g hp ▸ List.mem_append_right _ hm
  refine ⟨p, hp, ?_⟩
  rw [cuts_ofPlacement_of_fresh, hsplit]
  · rw [hsplit]
    intro d hm
    rcases (List.mem_orderedInsert _).mp hm with rfl | hm
    · exact hc
    · exact hf d hm
  · intro d hm
    refine (hf d (hbelow d hm)).reduceBy_eq_none ?_
    rw [Cut.orthogonality_comm, hright d (hbelow d hm)]
  · exact Descending.sorted h0
      (hd.sublist (above_append_below threshold g hp ▸ List.sublist_append_right _ _))
  · rw [hsplit, List.orderedInsert_length]
    omega

theorem perform_of_fresh {row : Row K} {valuation : Valuation K}
    (hc : IsFresh (.ofValuation row g valuation))
    (hright : ∀ d ∈ cuts, row.orthogonality d.row.toCut = 1) :
    perform g cuts (.insert row valuation (some n) threshold) =
      .ok ((cuts.orderedInsert (·.IsBetterThan · g.tolerances)
        (.ofValuation row g valuation)).take n) := by
  have hfinite : ∀ d ∈ cuts, d.score.IsFinite := fun d hm => (hf d hm).isFinite
  by_cases hz : n = 0
  · obtain rfl : cuts = [] := List.length_eq_zero_iff.mp (by omega)
    rw [perform_of_offer_error (r := .noCapacity) (by simp [offer, hz]), hz, List.take_zero]
  by_cases ho : (RankedCut.ofValuation row g valuation).IsOutclassed
      (cuts.bar (.ofValuation row g valuation) (some n)) g.tolerances
  · -- the ranking is full, and the candidate would be the one to leave
    rw [perform_of_offer_error (r := .scoreTooLow) (by simp [offer, hz, ho])]
    rcases bar_cases cuts (.ofValuation row g valuation) (some n) with
      hbar | ⟨m, last, hm, hle, hlast, hbar, -⟩
    · rw [hbar] at ho
      exact ho.elim
    · cases hm
      rw [hbar] at ho
      rw [orderedInsert_of_isOutclassed h0 hd hc.isFinite hfinite hlast ho,
        List.take_left' (by omega)]
  · obtain ⟨p, hp, hcuts⟩ := exists_place_of_fresh h0 hn hd hf
      (cuts.bar (.ofValuation row g valuation) (some n)) hc (by simpa using hright)
    have hoffer := (offer_eq_ok threshold g).mpr ⟨by simpa using hz, ho, hp⟩
    have hsorted := Descending.sorted h0
      ((descending_orderedInsert h0 hd hc.isFinite hfinite).sublist (List.take_sublist n _))
    rw [← hcuts] at hsorted ⊢
    exact perform_of_offer_ok hoffer hsorted

end RightAngle

/-- A cut that competes, and the threshold that it is inserted with. -/
structure Contender (K : Type) [Scalar K] where
  row : Row K
  efficacy : K
  scorefactor : K
  threshold : K

namespace Contender

def valuation (c : Contender K) : Valuation K := .scored c.efficacy c.scorefactor

def call (capacity : Nat) (c : Contender K) : Call K :=
  .insert c.row c.valuation (some capacity) c.threshold

def cut (g : Settings K) (c : Contender K) : RankedCut K := .ofValuation c.row g c.valuation

end Contender

theorem isFresh_cut {c : Contender K} (h : (c.cut g).score.IsFinite) : IsFresh (c.cut g) :=
  ⟨rfl, _, rfl, h⟩

/-- The best of the cuts that were submitted, the earlier one first if two of them tie. -/
def best (g : Settings K) (n : Nat) (contenders : List (Contender K)) : Ranking K :=
  ((contenders.map (·.cut g)).mergeSort fun c d => d.score.AtMost c.score).take n

omit [OrderedScalar K] in
theorem mem_best {n : Nat} {contenders : List (Contender K)} {c : RankedCut K}
    (h : c ∈ best g n contenders) : ∃ a ∈ contenders, a.cut g = c := by
  have h := List.mem_of_mem_take h
  rwa [List.mem_mergeSort, List.mem_map] at h

theorem best_concat (h0 : IsZero g.tolerances.epsilon) (n : Nat) {contenders : List (Contender K)}
    {c : Contender K} (hf : ∀ a ∈ contenders, (a.cut g).score.IsFinite)
    (hc : (c.cut g).score.IsFinite) :
    best g n (contenders ++ [c]) =
      ((best g n contenders).orderedInsert (·.IsBetterThan · g.tolerances)
        (c.cut g)).take n := by
  have hsort : (contenders.map (·.cut g) ++ [c.cut g]).mergeSort
      (fun c d => d.score.AtMost c.score) =
        ((contenders.map (·.cut g)).mergeSort fun c d => d.score.AtMost c.score).orderedInsert
          (·.IsBetterThan · g.tolerances) (c.cut g) := by
    refine mergeSort_concat_of_mem (P := fun c => c.score.IsFinite) (fun a b c _ _ _ hab hbc => ?_)
      (fun a b ha hb => ?_) (fun a b ha hb => ?_) hc (by simpa using hf)
    · rw [decide_eq_true_iff] at hab hbc ⊢
      exact hbc.trans hab
    · simpa using Score.atMost_total hb ha
    · rw [decide_eq_true_iff]
      exact Score.isBetterThan_iff h0 ha hb
  rw [best, best, List.map_append, List.map_singleton, hsort, take_orderedInsert]

/-- If all cuts are at right angles, a ranking with room for `n` cuts holds the first `n` entries of
the stable sort of what was submitted, best score first. -/
theorem run_eq_best (h0 : IsZero g.tolerances.epsilon) (n : Nat)
    {contenders : List (Contender K)} (hf : ∀ c ∈ contenders, (c.cut g).score.IsFinite)
    (hright : contenders.Pairwise fun a b => a.row.orthogonality b.row.toCut = 1) :
    run g (contenders.map (·.call n)) = .ok (best g n contenders) := by
  suffices hdescending : run g (contenders.map (·.call n)) = .ok (best g n contenders) ∧
      Descending (best g n contenders) from hdescending.1
  induction contenders using List.reverseRecOn with
  | nil => exact ⟨by simp [run, best, pure, Except.pure], by simp [best, Descending]⟩
  | append_singleton contenders c ih =>
    rw [List.forall_mem_append, List.forall_mem_singleton] at hf
    obtain ⟨hfirst, -, hangle⟩ := List.pairwise_append.mp hright
    obtain ⟨hrun, hdescending⟩ := ih hf.1 hfirst
    have hfresh : ∀ d ∈ best g n contenders, IsFresh d := fun d hd => by
      obtain ⟨a, ha, rfl⟩ := mem_best hd
      exact isFresh_cut (hf.1 a ha)
    have hangle' : ∀ d ∈ best g n contenders, c.row.orthogonality d.row.toCut = 1 := fun d hd => by
      obtain ⟨a, ha, rfl⟩ := mem_best hd
      rw [Cut.orthogonality_comm]
      exact hangle a ha c (by simp)
    rw [best_concat h0 n hf.1 hf.2]
    refine ⟨?_, List.Pairwise.sublist (List.take_sublist n _)
      (descending_orderedInsert h0 hdescending hf.2 fun d hd => (hfresh d hd).isFinite)⟩
    rw [List.map_append, List.map_singleton]
    exact run_concat_eq_ok.mpr ⟨_, hrun, perform_of_fresh h0 (List.length_take_le n _) hdescending
      hfresh (isFresh_cut hf.2) hangle'⟩

/-- Cuts on a variable each. Three of them tie, and there is room for one of these. -/
def rivals : List (Contender Float) :=
  [⟨sampleRow "first" 0 [0], 1, 1, 0.5⟩, ⟨sampleRow "opposed" 1 [1], 0, -1, 0.5⟩,
    ⟨sampleRow "second" 2 [2], 1, 1, 0.5⟩, ⟨sampleRow "best" 3 [3], 2, 1, 0.5⟩,
    ⟨sampleRow "third" 4 [4], 1, 1, 0.5⟩]

theorem best_rivals :
    run sharp (rivals.map (·.call 2)) = .ok (best sharp 2 rivals) ∧
      (best sharp 2 rivals).map (·.row.name) = ["best", "first"] := by
  have hnames : (run sharp (rivals.map (·.call 2))).map (·.map (·.row.name)) =
      .ok ["best", "first"] := by decide +kernel
  have hrun : run sharp (rivals.map (·.call 2)) = .ok (best sharp 2 rivals) :=
    run_eq_best (by decide +kernel) 2 (by decide +kernel) (by decide +kernel)
  rw [hrun] at hnames
  exact ⟨hrun, Except.ok.inj hnames⟩

end Ranking
end CutSelection
