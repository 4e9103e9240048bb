import CutSelection.Proofs.Ranking.Forced

/-!
Capacity. A scored insertion into a full ranking lets the last cut go, which is never a forced one,
since the candidate itself ranks below all of these. A forced insertion lets no cut go, but adds
none that counts. So the scored cuts stay within a capacity that all scored insertions of a round
share, again without any assumption on the scores.
-/

namespace CutSelection
namespace Ranking

variable {K : Type} [Scalar K] {threshold : K} {g : Settings K}

/-- Scored insertions have the given capacity, forced ones may have any. -/
def Call.UsesCapacity (n : Nat) : Call K → Prop
  | .insert _ (.scored _ _) capacity _ => capacity = some n
  | _ => True

def scoredCount (cuts : Ranking K) : Nat := cuts.countP fun c => ¬c.score.IsForced

theorem ForcedFirst.scoredCount_add {rows : List (Row K)} {cuts : Ranking K}
    (h : ForcedFirst rows cuts) : scoredCount cuts + rows.length = cuts.length := by
  obtain ⟨top, rest, rfl, rfl, htop, hrest⟩ := h
  have hnone : top.countP (fun c => ¬c.score.IsForced) = 0 :=
    List.countP_eq_zero.mpr fun c hc => by simpa using htop c hc
  have hall : rest.countP (fun c => ¬c.score.IsForced) = rest.length :=
    List.countP_eq_length.mpr fun c hc => by simpa using hrest c hc
  rw [scoredCount, List.countP_append, hnone, hall, List.length_map, List.length_append]
  omega

variable (threshold g) in
theorem length_ofPlacement_le (p : Placement K) (capacity : Option Nat) :
    (ofPlacement threshold g p capacity).cuts.length ≤
      (withinCapacity threshold g p capacity).length :=
  (withoutPendingTail_top _).length_le

section Offer

variable {rows : List (Row K)} {cuts : Ranking K} {row : Row K} {p : Placement K}

theorem length_of_offer {valuation : Valuation K} {capacity : Option Nat}
    (ho : cuts.offer threshold g row valuation capacity = .ok p) :
    (ofPlacement threshold g p capacity).cuts.length ≤ cuts.length + 1 := by
  rw [← length_seated_of_place (place_of_offer _ _ ho)]
  exact (ofPlacement_top threshold g p capacity).length_le

/-- A scored candidate finds its place without making the ranking longer than it was or than its
capacity. -/
theorem ForcedFirst.length_of_scored (h : ForcedFirst rows cuts) {efficacy scorefactor : K}
    {n : Nat} (ho : cuts.offer threshold g row (.scored efficacy scorefactor) (some n) = .ok p) :
    (ofPlacement threshold g p (some n)).cuts.length ≤ max n cuts.length := by
  obtain ⟨top, rest, rfl, -, htop, hrest⟩ := h
  have hplace := place_of_offer _ _ ho
  have hlength := length_seated_of_place hplace
  have hscored : ¬(RankedCut.ofValuation row g (.scored efficacy scorefactor)).score.IsForced := by
    simp [RankedCut.ofValuation]
  refine (length_ofPlacement_le threshold g p (some n)).trans ?_
  by_cases hfull : n < (seated threshold g p).length
  · obtain ⟨tail, hne, hseated, htail⟩ := exists_seated_of_scored htop hscored hrest hplace
    have hlast : ∀ c, (seated threshold g p).getLast? = some c → ¬c.score.IsForced := by
      intro c hc
      rw [hseated, List.getLast?_append_of_ne_nil _ hne] at hc
      exact htail c (List.mem_of_getLast? hc)
    rw [withinCapacity_eq_dropLast ((isForced_of_place hplace).not.mpr hscored) hfull hlast,
      List.length_dropLast]
    omega
  · exact (withinCapacity_top threshold g p (some n)).length_le.trans
      ((Nat.not_lt.mp hfull).trans (Nat.le_max_left _ _))

theorem ForcedFirst.scoredCount_perform (h : ForcedFirst rows cuts) {after : Ranking K}
    {valuation : Valuation K} {capacity : Option Nat} {n : Nat}
    (hn : (Call.insert row valuation capacity threshold).UsesCapacity n)
    (hp : perform g cuts (.insert row valuation capacity threshold) = .ok after)
    (hcuts : scoredCount cuts ≤ n) : scoredCount after ≤ n := by
  have hbefore := h.scoredCount_add
  have hafter := (h.of_perform hp).scoredCount_add
  rcases perform_insert_eq_ok hp with ⟨rfl, -⟩ | ⟨p, ho, rfl, -⟩
  · exact hcuts
  · cases valuation with
    | scored efficacy scorefactor =>
      obtain rfl : capacity = some n := hn
      have hlength := h.length_of_scored ho
      simp only [forcedRows, List.filterMap_cons_none, List.filterMap_nil, List.append_nil] at hafter
      omega
    | forced =>
      have hcap := ((offer_eq_ok threshold g).mp ho).1
      have hlength := length_of_offer ho
      simp only [forcedRows, List.filterMap_cons, hcap, if_false, List.filterMap_nil,
        List.length_append, List.length_singleton] at hafter
      omega

end Offer

theorem scoredCount_of_run {n : Nat} {calls : List (Call K)} {cuts : Ranking K}
    (h : run g calls = .ok cuts) (hn : ∀ call ∈ round calls, call.UsesCapacity n) :
    scoredCount cuts ≤ n := by
  refine (run_induction (P := fun since cuts => ForcedFirst (forcedRows since) cuts ∧
    ((∀ call ∈ since, call.UsesCapacity n) → scoredCount cuts ≤ n)) ⟨forcedFirst_nil, fun _ => ?_⟩
    (fun row valuation capacity threshold ih hp => ⟨?_, fun hn => ?_⟩) h).2 hn
  · exact Nat.zero_le n
  · rw [forcedRows, List.filterMap_append]
    exact ih.1.of_perform hp
  · rw [List.forall_mem_append, List.forall_mem_singleton] at hn
    exact ih.1.scoredCount_perform hn.2 hp (ih.2 hn.1)

/-- Capacity is kept at all times: if all scored insertions of the current round have the same
capacity, then no more cuts are stored than that, forced ones not counted, whatever room the forced
insertions were given. And whatever happened before, a scored insertion leaves no ranking that is
longer than its capacity and than the ranking before. Scores that are no numbers change nothing. -/
theorem scored_within_capacity {calls : List (Call K)} {cuts : Ranking K}
    (h : run g calls = .ok cuts) :
    (∀ n, (∀ call ∈ round calls, call.UsesCapacity n) →
      (cuts.countP fun c => ¬c.score.IsForced) ≤ n) ∧
      ∀ row efficacy scorefactor n threshold i,
        cuts.insert threshold g row (.scored efficacy scorefactor) (some n) = .ok i →
          i.cuts.length ≤ max n cuts.length := by
  refine ⟨fun n hn => scoredCount_of_run h hn, fun row efficacy scorefactor n threshold i hi => ?_⟩
  obtain ⟨p, ho, rfl⟩ := insert_eq_ok.mp hi
  exact (forcedFirst_of_run h).length_of_scored ho

/-- There is room for two scored cuts. The first score is no number, and the third cut is forced
into a ranking that is full. -/
def crowd : List (Call Float) :=
  [.insert (sampleRow "undefined" 0 [0]) (.scored (0 / 0) 1) (some 2) 0.5,
    .insert (sampleRow "worst" 1 [1]) (.scored 1 1) (some 2) 0.5,
    .insert (sampleRow "forced" 2 [2]) .forced (some 1) 0.5,
    .insert (sampleRow "better" 3 [3]) (.scored 3 1) (some 2) 0.5]

theorem scored_within_capacity_crowd :
    ∃ cuts, run .standard crowd = .ok cuts ∧
      cuts.map (·.row.name) = ["forced", "undefined", "better"] ∧
      (cuts.countP fun c => ¬c.score.IsForced) ≤ 2 ∧
      ∀ i, cuts.insert 0.5 .standard (sampleRow "best" 4 [4]) (.scored 5 1) (some 2) = .ok i →
        i.cuts.length ≤ max 2 cuts.length := by
  have hnames : (run .standard crowd).map (·.map (·.row.name)) =
      .ok ["forced", "undefined", "better"] := by decide +kernel
  cases h : run .standard crowd with
  | error f =>
    rw [h] at hnames
    cases hnames
  | ok cuts =>
    rw [h] at hnames
    obtain ⟨hcount, hlength⟩ := scored_within_capacity h
    refine ⟨cuts, rfl, Except.ok.inj hnames, hcount 2 ?_, hlength _ _ _ _ _⟩
    simp [round, crowd, Call.UsesCapacity]

end Ranking
end CutSelection
