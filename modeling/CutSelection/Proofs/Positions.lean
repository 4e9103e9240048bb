import CutSelection.Proofs.Ranking.Diversity
import CutSelection.Proofs.Steps
import CutSelection.Proofs.Storage

/-!
Positions in the LP. The order of the rows is kept twice, by the list of rows and by the table of
positions, and the two are updated in different ways. Whatever steps are taken, they agree: a row
has the position at which it stands, no row stands at two positions, and a row that is not in the LP
has none, also if it was there before.
-/

namespace CutSelection

variable {K : Type} [Scalar K]

namespace Relaxation

def numbers (lp : Relaxation K) : List Nat := lp.rows.map (·.row.number)

/-- The table says of each row whether it is in the LP, and where. -/
def Tracks (lp : Relaxation K) : Prop :=
  ∀ number i, lp.position number = some i ↔ lp.numbers[i]? = some number

variable {lp lp' : Relaxation K}

theorem numbers_addRow {row : Row K} {depth : Nat} (h : lp.addRow row depth = .ok lp') :
    lp'.numbers = lp.numbers ++ [row.number] := by
  rw [numbers, rows_addRow h, List.map_append]
  rfl

theorem positions_setSolution {solution : List K} (h : lp.setSolution solution = .ok lp') :
    lp'.positions = lp.positions := by
  unfold setSolution at h
  split at h
  · cases h
    rfl
  · cases h

theorem tracks_ofSolution (solution : List K) : (ofSolution solution).Tracks := by
  simp [Tracks, position, ofSolution, numbers]

theorem lookup_zipIdx {numbers : List Nat} (h : numbers.Nodup) {number i : Nat} :
    numbers.zipIdx.lookup number = some i ↔ numbers[i]? = some number := by
  rw [← List.mem_zipIdx_iff_getElem? (x := (number, i))]
  constructor
  · intro hl
    obtain ⟨front, rest, heq, -⟩ := List.lookup_eq_some_iff.mp hl
    simp [heq]
  · intro hm
    obtain ⟨front, rest, heq⟩ := List.append_of_mem hm
    refine List.lookup_eq_some_iff.mpr ⟨front, rest, heq, fun p hp => ?_⟩
    have hnodup : (numbers.zipIdx.map Prod.fst).Nodup := by rwa [List.zipIdx_map_fst]
    rw [heq, List.map_append, List.map_cons, List.nodup_append] at hnodup
    have hne := hnodup.2.2 p.1 (List.mem_map_of_mem hp) number (by simp)
    simpa using hne.symm

theorem numbering_eq (rows : List (LpRow K)) :
    numbering rows = (rows.map (·.row.number)).zipIdx := by
  rw [numbering, List.zipIdx_map]
  rfl

namespace Tracks

theorem position_eq_none_iff (h : lp.Tracks) {number : Nat} :
    lp.position number = none ↔ number ∉ lp.numbers := by
  rw [List.mem_iff_getElem?, Option.eq_none_iff_forall_ne_some]
  simp [h number]

theorem contains_iff (h : lp.Tracks) {row : Row K} :
    lp.Contains row ↔ row.number ∈ lp.numbers := by
  rw [Contains, Option.isSome_iff_ne_none, ne_eq, h.position_eq_none_iff, not_not]

theorem nodup (h : lp.Tracks) : lp.numbers.Nodup := by
  rw [List.nodup_iff_getElem?_ne_getElem?]
  intro i j hij hj heq
  obtain ⟨number, hn⟩ : ∃ number, lp.numbers[j]? = some number :=
    ⟨_, List.getElem?_eq_getElem hj⟩
  have hi := (h number i).mpr (heq.trans hn)
  have hj := (h number j).mpr hn
  exact hij.ne (Option.some.inj (hi.symm.trans hj))

theorem setSolution (h : lp.Tracks) {solution : List K}
    (hs : lp.setSolution solution = .ok lp') : lp'.Tracks := by
  intro number i
  rw [position, positions_setSolution hs, numbers, rows_setSolution hs]
  exact h number i

theorem addRow (h : lp.Tracks) {row : Row K} {depth : Nat}
    (ha : lp.addRow row depth = .ok lp') : lp'.Tracks := by
  have hnew : row.number ∉ lp.numbers := h.contains_iff.not.mp (addRow_eq_ok ha).1
  have hlength : lp.numbers.length = lp.rows.length := List.length_map _
  intro number i
  rw [position_addRow ha, numbers_addRow ha, List.getElem?_append]
  by_cases hn : number = row.number
  · subst hn
    rw [if_pos rfl, ← hlength]
    split
    · rename_i hi
      have hne : lp.numbers[i]? ≠ some row.number := fun heq => hnew (List.mem_of_getElem? heq)
      simp only [hne, iff_false, Option.some.injEq]
      omega
    · rename_i hi
      rw [List.getElem?_singleton]
      simp only [Option.some.injEq, ite_eq_left_iff, reduceCtorEq, imp_false, not_not]
      omega
  · rw [if_neg hn, h number i]
    split
    · rfl
    · rename_i hi
      rw [List.getElem?_eq_none (Nat.not_lt.mp hi), List.getElem?_singleton]
      split <;> simp [Ne.symm hn]

/-- A row that is not kept has no position left: either it was dropped, or it had none before. -/
theorem lookup_others_eq_none (h : lp.Tracks) {depth number : Nat}
    (hn : number ∉ (lp.rows.filter (·.depth ≤ depth)).map (·.row.number)) :
    let dropped := lp.rows.filter (depth < ·.depth)
    (lp.positions.filter fun p => ∀ r ∈ dropped, r.row.number ≠ p.1).lookup number = none := by
  refine List.lookup_eq_none_iff.mpr fun p hp => bne_iff_ne.mpr ?_
  rintro rfl
  rw [List.mem_filter, decide_eq_true_iff] at hp
  have hin : p.1 ∈ lp.numbers := by
    by_contra hout
    have hall := List.lookup_eq_none_iff.mp (h.position_eq_none_iff.mpr hout) p hp.1
    simp at hall
  obtain ⟨r, hr, hnumber⟩ := List.mem_map.mp hin
  by_cases hd : r.depth ≤ depth
  · have hkept : r ∈ lp.rows.filter (·.depth ≤ depth) := by simpa [hr] using hd
    exact hn (List.mem_map.mpr ⟨r, hkept, hnumber⟩)
  · have hdropped : r ∈ lp.rows.filter (depth < ·.depth) := by simpa [hr] using hd
    exact hp.2 r hdropped hnumber

theorem removeRowsBelow (h : lp.Tracks) (depth : Nat) : (lp.removeRowsBelow depth).Tracks := by
  intro number i
  let kept := (lp.rows.filter (·.depth ≤ depth)).map (·.row.number)
  have hkept : kept.Nodup := h.nodup.sublist (List.filter_sublist.map _)
  change (numbering _ ++ _).lookup number = some i ↔ kept[i]? = some number
  rw [List.lookup_append, numbering_eq]
  by_cases hn : number ∈ kept
  · obtain ⟨j, hj⟩ := List.mem_iff_getElem?.mp hn
    have hlookup := (lookup_zipIdx hkept).mpr hj
    rw [hlookup, Option.some_or, ← hlookup]
    exact lookup_zipIdx hkept
  · rw [h.lookup_others_eq_none hn, Option.or_none]
    exact lookup_zipIdx hkept

theorem addRows (h : lp.Tracks) (depth : Nat) (rows : List (Row K)) :
    (lp.addRows depth rows).relaxation.Tracks := by
  induction rows generalizing lp with
  | nil => exact h
  | cons row rows ih =>
    rw [Relaxation.addRows]
    split
    · exact ih h
    · split
      · exact h
      · rename_i hlp
        exact ih (h.addRow hlp)

end Tracks
end Relaxation

namespace Storage

theorem cuts_accept (s : Storage K) (row : Row K) (a : Appraisal K) :
    (s.accept row a).state.cuts = s.cuts ∨
      ∃ i, a = .ranked (.ok i) ∧ (s.accept row a).state.cuts = i.cuts := by
  unfold accept
  split
  · exact .inl rfl
  · exact .inl rfl
  · exact .inl rfl
  · exact .inl rfl
  · rename_i i
    refine .inr ⟨i, rfl, ?_⟩
    dsimp only
    split <;> rfl

theorem row_of_mem_addCut {s : Storage K} {row : Row K} {scorefactor : K} {atRoot : Bool}
    {lp : Relaxation K} {domains : Domains K} {c : RankedCut K}
    (hc : c ∈ (s.addCut row scorefactor atRoot lp domains).state.cuts) :
    c.row = row ∨ ∃ d ∈ s.cuts, d.row = c.row := by
  rcases s.state_addCut row scorefactor atRoot lp domains with hs | ⟨a, ha, hs⟩
  · rw [hs] at hc
    exact .inr ⟨c, hc, rfl⟩
  · rw [hs] at hc
    rcases cuts_accept { s with statistics := s.statistics.countFound } row a with
      heq | ⟨i, rfl, heq⟩
    · rw [heq] at hc
      exact .inr ⟨c, hc, rfl⟩
    · rw [heq] at hc
      rcases appraise_cases ha with ⟨h, -⟩ | ⟨_, _, _, h, -⟩ | ⟨-, valuation, h⟩
      · cases h
      · cases h
      · exact Ranking.row_of_mem_insert (Appraisal.ranked.inj h).symm c hc

end Storage

namespace Session

/-- The stored rows and those in the LP are the ones that the catalogue has under their numbers, and
the LP knows their positions. -/
structure IsBookkept (s : Session K) : Prop where
  tracks : s.relaxation.Tracks
  rows : ∀ r ∈ s.relaxation.rows, s.row r.row.number = .ok r.row
  cuts : ∀ c ∈ s.storage.cuts, s.row c.row.number = .ok c.row

theorem row_number_eq_ok {s : Session K} {number : Nat} {row : Row K}
    (h : s.row number = .ok row) : s.row row.number = .ok row := by
  rw [(row_eq_ok.mp h).2]
  exact h

theorem IsBookkept.step {s t : Session K} (h : s.IsBookkept) (hst : s.Step t) : t.IsBookkept := by
  cases hst with
  | stay => exact h
  | add hrow scorefactor atRoot =>
    refine ⟨h.tracks, h.rows, fun c hc => ?_⟩
    rcases Storage.row_of_mem_addCut hc with hnew | ⟨d, hd, hold⟩
    · rw [hnew]
      exact row_number_eq_ok hrow
    · exact hold ▸ h.cuts d hd
  | apply =>
    rw [Session.apply, Storage.applyCuts]
    dsimp only
    split
    · exact ⟨h.tracks, h.rows, h.cuts⟩
    · refine ⟨h.tracks.addRows _ _, fun r hr => ?_, by simp [Storage.endRound]⟩
      rcases Relaxation.mem_rows_addRows hr with hold | hnew
      · exact h.rows r hold
      · obtain ⟨c, hc, hrow⟩ := List.mem_map.mp hnew
        exact hrow ▸ h.cuts c hc
  | clear => exact ⟨h.tracks, h.rows, by simp [clear, Storage.clear, Storage.endRound]⟩
  | startInitialLp hs =>
    exact ⟨h.tracks, h.rows, (Storage.contents_startInitialLp hs).2.1 ▸ h.cuts⟩
  | endInitialLp hs =>
    exact ⟨h.tracks, h.rows, (Storage.contents_endInitialLp hs).2.1 ▸ h.cuts⟩
  | createChild | focusOn | setBound | change => exact ⟨h.tracks, h.rows, h.cuts⟩
  | setSolution hlp =>
    exact ⟨h.tracks.setSolution hlp, Relaxation.rows_setSolution hlp ▸ h.rows, h.cuts⟩
  | addRow hrow hlp =>
    refine ⟨h.tracks.addRow hlp, fun r hr => ?_, h.cuts⟩
    rw [Relaxation.rows_addRow hlp] at hr
    rcases List.mem_append.mp hr with hold | hnew
    · exact h.rows r hold
    · rw [List.mem_singleton.mp hnew]
      exact row_number_eq_ok hrow
  | removeRows depth =>
    exact ⟨h.tracks.removeRowsBelow depth, fun r hr => h.rows r (List.mem_of_mem_filter hr), h.cuts⟩

theorem Reachable.isBookkept {s : Session K} (h : Reachable s) : s.IsBookkept :=
  h.induction (fun _ _ solution _ =>
    ⟨Relaxation.tracks_ofSolution solution, by simp [Session.start, Relaxation.ofSolution],
      by simp [Session.start]⟩)
    fun ht hst => ht.step hst

theorem IsBookkept.getElem?_numbers {s : Session K} (h : s.IsBookkept) {number : Nat} {row : Row K}
    (hrow : s.row number = .ok row) (i : Nat) : s.relaxation.numbers[i]? = some number ↔
      ∃ depth, s.relaxation.rows[i]? = some ⟨row, depth⟩ := by
  rw [Relaxation.numbers, List.getElem?_map, Option.map_eq_some_iff]
  constructor
  · rintro ⟨r, hr, rfl⟩
    obtain rfl : r.row = row := Except.ok.inj ((h.rows r (List.mem_of_getElem? hr)).symm.trans hrow)
    exact ⟨r.depth, hr⟩
  · rintro ⟨depth, hr⟩
    exact ⟨_, hr, (row_eq_ok.mp hrow).2⟩

theorem IsBookkept.mem_numbers {s : Session K} (h : s.IsBookkept) {number : Nat} {row : Row K}
    (hrow : s.row number = .ok row) :
    number ∈ s.relaxation.numbers ↔ ∃ depth, ⟨row, depth⟩ ∈ s.relaxation.rows := by
  simp only [List.mem_iff_getElem?, h.getElem?_numbers hrow]
  exact exists_comm

theorem result_removeRows (s : Session K) (depth : Nat) :
    (s.removeRows depth).result =
      .ok (.removed (s.relaxation.rows.countP (depth < ·.depth))) := by
  have hlength := List.length_eq_countP_add_countP (fun r : LpRow K => decide (r.depth ≤ depth))
    (l := s.relaxation.rows)
  have hdropped : s.relaxation.rows.countP (fun r => ¬decide (r.depth ≤ depth) = true) =
      s.relaxation.rows.countP (depth < ·.depth) :=
    List.countP_congr fun r _ => by simp
  change Except.ok (Answer.removed (s.relaxation.rows.length -
    (s.relaxation.rows.filter (·.depth ≤ depth)).length)) = _
  rw [← List.countP_eq_length_filter, ← hdropped, hlength, Nat.add_sub_cancel_left]

/-- However rows were added, committed and removed, and whatever was refused, the positions agree
with the LP. A row of the catalogue has a position exactly if the LP holds it there, and no row is
held twice. Backtracking keeps the rows that were added at the depth or above it, in their order,
and reports the number of the others. A row that is refused leaves everything as it is. -/
theorem positions_of_reachable {s : Session K} (hs : Reachable s) :
    (∀ number row, s.row number = .ok row →
      (∀ i, s.relaxation.position number = some i ↔
        ∃ depth, s.relaxation.rows[i]? = some ⟨row, depth⟩) ∧
      (s.relaxation.position number = none ↔ ∀ depth, ⟨row, depth⟩ ∉ s.relaxation.rows)) ∧
    (s.relaxation.rows.map (·.row.number)).Nodup ∧
    (∀ depth,
      (s.perform (.removeRows depth)).state.relaxation.rows =
        s.relaxation.rows.filter (·.depth ≤ depth) ∧
      (s.perform (.removeRows depth)).result =
        .ok (.removed (s.relaxation.rows.countP (depth < ·.depth)))) ∧
    ∀ number depth f, (s.perform (.addRow number depth)).result = .error f →
      (s.perform (.addRow number depth)).state = s := by
  have h := hs.isBookkept
  refine ⟨fun number row hrow => ⟨fun i => ?_, ?_⟩, h.tracks.nodup,
    fun depth => ⟨rfl, result_removeRows s depth⟩, fun _ _ _ => state_quiet_of_error⟩
  · rw [h.tracks number i, h.getElem?_numbers hrow]
  · rw [h.tracks.position_eq_none_iff, h.mem_numbers hrow, not_exists]

/-- The second row is dropped from between two others, one of which is refused when it is added
again, and comes back with a commit. -/
def roundTrip : List (Reply Float (Session Float) Answer) :=
  run (start
      [(Ranking.sampleRow "first" 0 [0, 1]).toCut, (Ranking.sampleRow "second" 1 [1, 2]).toCut,
        (Ranking.sampleRow "third" 2 [2, 3]).toCut]
      .standard (List.replicate 5 1) (List.replicate 5 ⟨.continuous, some 0, some 1⟩))
    [.addRow 0 0, .addRow 1 2, .addRow 2 1, .removeRows 1, .addRow 0 0, .add 1 1 true, .apply]

theorem positions_of_reachable_roundTrip :
    (roundTrip.map (·.state.relaxation.position 1)) =
      [none, some 1, some 1, none, none, none, some 2] ∧
    ∀ r ∈ roundTrip, ∃ row, r.state.row 1 = .ok row ∧
      (r.state.relaxation.position 1 = none ↔ ∀ depth, ⟨row, depth⟩ ∉ r.state.relaxation.rows) := by
  refine ⟨by decide +kernel, fun r hr => ?_⟩
  have hgoes : ∀ r ∈ roundTrip, GoesOn r.result := by decide +kernel
  have hknown : ∀ r ∈ roundTrip, (r.state.row 1).toBool = true := by decide +kernel
  have hpositions := positions_of_reachable (.of_mem_run (.start ..) hr (hgoes r hr))
  cases hrow : r.state.row 1 with
  | error f =>
    have hok := hknown r hr
    rw [hrow] at hok
    cases hok
  | ok row => exact ⟨row, rfl, (hpositions.1 1 row hrow).2⟩

end Session
end CutSelection
