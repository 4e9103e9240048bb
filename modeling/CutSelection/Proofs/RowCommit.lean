import CutSelection.Proofs.PendingChanges
import CutSelection.Proofs.Positions

/-!
Commits of rows. A row that is stored twice, or that entered the LP after it was stored, is passed
over, so the rows that a commit appends are those that are not in the LP, each of them once. If the
LP refuses one of them, the rows above it are in the LP and the others are not. The storage is
emptied in any case.
-/

namespace CutSelection

variable {K : Type} [Scalar K]

namespace Relaxation

/-- The LP has a variable for each column of the row. -/
def Fits (lp : Relaxation K) (row : Row K) : Prop := row.coefficients.length ≤ lp.variableCount

instance (lp : Relaxation K) (row : Row K) : Decidable (lp.Fits row) :=
  inferInstanceAs (Decidable (_ ≤ _))

/-- The rows that are not in the LP, each of them once, at its first place. -/
def due (lp : Relaxation K) (rows : List (Row K)) : List (Row K) :=
  (rows.filter fun row => row.number ∉ lp.numbers).eraseDupsBy fun a b => a.number == b.number

variable {lp lp' : Relaxation K} {row : Row K} {depth : Nat}

theorem due_cons_of_mem (h : row.number ∈ lp.numbers) (rows : List (Row K)) :
    lp.due (row :: rows) = lp.due rows := by
  rw [due, List.filter_cons_of_neg (by simpa using h)]
  rfl

theorem due_cons_of_not_mem (h : row.number ∉ lp.numbers) (rows : List (Row K)) :
    lp.due (row :: rows) = row :: (rows.filter fun other =>
      other.number ∉ lp.numbers ∧ other.number ≠ row.number).eraseDupsBy
        fun a b => a.number == b.number := by
  rw [due, List.filter_cons_of_pos (by simpa using h), List.eraseDupsBy_cons, List.filter_filter]
  congr 2
  refine List.filter_congr fun other _ => ?_
  simp [and_comm]

theorem due_cons_of_addRow (h : lp.Tracks) (ha : lp.addRow row depth = .ok lp')
    (rows : List (Row K)) : lp.due (row :: rows) = row :: lp'.due rows := by
  rw [due_cons_of_not_mem (h.contains_iff.not.mp (addRow_eq_ok ha).1), due]
  congr 2
  refine List.filter_congr fun other _ => ?_
  simp [numbers_addRow ha]

theorem not_fits_of_addRow {r : Refusal} (hc : ¬lp.Contains row)
    (h : lp.addRow row depth = .error r) : ¬lp.Fits row ∧
      r = .tooManyColumns row.name row.coefficients.length lp.variableCount := by
  rw [addRow, if_neg hc] at h
  split at h
  · rename_i hwide
    cases h
    exact ⟨Nat.not_le.mpr hwide, rfl⟩
  · cases h

/-- The rows that are due are appended up to the first one that does not fit, which is refused. -/
theorem addRows_due (h : lp.Tracks) (depth : Nat) (rows : List (Row K)) :
    (lp.addRows depth rows).added = (lp.due rows).takeWhile (lp.Fits ·) ∧
      (lp.addRows depth rows).refusal = ((lp.due rows).find? (¬lp.Fits ·)).map fun row =>
        .tooManyColumns row.name row.coefficients.length lp.variableCount := by
  induction rows generalizing lp with
  | nil => exact ⟨rfl, rfl⟩
  | cons row rows ih =>
    rw [addRows]
    split
    · rename_i hc
      rw [due_cons_of_mem (h.contains_iff.mp hc)]
      exact ih h
    · split
      · rename_i hc _ refusal ha
        obtain ⟨hwide, rfl⟩ := not_fits_of_addRow hc ha
        rw [due_cons_of_not_mem (h.contains_iff.not.mp hc),
          List.takeWhile_cons_of_neg (by simpa using hwide),
          List.find?_cons_of_pos (by simpa using hwide)]
        exact ⟨rfl, rfl⟩
      · rename_i lp' ha
        obtain ⟨hadded, hrefusal⟩ := ih (h.addRow ha)
        rw [due_cons_of_addRow h ha]
        obtain ⟨-, hfits, rfl⟩ := addRow_eq_ok ha
        change lp.Fits row at hfits
        rw [List.takeWhile_cons_of_pos (by simpa using hfits),
          List.find?_cons_of_neg (by simpa using hfits)]
        exact ⟨congrArg (row :: ·) hadded, hrefusal⟩

end Relaxation

namespace Session

/-- The stored rows that are not in the LP, each of them once, by rank. -/
def pendingRows (s : Session K) : List (Row K) := s.relaxation.due (s.storage.cuts.map (·.row))

/-- The pending rows above the first one that the LP refuses. -/
def acceptedRows (s : Session K) : List (Row K) := s.pendingRows.takeWhile (s.relaxation.Fits ·)

/-- A commit, whatever led to it. The stored bound changes are applied to the node in focus one after
the other, up to the first one that finds the node infeasible. The stored rows that are not in the
LP yet are appended by rank, each of them once, also if the node is infeasible. If one of them is
refused, those ranked above it are appended all the same, and the bounds stay changed. The storage
is emptied, and outside the initial LP every appended row and every applied bound change is counted.
-/
theorem commit_of_reachable {s : Session K} (hs : Reachable s) :
    ∃ tree outcomes,
      BoundChange.Trace s.tree.focus s.storage.settings.tolerances s.tree s.storage.boundChanges
        tree outcomes ∧
      let r := s.perform .apply
      r.state.tree = tree ∧
      r.state.relaxation.rows =
        s.relaxation.rows ++ s.acceptedRows.map (⟨·, s.tree.focusNode.depth⟩) ∧
      (r.state.relaxation.rows.map (·.row.number)).Nodup ∧
      r.result = (match s.pendingRows.find? (¬s.relaxation.Fits ·) with
        | some row => .error (.refusal (.tooManyColumns row.name row.coefficients.length
            s.relaxation.variableCount))
        | none => .ok (.committed (decide (.infeasible ∈ outcomes)))) ∧
      r.state.storage = { s.storage with
        cuts := []
        boundChanges := []
        statistics := { s.storage.statistics with
          foundInRound := 0
          stored := 0
          applied := s.storage.statistics.applied +
            if s.storage.initialLp then 0 else s.acceptedRows.length + outcomes.count .applied
          boundChangesApplied := s.storage.statistics.boundChangesApplied +
            if s.storage.initialLp then 0 else outcomes.count .applied
          rounds := s.storage.statistics.rounds + 1 } } := by
  obtain ⟨tree, outcomes, htrace⟩ := hs.exists_trace
  obtain ⟨htree, hfault, houtcomes⟩ := htrace.applyAll_eq
  have htracks := hs.isBookkept.tracks
  have hnodup := (htracks.addRows s.tree.focusNode.depth (s.storage.cuts.map (·.row))).nodup
  have happended := Relaxation.rows_addRows s.relaxation s.tree.focusNode.depth
    (s.storage.cuts.map (·.row))
  obtain ⟨hadded, hrefusal⟩ := Relaxation.addRows_due htracks s.tree.focusNode.depth
    (s.storage.cuts.map (·.row))
  refine ⟨tree, outcomes, htrace, ?_⟩
  simp only [perform, Session.apply, Storage.applyCuts, hfault, ChangesApplied.count_eq,
    ChangesApplied.infeasible_eq, houtcomes]
  generalize s.relaxation.addRows _ _ = rows at *
  change rows.added = s.acceptedRows at hadded
  rw [hadded] at happended
  refine ⟨htree, happended, hnodup, ?_, ?_⟩
  · rw [hrefusal, pendingRows]
    cases (s.relaxation.due _).find? _ <;> rfl
  · rw [hadded]
    cases s.storage.initialLp <;>
      simp [Storage.endRound, Statistics.endRound, Statistics.countApplied, Nat.add_assoc]

/-- The first row enters the LP after it was stored, the second one is stored twice, and the third
one has too many columns. The last two are bounds on the same variable, of which the upper one is
stored twice and the lower one contradicts it. -/
def overfull : List (Reply Float (Session Float) Answer) :=
  let wide := { Ranking.sampleRow "wide" 2 [] with coefficients := .ofDense (List.replicate 6 1) }
  let above := { Ranking.sampleRow "above" 5 [4] with lhs := some 1, rhs := none }
  let catalogue := [Ranking.sampleRow "first" 0 [0, 1], Ranking.sampleRow "second" 1 [1, 2], wide,
    Ranking.sampleRow "fourth" 3 [2, 3], Ranking.sampleRow "below" 4 [4], above]
  let infinity := Tolerances.standard.infinity
  run (start (catalogue.map (·.toCut)) .standard (List.replicate 5 1)
      (List.replicate 5 ⟨.continuous, some 0, some 1⟩))
    [.add 0 infinity true, .add 1 infinity true, .add 4 1 true, .add 1 infinity true,
      .add 4 1 true, .add 2 infinity true, .add 5 1 true, .add 3 infinity true, .addRow 0 0]

theorem commit_of_reachable_overfull :
    (overfull.getLast?.map fun r =>
        (r.state.storage.cuts.map (·.row.number), r.state.storage.boundChanges.map (·.value))) =
      some ([0, 1, 1, 2, 3], [0, 0, 1]) ∧
    (overfull.getLast?.map fun r =>
        let after := r.state.perform .apply
        (after.result, after.state.relaxation.numbers, after.state.storage.statistics)) =
      some (.error (.refusal (.tooManyColumns "wide" 6 5)), [0, 1],
        { found := 8, foundInRound := 0, stored := 0, applied := 2, boundChangesApplied := 1,
          rounds := 1 }) ∧
    (overfull.getLast?.map fun r =>
        let tree := (r.state.perform .apply).state.tree
        (tree.bound? 0 4 .lower, tree.bound? 0 4 .upper, tree.nodes.map (·.infeasible))) =
      some (some (some 0), some (some 0), [true]) ∧
    ∀ r ∈ overfull, ∃ tree outcomes,
      BoundChange.Trace r.state.tree.focus r.state.storage.settings.tolerances r.state.tree
        r.state.storage.boundChanges tree outcomes ∧
      let after := (r.state.perform .apply).state
      after.tree = tree ∧ after.relaxation.rows =
        r.state.relaxation.rows ++ r.state.acceptedRows.map (⟨·, r.state.tree.focusNode.depth⟩) ∧
      after.storage.cuts = [] ∧ after.storage.boundChanges = [] ∧
      after.storage.statistics.applied = r.state.storage.statistics.applied +
        if r.state.storage.initialLp then 0
        else r.state.acceptedRows.length + outcomes.count .applied := by
  refine ⟨by decide +kernel, by decide +kernel, by decide +kernel, fun r hr => ?_⟩
  have hgoes : ∀ r ∈ overfull, GoesOn r.result := by decide +kernel
  obtain ⟨tree, outcomes, htrace, htree, hrows, -, -, hstorage⟩ :=
    commit_of_reachable (.of_mem_run (.start ..) hr (hgoes r hr))
  refine ⟨tree, outcomes, htrace, htree, hrows, ?_⟩
  rw [hstorage]
  exact ⟨rfl, rfl, rfl⟩

end Session
end CutSelection
