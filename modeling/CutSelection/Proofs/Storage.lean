import CutSelection.Commit

/-!
Operations of the storage by cases: what an accepted cut amounts to, which rows a commit puts into
the LP, and what the operations leave as it is.
-/

namespace CutSelection

variable {K : Type} [Scalar K]

namespace Relaxation

variable {lp : Relaxation K}

theorem addRow_eq_ok {lp' : Relaxation K} {row : Row K} {depth : Nat}
    (h : lp.addRow row depth = .ok lp') :
    ¬lp.Contains row ∧ row.coefficients.length ≤ lp.variableCount ∧
      lp' = { lp with
        rows := lp.rows ++ [⟨row, depth⟩]
        positions := (row.number, lp.rows.length) :: lp.positions } := by
  unfold addRow at h
  split at h
  · cases h
  · rename_i hc
    split at h
    · cases h
    · rename_i hwide
      exact ⟨hc, Nat.not_lt.mp hwide, (Except.ok.inj h).symm⟩

theorem rows_addRow {lp' : Relaxation K} {row : Row K} {depth : Nat}
    (h : lp.addRow row depth = .ok lp') : lp'.rows = lp.rows ++ [⟨row, depth⟩] := by
  obtain ⟨-, -, rfl⟩ := addRow_eq_ok h
  rfl

theorem rows_setSolution {lp' : Relaxation K} {solution : List K}
    (h : lp.setSolution solution = .ok lp') : lp'.rows = lp.rows := by
  unfold setSolution at h
  split at h
  · cases h
    rfl
  · cases h

theorem rows_addRows (lp : Relaxation K) (depth : Nat) (rows : List (Row K)) :
    (lp.addRows depth rows).relaxation.rows =
      lp.rows ++ (lp.addRows depth rows).added.map (⟨·, depth⟩) := by
  induction rows generalizing lp with
  | nil => simp [addRows]
  | cons row rows ih =>
    rw [addRows]
    split
    · exact ih lp
    · split
      · simp
      · rename_i lp' hlp
        dsimp only
        rw [ih lp', rows_addRow hlp, List.append_assoc, List.map_cons, List.singleton_append]

theorem added_addRows_sublist (lp : Relaxation K) (depth : Nat) (rows : List (Row K)) :
    (lp.addRows depth rows).added.Sublist rows := by
  induction rows generalizing lp with
  | nil => exact .slnil
  | cons row rows ih =>
    rw [addRows]
    split
    · exact (ih lp).cons row
    · split
      · exact List.nil_sublist _
      · rename_i lp' hlp
        exact (ih lp').cons_cons row

theorem mem_rows_addRows {depth : Nat} {rows : List (Row K)} {r : LpRow K}
    (hr : r ∈ (lp.addRows depth rows).relaxation.rows) : r ∈ lp.rows ∨ r.row ∈ rows := by
  rw [rows_addRows] at hr
  refine (List.mem_append.mp hr).imp_right fun hnew => ?_
  obtain ⟨row, hrow, rfl⟩ := List.mem_map.mp hnew
  exact (lp.added_addRows_sublist depth rows).subset hrow

end Relaxation

def Appraisal.changes : Appraisal K → List (BoundChange K)
  | .boundChanges changes => changes
  | _ => []

namespace Storage

variable {s : Storage K} {row : Row K}

/-- A cut that passes the redundancy filter, or need not, becomes bound changes if it is on a single
variable. -/
theorem appraise_eq_of_kept {scorefactor : K} {domains : Domains K}
    (h : s.Forces scorefactor ∨ row.isRedundant domains s.settings.tolerances = .ok false)
    (atRoot : Bool) (solution : List K) :
    s.appraise row scorefactor atRoot solution domains = match row.singleEntry with
      | some e => .boundChanges <$> row.boundChanges e domains s.settings.tolerances
      | none => (fun valuation => .ranked (s.cuts.insert (s.settings.threshold atRoot) s.settings row
          valuation (s.capacity atRoot))) <$> s.valuation row scorefactor solution := by
  rw [appraise]
  by_cases hF : s.Forces scorefactor
  · simp only [hF, if_true, bind, Except.bind, Bool.false_eq_true, if_false]
    cases row.singleEntry with
    | some e => rfl
    | none => cases s.valuation row scorefactor solution <;> rfl
  · simp only [hF, if_false, h.resolve_left hF, bind, Except.bind, Bool.false_eq_true]
    cases row.singleEntry with
    | some e => rfl
    | none => cases s.valuation row scorefactor solution <;> rfl

theorem appraise_cases {scorefactor : K} {atRoot : Bool} {solution : List K} {domains : Domains K}
    {a : Appraisal K} (ha : s.appraise row scorefactor atRoot solution domains = .ok a) :
    (a = .redundant ∧ ¬s.Forces scorefactor ∧
        row.isRedundant domains s.settings.tolerances = .ok true) ∨
      (∃ e changes, row.singleEntry = some e ∧ a = .boundChanges changes ∧
        row.boundChanges e domains s.settings.tolerances = .ok changes) ∨
      row.singleEntry = none ∧ ∃ valuation, a = .ranked (s.cuts.insert (s.settings.threshold atRoot)
        s.settings row valuation (s.capacity atRoot)) := by
  by_cases hkept : s.Forces scorefactor ∨ row.isRedundant domains s.settings.tolerances = .ok false
  · rw [appraise_eq_of_kept hkept] at ha
    cases he : row.singleEntry with
    | some e =>
      rw [he] at ha
      cases hc : row.boundChanges e domains s.settings.tolerances with
      | error f => simp [hc, Functor.map, Except.map] at ha
      | ok changes =>
        simp only [hc, Functor.map, Except.map, Except.ok.injEq] at ha
        exact .inr (.inl ⟨e, changes, rfl, ha.symm, hc⟩)
    | none =>
      rw [he] at ha
      cases hv : s.valuation row scorefactor solution with
      | error f => simp [hv, Functor.map, Except.map] at ha
      | ok valuation =>
        simp only [hv, Functor.map, Except.map, Except.ok.injEq] at ha
        exact .inr (.inr ⟨rfl, valuation, ha.symm⟩)
  · obtain ⟨hF, hr⟩ := not_or.mp hkept
    unfold appraise at ha
    cases hred : row.isRedundant domains s.settings.tolerances with
    | error f => simp [hF, hred, bind, Except.bind] at ha
    | ok redundant =>
      cases redundant with
      | true =>
        simp only [hF, hred, if_true, if_false, bind, Except.bind, Except.ok.injEq] at ha
        exact .inl ⟨ha.symm, hF, rfl⟩
      | false => exact absurd hred hr

@[simp] theorem settings_endRound (s : Storage K) (how : RoundEnd) :
    (s.endRound how).1.settings = s.settings := rfl

theorem settings_accept (s : Storage K) (row : Row K) (a : Appraisal K) :
    (s.accept row a).state.settings = s.settings := by
  unfold accept
  split <;> first | rfl | (dsimp only; split <;> rfl)

theorem boundChanges_accept (s : Storage K) (row : Row K) (a : Appraisal K) :
    (s.accept row a).state.boundChanges = s.boundChanges ++ a.changes := by
  unfold accept
  split
  · simp [Appraisal.changes]
  · simp [Appraisal.changes]
  · rfl
  · simp [Appraisal.changes]
  · dsimp only
    split <;> simp [Appraisal.changes]

theorem boundChanges_addCut {scorefactor : K} {atRoot : Bool} {lp : Relaxation K}
    {domains : Domains K} {admission : Admission}
    (h : (s.addCut row scorefactor atRoot lp domains).result = .ok admission) :
    ∃ a, s.appraise row scorefactor atRoot lp.solution domains = .ok a ∧
      (s.addCut row scorefactor atRoot lp domains).state.boundChanges =
        s.boundChanges ++ a.changes := by
  rw [addCut] at h ⊢
  split at h
  · cases h
  · split at h
    · cases h
    · cases ha : s.appraise row scorefactor atRoot lp.solution domains with
      | error f => simp [ha] at h
      | ok a => exact ⟨a, rfl, by simp [*, boundChanges_accept]⟩

/-- A submission stores nothing, or what its cut amounts to. -/
theorem state_addCut (s : Storage K) (row : Row K) (scorefactor : K) (atRoot : Bool)
    (lp : Relaxation K) (domains : Domains K) :
    (s.addCut row scorefactor atRoot lp domains).state = s ∨
      ∃ a, s.appraise row scorefactor atRoot lp.solution domains = .ok a ∧
        (s.addCut row scorefactor atRoot lp domains).state =
          ({ s with statistics := s.statistics.countFound }.accept row a).state := by
  rw [addCut]
  split
  · exact .inl rfl
  · split
    · exact .inl rfl
    · split
      · exact .inl rfl
      · rename_i a ha
        exact .inr ⟨a, ha, rfl⟩

theorem settings_addCut (s : Storage K) (row : Row K) (scorefactor : K) (atRoot : Bool)
    (lp : Relaxation K) (domains : Domains K) :
    (s.addCut row scorefactor atRoot lp domains).state.settings = s.settings := by
  rcases s.state_addCut row scorefactor atRoot lp domains with h | ⟨a, -, h⟩
  · rw [h]
  · rw [h, settings_accept]

theorem settings_applyCuts (s : Storage K) (lp : Relaxation K) (tree : SearchTree K) :
    (s.applyCuts lp tree).state.1.settings = s.settings := by
  rw [applyCuts]
  dsimp only
  split
  · rfl
  · dsimp only [endRound]

/-- A commit without faults and refusals reports whether a change found the node infeasible. -/
theorem applyCuts_of_ok {lp : Relaxation K} {tree : SearchTree K}
    (hc : (BoundChange.applyAll tree.focus s.settings.tolerances tree s.boundChanges).fault = none)
    (hr : (lp.addRows tree.focusNode.depth (s.cuts.map (·.row))).refusal = none) :
    (s.applyCuts lp tree).result =
        .ok (BoundChange.applyAll tree.focus s.settings.tolerances tree s.boundChanges).infeasible ∧
      (s.applyCuts lp tree).state.2.2 =
        (BoundChange.applyAll tree.focus s.settings.tolerances tree s.boundChanges).tree := by
  rw [applyCuts]
  simp [hc, hr]

theorem eq_of_startInitialLp {s' : Storage K} (h : s.startInitialLp = .ok s') :
    s' = { s with initialLp := true } := by
  unfold startInitialLp at h
  split at h
  · cases h
  · split at h
    · cases h
    · exact (Except.ok.inj h).symm

theorem eq_of_endInitialLp {s' : Storage K} (h : s.endInitialLp = .ok s') :
    s' = { s with initialLp := false } := by
  unfold endInitialLp at h
  split at h
  · cases h
  · split at h
    · cases h
    · exact (Except.ok.inj h).symm

theorem contents_startInitialLp {s' : Storage K} (h : s.startInitialLp = .ok s') :
    s'.settings = s.settings ∧ s'.cuts = s.cuts ∧ s'.boundChanges = s.boundChanges := by
  rw [eq_of_startInitialLp h]
  exact ⟨rfl, rfl, rfl⟩

theorem contents_endInitialLp {s' : Storage K} (h : s.endInitialLp = .ok s') :
    s'.settings = s.settings ∧ s'.cuts = s.cuts ∧ s'.boundChanges = s.boundChanges := by
  rw [eq_of_endInitialLp h]
  exact ⟨rfl, rfl, rfl⟩

end Storage
end CutSelection
