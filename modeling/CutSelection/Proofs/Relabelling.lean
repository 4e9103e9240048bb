import CutSelection.Proofs.Ranking.Relabelling
import CutSelection.Proofs.Steps
import CutSelection.Proofs.Storage

/-!
Sessions with their rows exchanged. The storage looks at a submitted row for its sides, its bounds
and its efficacy. If these are the same for the row that it is exchanged for, and the angles to
other rows too, then all steps have the same outcome, and they leave sessions that differ in the
rows alone.
-/

namespace CutSelection

variable {K : Type} [Scalar K] (ρ : Relabelling K)

/-- A row and the one that it is exchanged for are of the same value at a submission. -/
structure Relabelling.Preserves (g : Settings K) (row : Row K) : Prop where
  hasFiniteSide : (ρ.row row).HasFiniteSide ↔ row.HasFiniteSide
  isRedundant : ∀ domains,
    (ρ.row row).isRedundant domains g.tolerances = row.isRedundant domains g.tolerances
  boundChanges : ∀ domains,
    (ρ.row row).singleEntry.map ((ρ.row row).boundChanges · domains g.tolerances) =
      row.singleEntry.map (row.boundChanges · domains g.tolerances)
  efficacy : ∀ solution,
    (ρ.row row).efficacy solution g.efficacyNorm g.tolerances.epsilon =
      row.efficacy solution g.efficacyNorm g.tolerances.epsilon

def Reply.mapState {S T α : Type} (f : S → T) (r : Reply K S α) : Reply K T α :=
  ⟨f r.state, r.events, r.result⟩

def LpRow.relabel (r : LpRow K) : LpRow K := ⟨ρ.row r.row, r.depth⟩

def Relaxation.relabel (lp : Relaxation K) : Relaxation K :=
  { lp with rows := lp.rows.map (LpRow.relabel ρ) }

def RowsAdded.relabel (r : RowsAdded K) : RowsAdded K :=
  ⟨r.relaxation.relabel ρ, r.added.map ρ.row, r.refusal⟩

def Appraisal.relabel : Appraisal K → Appraisal K
  | .redundant => .redundant
  | .boundChanges changes => .boundChanges changes
  | .ranked outcome => .ranked (Insertion.relabel ρ <$> outcome)

def Storage.relabel (s : Storage K) : Storage K := { s with cuts := s.cuts.relabel ρ }

def Session.relabel (s : Session K) : Session K where
  catalogue := s.catalogue.mapIdx fun number cut => (ρ.row ⟨cut, number⟩).toCut
  storage := s.storage.relabel ρ
  relaxation := s.relaxation.relabel ρ
  tree := s.tree

variable {ρ}

namespace Relaxation

variable (lp : Relaxation K) (row : Row K) (depth : Nat)

theorem contains_relabel : (lp.relabel ρ).Contains (ρ.row row) ↔ lp.Contains row := by
  simp only [Contains, position, relabel, ρ.number_row]

theorem addRow_relabel :
    (lp.relabel ρ).addRow (ρ.row row) depth = relabel ρ <$> lp.addRow row depth := by
  have hcount : (lp.relabel ρ).variableCount = lp.variableCount := rfl
  rw [addRow, addRow, if_congr (lp.contains_relabel row) rfl rfl, hcount, ρ.length_row, ρ.name_row]
  split
  · rfl
  · split
    · rfl
    · simp only [relabel, ρ.number_row, List.length_map, Functor.map, Except.map, List.map_append]
      rfl

theorem addRows_relabel (rows : List (Row K)) :
    (lp.relabel ρ).addRows depth (rows.map ρ.row) = (lp.addRows depth rows).relabel ρ := by
  induction rows generalizing lp with
  | nil => rfl
  | cons row rows ih =>
    rw [List.map_cons, addRows, addRows, if_congr (lp.contains_relabel row) rfl rfl,
      addRow_relabel]
    split
    · exact ih lp
    · cases lp.addRow row depth with
      | error r => rfl
      | ok lp =>
        simp only [Functor.map, Except.map, ih]
        rfl

theorem setSolution_relabel (solution : List K) :
    (lp.relabel ρ).setSolution solution = relabel ρ <$> lp.setSolution solution := by
  have hcount : (lp.relabel ρ).variableCount = lp.variableCount := rfl
  rw [setSolution, setSolution, hcount]
  split <;> rfl

theorem numbering_relabel (rows : List (LpRow K)) :
    numbering (rows.map (LpRow.relabel ρ)) = numbering rows := by
  rw [numbering, numbering, List.zipIdx_map, List.map_map]
  exact List.map_congr_left fun r _ => congrArg (·, r.2) (ρ.number_row r.1.row)

theorem removeRowsBelow_relabel :
    (lp.relabel ρ).removeRowsBelow depth = (lp.removeRowsBelow depth).relabel ρ := by
  have hkept : (lp.relabel ρ).rows.filter (·.depth ≤ depth) =
      (lp.rows.filter (·.depth ≤ depth)).map (LpRow.relabel ρ) := List.filter_map ..
  have hdropped : (lp.relabel ρ).rows.filter (depth < ·.depth) =
      (lp.rows.filter (depth < ·.depth)).map (LpRow.relabel ρ) := List.filter_map ..
  simp only [removeRowsBelow, hkept, hdropped, numbering_relabel, List.forall_mem_map]
  simp only [LpRow.relabel, ρ.number_row]
  rfl

end Relaxation

namespace Storage

variable (s : Storage K) {row : Row K} (scorefactor : K) (atRoot : Bool)

theorem valuation_relabel (h : ρ.Preserves s.settings row) (solution : List K) :
    (s.relabel ρ).valuation (ρ.row row) scorefactor solution =
      s.valuation row scorefactor solution := by
  rw [valuation, valuation]
  exact congrArg _ (congrArg _ (h.efficacy solution))

theorem insert_relabel (valuation : Valuation K) :
    (s.relabel ρ).cuts.insert (s.settings.threshold atRoot) s.settings (ρ.row row) valuation
        (s.capacity atRoot) =
      Insertion.relabel ρ <$> s.cuts.insert (s.settings.threshold atRoot) s.settings row valuation
        (s.capacity atRoot) :=
  s.cuts.insert_relabel row valuation (s.capacity atRoot)

theorem appraise_relabel (h : ρ.Preserves s.settings row) (solution : List K)
    (domains : Domains K) :
    (s.relabel ρ).appraise (ρ.row row) scorefactor atRoot solution domains =
      Appraisal.relabel ρ <$> s.appraise row scorefactor atRoot solution domains := by
  have hforces : (s.relabel ρ).Forces scorefactor ↔ s.Forces scorefactor := .rfl
  have hsettings : (s.relabel ρ).settings = s.settings := rfl
  by_cases hkept : s.Forces scorefactor ∨ row.isRedundant domains s.settings.tolerances = .ok false
  · have hkept' : (s.relabel ρ).Forces scorefactor ∨
        (ρ.row row).isRedundant domains (s.relabel ρ).settings.tolerances = .ok false :=
      hkept.imp id (h.isRedundant domains).trans
    rw [appraise_eq_of_kept hkept, appraise_eq_of_kept hkept', hsettings]
    -- A row is on a single variable if and only if the exchanged one is.
    have hchanges := h.boundChanges domains
    cases hsingle : row.singleEntry with
    | some e =>
      cases hsingle' : (ρ.row row).singleEntry with
      | none => simp [hsingle, hsingle'] at hchanges
      | some e' =>
        simp only [hsingle, hsingle', Option.map_some, Option.some.injEq] at hchanges
        simp only [hchanges]
        cases row.boundChanges e domains s.settings.tolerances <;> rfl
    | none =>
      cases hsingle' : (ρ.row row).singleEntry with
      | some e' => simp [hsingle, hsingle'] at hchanges
      | none =>
        have hcapacity : (s.relabel ρ).capacity atRoot = s.capacity atRoot := rfl
        simp only [valuation_relabel s scorefactor h, hcapacity, insert_relabel]
        cases s.valuation row scorefactor solution <;> rfl
  · obtain ⟨hF, hr⟩ := not_or.mp hkept
    rw [appraise, appraise, if_neg (hforces.not.mpr hF), if_neg hF, hsettings,
      h.isRedundant domains]
    cases hred : row.isRedundant domains s.settings.tolerances with
    | error f => rfl
    | ok redundant =>
      cases redundant with
      | true => rfl
      | false => exact absurd hred hr

theorem accept_relabel (a : Appraisal K) :
    (s.relabel ρ).accept (ρ.row row) (a.relabel ρ) = (s.accept row a).mapState (relabel ρ) := by
  have hname := ρ.name_row row
  cases a with
  | redundant =>
    simp only [accept, Appraisal.relabel, hname]
    rfl
  | boundChanges changes =>
    cases changes <;> simp only [accept, Appraisal.relabel, hname] <;> rfl
  | ranked outcome =>
    cases outcome with
    | error why =>
      simp only [accept, Appraisal.relabel, Functor.map, Except.map, hname]
      rfl
    | ok i =>
      have hfault : (i.relabel ρ).cuts.fault (s.relabel ρ).settings.tolerances =
          i.cuts.fault s.settings.tolerances := i.cuts.fault_relabel _
      have hlength : (i.relabel ρ).cuts.length = i.cuts.length := i.cuts.length_relabel
      simp only [accept, Appraisal.relabel, Functor.map, Except.map, hfault, i.events_relabel,
        hname, hlength]
      cases i.cuts.fault s.settings.tolerances <;> rfl

theorem addCut_relabel (h : ρ.Preserves s.settings row) (lp : Relaxation K) (domains : Domains K) :
    (s.relabel ρ).addCut (ρ.row row) scorefactor atRoot (lp.relabel ρ) domains =
      (s.addCut row scorefactor atRoot lp domains).mapState (relabel ρ) := by
  have hsolution : (lp.relabel ρ).solution = lp.solution := rfl
  rw [addCut, addCut, if_congr (lp.contains_relabel row) rfl rfl,
    if_congr h.hasFiniteSide.not rfl rfl, ρ.name_row, hsolution, appraise_relabel s _ _ h]
  split
  · rfl
  · split
    · rfl
    · cases s.appraise row scorefactor atRoot lp.solution domains with
      | error f => rfl
      | ok a => exact accept_relabel { s with statistics := s.statistics.countFound } a

theorem applyCuts_relabel (lp : Relaxation K) (tree : SearchTree K) :
    (s.relabel ρ).applyCuts (lp.relabel ρ) tree =
      (s.applyCuts lp tree).mapState fun t => (t.1.relabel ρ, t.2.1.relabel ρ, t.2.2) := by
  have hrows : (s.relabel ρ).cuts.map (·.row) = (s.cuts.map (·.row)).map ρ.row := by
    simp only [relabel, Ranking.relabel, List.map_map]
    rfl
  have hadded (rows : List (Row K)) (depth : Nat) :
      (rows.map ρ.row).map (fun row => Event.rowAdded (K := K) row.name depth) =
        rows.map fun row => .rowAdded row.name depth := by
    rw [List.map_map]
    exact List.map_congr_left fun row _ => congrArg (Event.rowAdded · depth) (ρ.name_row row)
  have hchanges : BoundChange.applyAll tree.focus (s.relabel ρ).settings.tolerances tree
      (s.relabel ρ).boundChanges =
        BoundChange.applyAll tree.focus s.settings.tolerances tree s.boundChanges := rfl
  simp only [applyCuts, hrows, hchanges, Relaxation.addRows_relabel]
  cases (BoundChange.applyAll tree.focus s.settings.tolerances tree s.boundChanges).fault with
  | some f => rfl
  | none =>
    simp only [RowsAdded.relabel, hadded, List.length_map]
    rfl

theorem isEmpty_relabel : (s.relabel ρ).isEmpty = s.isEmpty := by
  rw [isEmpty, isEmpty, relabel, Ranking.relabel, List.isEmpty_map]

theorem startInitialLp_relabel :
    (s.relabel ρ).startInitialLp = relabel ρ <$> s.startInitialLp := by
  have hinitial : (s.relabel ρ).initialLp = s.initialLp := rfl
  rw [startInitialLp, startInitialLp, isEmpty_relabel, hinitial]
  split
  · rfl
  · split <;> rfl

theorem endInitialLp_relabel : (s.relabel ρ).endInitialLp = relabel ρ <$> s.endInitialLp := by
  have hinitial : (s.relabel ρ).initialLp = s.initialLp := rfl
  rw [endInitialLp, endInitialLp, isEmpty_relabel, hinitial]
  split
  · rfl
  · split <;> rfl

end Storage

namespace Session

variable (s : Session K)

theorem row_relabel (number : Nat) : (s.relabel ρ).row number = ρ.row <$> s.row number := by
  have hrow (r : Row K) : (⟨(ρ.row r).toCut, r.number⟩ : Row K) = ρ.row r := by
    rw [← ρ.number_row r]
  rw [row, row, relabel, List.getElem?_mapIdx]
  cases s.catalogue[number]? with
  | none => rfl
  | some cut => exact congrArg Except.ok (hrow ⟨cut, number⟩)

theorem quiet_relabel {r r' : Except Fault (Session K × Answer)}
    (h : r' = (fun p => (p.1.relabel ρ, p.2)) <$> r) :
    (s.relabel ρ).quiet r' = (s.quiet r).mapState (relabel ρ) := by
  subst h
  cases r <;> rfl

theorem switchPhase_relabel (r : Except Misuse (Storage K)) :
    (s.relabel ρ).switchPhase (Storage.relabel ρ <$> r) =
      (fun p => (p.1.relabel ρ, p.2)) <$> s.switchPhase r := by cases r <;> rfl

theorem addRow_relabel (row : Row K) (depth : Nat) :
    (s.relabel ρ).addRow (ρ.row row) depth =
      (fun p => (p.1.relabel ρ, p.2)) <$> s.addRow row depth := by
  have hrelaxation : (s.relabel ρ).relaxation = s.relaxation.relabel ρ := rfl
  rw [addRow, addRow, hrelaxation, Relaxation.addRow_relabel]
  cases s.relaxation.addRow row depth <;> rfl

theorem removeRows_relabel (depth : Nat) :
    (s.relabel ρ).removeRows depth = (s.removeRows depth).mapState (relabel ρ) := by
  have hlength (lp : Relaxation K) : (lp.relabel ρ).rows.length = lp.rows.length :=
    List.length_map _
  have hrelaxation : (s.relabel ρ).relaxation = s.relaxation.relabel ρ := rfl
  simp only [removeRows, hrelaxation, Relaxation.removeRowsBelow_relabel, hlength]
  rfl

/-- A step on exchanged rows. What they are exchanged for matters at a submission only. -/
theorem perform_relabel {action : Action K}
    (h : ∀ number scorefactor atRoot row, action = .add number scorefactor atRoot →
      s.row number = .ok row → ρ.Preserves s.storage.settings row) :
    (s.relabel ρ).perform action = (s.perform action).mapState (relabel ρ) := by
  cases action with
  | add number scorefactor atRoot =>
    rw [perform, perform, row_relabel]
    cases hrow : s.row number with
    | error f => rfl
    | ok row =>
      have hadd := s.storage.addCut_relabel scorefactor atRoot (h _ _ _ row rfl hrow) s.relaxation
        s.tree.domains
      exact congrArg (fun r : Reply K (Storage K) Admission =>
        (⟨{ s.relabel ρ with storage := r.state }, r.events, .admitted <$> r.result⟩ :
          Reply K (Session K) Answer)) hadd
  | apply =>
    have happly := s.storage.applyCuts_relabel (ρ := ρ) s.relaxation s.tree
    exact congrArg (fun r : Reply K (Storage K × Relaxation K × SearchTree K) Bool =>
      (⟨⟨(s.relabel ρ).catalogue, r.state.1, r.state.2.1, r.state.2.2⟩, r.events,
        .committed <$> r.result⟩ : Reply K (Session K) Answer)) happly
  | clear => rfl
  | startInitialLp =>
    refine s.quiet_relabel (Eq.trans ?_ (s.switchPhase_relabel s.storage.startInitialLp))
    exact congrArg _ s.storage.startInitialLp_relabel
  | endInitialLp =>
    refine s.quiet_relabel (Eq.trans ?_ (s.switchPhase_relabel s.storage.endInitialLp))
    exact congrArg _ s.storage.endInitialLp_relabel
  | createChild parent =>
    refine s.quiet_relabel ?_
    rw [relabel]
    cases s.tree.createChild parent <;> rfl
  | focusOn node =>
    refine s.quiet_relabel ?_
    rw [relabel]
    cases s.tree.focusOn node <;> rfl
  | setBound node column value direction =>
    refine s.quiet_relabel ?_
    rw [relabel]
    cases s.tree.setBound (node.getD s.tree.focus) column value direction <;> rfl
  | change node change =>
    refine s.quiet_relabel ?_
    have hsettings : (s.relabel ρ).storage.settings = s.storage.settings := rfl
    have htree : (s.relabel ρ).tree = s.tree := rfl
    rw [hsettings, htree]
    cases change.apply s.tree (node.getD s.tree.focus) s.storage.settings.tolerances <;> rfl
  | setSolution solution =>
    refine s.quiet_relabel ?_
    have hrelaxation : (s.relabel ρ).relaxation = s.relaxation.relabel ρ := rfl
    rw [hrelaxation, Relaxation.setSolution_relabel]
    cases s.relaxation.setSolution solution <;> rfl
  | addRow number depth =>
    refine s.quiet_relabel ?_
    rw [row_relabel]
    cases s.row number with
    | error f => rfl
    | ok row => exact s.addRow_relabel row depth
  | removeRows depth => exact s.removeRows_relabel depth

theorem Step.catalogue_eq {s t : Session K} (h : s.Step t) : t.catalogue = s.catalogue := by
  cases h <;> rfl

theorem Step.settings_eq {s t : Session K} (h : s.Step t) :
    t.storage.settings = s.storage.settings := by
  cases h with
  | add _ scorefactor atRoot => exact s.storage.settings_addCut ..
  | apply => exact s.storage.settings_applyCuts ..
  | startInitialLp h => exact (Storage.contents_startInitialLp h).1
  | endInitialLp h => exact (Storage.contents_endInitialLp h).1
  | _ => rfl

theorem run_relabel {s : Session K} {actions : List (Action K)}
    (h : ∀ number scorefactor atRoot row, .add number scorefactor atRoot ∈ actions →
      s.row number = .ok row → ρ.Preserves s.storage.settings row) :
    run (s.relabel ρ) actions = (run s actions).map (Reply.mapState (relabel ρ)) := by
  induction actions generalizing s with
  | nil => rfl
  | cons action actions ih =>
    have hstep : (s.relabel ρ).perform action = (s.perform action).mapState (relabel ρ) :=
      s.perform_relabel fun number scorefactor atRoot row ha =>
        h number scorefactor atRoot row (ha ▸ List.mem_cons_self)
    have hrest : run ((s.perform action).state.relabel ρ) actions =
        (run (s.perform action).state actions).map (Reply.mapState (relabel ρ)) := by
      have hkept := s.step_perform action
      refine ih fun number scorefactor atRoot row hmem hrow => ?_
      rw [hkept.settings_eq]
      refine h number scorefactor atRoot row (List.mem_cons_of_mem _ hmem) ?_
      rwa [Session.row, hkept.catalogue_eq] at hrow
    have hresult : ((s.perform action).mapState (relabel ρ)).result = (s.perform action).result :=
      rfl
    have hstate : ((s.perform action).mapState (relabel ρ)).state =
        (s.perform action).state.relabel ρ := rfl
    rw [run, run, hstep, hresult, hstate, hrest]
    cases (s.perform action).result with
    | ok answer => rfl
    | error f =>
      dsimp only
      split <;> rfl

end Session
end CutSelection
