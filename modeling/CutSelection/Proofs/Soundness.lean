import Mathlib
import CutSelection.Proofs.BoundChanges
import CutSelection.Proofs.Ranking.Comparison
import CutSelection.Proofs.Steps
import CutSelection.Proofs.Storage

/-!
Soundness of a session. A point within the root bounds that satisfies all submitted cuts survives
whatever the solver does between submissions: it satisfies the stored cuts and the rows of the LP,
the pending bound changes hold for it, and it stays in the boxes of all nodes.
-/

namespace CutSelection

variable {x : Nat → ℝ}

def Appraisal.Respects (x : Nat → ℝ) : Appraisal ℝ → Prop
  | .redundant => True
  | .boundChanges changes => ∀ change ∈ changes, change.Holds x
  | .ranked outcome => ∀ i, outcome = .ok i → ∀ c ∈ i.cuts, c.row.IsSatisfiedBy x

namespace Storage

/-- A point agrees with everything that is stored. -/
structure Respects (s : Storage ℝ) (x : Nat → ℝ) : Prop where
  cuts : ∀ c ∈ s.cuts, c.row.IsSatisfiedBy x
  changes : ∀ change ∈ s.boundChanges, change.Holds x

variable {s : Storage ℝ} {row : Row ℝ}

theorem respects_appraise (hf : 0 ≤ s.settings.tolerances.feasibility) (h : s.Respects x)
    (hrow : row.IsSatisfiedBy x) {scorefactor : ℝ} {atRoot : Bool} {solution : List ℝ}
    {domains : Domains ℝ} (hx : domains.Admit x) {a : Appraisal ℝ}
    (ha : s.appraise row scorefactor atRoot solution domains = .ok a) : a.Respects x := by
  rcases appraise_cases ha with ⟨rfl, -⟩ | ⟨e, changes, he, rfl, hc⟩ | ⟨-, valuation, rfl⟩
  · trivial
  · exact Cut.holds_of_mem_boundChanges hf he hc hx hrow
  · intro i hi c hc
    rcases Ranking.row_of_mem_insert hi c hc with h' | ⟨d, hd, h'⟩
    · exact h' ▸ hrow
    · exact h' ▸ h.cuts d hd

theorem respects_accept (h : s.Respects x) {a : Appraisal ℝ} (ha : a.Respects x) :
    (s.accept row a).state.Respects x := by
  unfold accept
  split
  · exact h
  · exact h
  · refine ⟨h.cuts, fun change hc => ?_⟩
    rcases List.mem_append.mp hc with hc | hc
    · exact h.changes change hc
    · exact ha change hc
  · exact h
  · rename_i i
    have hi : Respects { s with cuts := i.cuts } x := ⟨ha i rfl, h.changes⟩
    dsimp only
    split
    · exact hi
    · exact ⟨hi.cuts, hi.changes⟩

theorem respects_addCut (hf : 0 ≤ s.settings.tolerances.feasibility) (h : s.Respects x)
    (hrow : row.IsSatisfiedBy x) (scorefactor : ℝ) (atRoot : Bool) (lp : Relaxation ℝ)
    {domains : Domains ℝ} (hx : domains.Admit x) :
    (s.addCut row scorefactor atRoot lp domains).state.Respects x := by
  rcases s.state_addCut row scorefactor atRoot lp domains with hs | ⟨a, ha, hs⟩
  · rw [hs]
    exact h
  · have hcounted : Respects { s with statistics := s.statistics.countFound } x :=
      ⟨h.cuts, h.changes⟩
    rw [hs]
    exact respects_accept hcounted (respects_appraise hf h hrow hx ha)

theorem respects_endRound (s : Storage ℝ) (how : RoundEnd) : (s.endRound how).1.Respects x :=
  ⟨by simp [endRound], by simp [endRound]⟩

theorem applyCuts_sound (hf : 0 ≤ s.settings.tolerances.feasibility) (h : s.Respects x)
    {lp : Relaxation ℝ} {tree : SearchTree ℝ} (hlp : ∀ r ∈ lp.rows, r.row.IsSatisfiedBy x)
    (htree : tree.Retains x) :
    let r := s.applyCuts lp tree
    r.state.1.Respects x ∧ (∀ row ∈ r.state.2.1.rows, row.row.IsSatisfiedBy x) ∧
      r.state.2.2.Retains x ∧ r.result ≠ .ok true := by
  obtain ⟨hretains, hfalse⟩ := BoundChange.retains_applyAll tree.focus hf htree h.changes
  rw [applyCuts]
  dsimp only
  split
  · exact ⟨h, hlp, hretains, by simp⟩
  · refine ⟨⟨by simp [endRound], by simp [endRound]⟩, fun r hr => ?_, hretains, ?_⟩
    · rcases Relaxation.mem_rows_addRows hr with hr | hr
      · exact hlp r hr
      · obtain ⟨c, hc, hrow⟩ := List.mem_map.mp hr
        exact hrow ▸ h.cuts c hc
    · rw [hfalse]
      cases (lp.addRows tree.focusNode.depth (s.cuts.map (·.row))).refusal <;> simp

end Storage

/-- Steps that change bounds or add rows beside the storage. -/
def Action.BypassesStorage {K : Type} : Action K → Prop
  | .setBound .. => True
  | .change .. => True
  | .addRow .. => True
  | _ => False

namespace Session

/-- The cuts that are submitted by a sequence of steps. -/
def submitted (catalogue : List (Cut ℝ)) (actions : List (Action ℝ)) : List (Cut ℝ) :=
  actions.filterMap fun
    | .add number _ _ => catalogue[number]?
    | _ => none

/-- The invariant of a session for a point that satisfies all cuts submitted so far. -/
structure Sound (catalogue : List (Cut ℝ)) (g : Settings ℝ) (x : Nat → ℝ) (s : Session ℝ) :
    Prop where
  catalogue_eq : s.catalogue = catalogue
  settings_eq : s.storage.settings = g
  storage : s.storage.Respects x
  rows : ∀ r ∈ s.relaxation.rows, r.row.IsSatisfiedBy x
  tree : s.tree.Retains x

variable {catalogue : List (Cut ℝ)} {g : Settings ℝ} {s : Session ℝ}

theorem sound_start {domains : Domains ℝ} (hx : domains.Admit x) (solution : List ℝ) :
    Sound catalogue g x (.start catalogue g solution domains) where
  catalogue_eq := rfl
  settings_eq := rfl
  storage := ⟨by simp [start], by simp [start]⟩
  rows := by simp [start, Relaxation.ofSolution]
  tree := by simp [start, SearchTree.Retains, SearchTree.ofRoot, hx]

theorem sound_quiet (h : s.Sound catalogue g x) {r : Except Fault (Session ℝ × Answer)}
    (hr : ∀ p, r = .ok p → p.1.Sound catalogue g x ∧ p.2 ≠ .committed true) :
    (s.quiet r).state.Sound catalogue g x ∧ (s.quiet r).result ≠ .ok (.committed true) := by
  cases r with
  | error f => exact ⟨h, by simp [quiet]⟩
  | ok p =>
    have hp := hr p rfl
    exact ⟨hp.1, by simpa [quiet] using hp.2⟩

theorem sound_switchPhase (h : s.Sound catalogue g x) {r : Except Misuse (Storage ℝ)}
    (hr : ∀ s', r = .ok s' → s'.settings = s.storage.settings ∧ s'.cuts = s.storage.cuts ∧
      s'.boundChanges = s.storage.boundChanges) :
    (s.quiet (s.switchPhase r)).state.Sound catalogue g x ∧
      (s.quiet (s.switchPhase r)).result ≠ .ok (.committed true) := by
  refine sound_quiet h fun p hp => ?_
  cases r with
  | error m => cases hp
  | ok s' =>
    cases hp
    obtain ⟨hsettings, hcuts, hchanges⟩ := hr s' rfl
    exact ⟨⟨h.catalogue_eq, hsettings.trans h.settings_eq,
      ⟨hcuts ▸ h.storage.cuts, hchanges ▸ h.storage.changes⟩, h.rows, h.tree⟩, by simp⟩

theorem sound_perform (hf : 0 ≤ g.tolerances.feasibility) (h : s.Sound catalogue g x)
    {action : Action ℝ} (ha : ¬action.BypassesStorage)
    (hcut : ∀ cut ∈ submitted catalogue [action], cut.IsSatisfiedBy x) :
    (s.perform action).state.Sound catalogue g x ∧
      (s.perform action).result ≠ .ok (.committed true) := by
  cases action with
  | add number scorefactor atRoot =>
    cases hrow : s.row number with
    | error f =>
      simp only [perform, hrow]
      exact ⟨h, by simp⟩
    | ok row =>
      have hsat : row.IsSatisfiedBy x := by
        have hn := row_eq_ok.mp hrow
        rw [h.catalogue_eq] at hn
        exact hcut row.toCut (by simp [submitted, hn])
      have hf' : 0 ≤ s.storage.settings.tolerances.feasibility := h.settings_eq ▸ hf
      simp only [perform, hrow]
      refine ⟨⟨h.catalogue_eq, ?_, ?_, h.rows, h.tree⟩, ?_⟩
      · exact (Storage.settings_addCut ..).trans h.settings_eq
      · exact Storage.respects_addCut hf' h.storage hsat scorefactor atRoot s.relaxation
          h.tree.domains
      · simp only [add]
        cases hr : (s.storage.addCut row scorefactor atRoot s.relaxation s.tree.domains).result <;>
          simp [Functor.map, Except.map]
  | apply =>
    have hf' : 0 ≤ s.storage.settings.tolerances.feasibility := h.settings_eq ▸ hf
    obtain ⟨hstorage, hrows, htree, hresult⟩ := Storage.applyCuts_sound hf' h.storage h.rows h.tree
    refine ⟨⟨h.catalogue_eq, ?_, hstorage, hrows, htree⟩, ?_⟩
    · exact (Storage.settings_applyCuts ..).trans h.settings_eq
    · simp only [perform, Session.apply]
      cases hr : (s.storage.applyCuts s.relaxation s.tree).result with
      | error f => simp [Functor.map, Except.map]
      | ok b =>
        rw [hr] at hresult
        simpa [Functor.map, Except.map] using hresult
  | clear =>
    exact ⟨⟨h.catalogue_eq, h.settings_eq, Storage.respects_endRound s.storage .cleared, h.rows,
      h.tree⟩, by simp [perform, Session.clear]⟩
  | startInitialLp => exact sound_switchPhase h fun _ => Storage.contents_startInitialLp
  | endInitialLp => exact sound_switchPhase h fun _ => Storage.contents_endInitialLp
  | createChild parent =>
    refine sound_quiet h fun p hp => ?_
    cases ht : s.tree.createChild parent with
    | error f => simp [ht, bind, Except.bind] at hp
    | ok tree =>
      simp only [ht, bind, Except.bind, Except.ok.injEq] at hp
      subst hp
      exact ⟨⟨h.catalogue_eq, h.settings_eq, h.storage, h.rows, h.tree.createChild ht⟩, by simp⟩
  | focusOn node =>
    refine sound_quiet h fun p hp => ?_
    cases ht : s.tree.focusOn node with
    | error f => simp [ht, bind, Except.bind] at hp
    | ok tree =>
      simp only [ht, bind, Except.bind, Except.ok.injEq] at hp
      subst hp
      exact ⟨⟨h.catalogue_eq, h.settings_eq, h.storage, h.rows, h.tree.focusOn ht⟩, by simp⟩
  | setBound node column value direction => exact absurd trivial ha
  | change node change => exact absurd trivial ha
  | setSolution solution =>
    refine sound_quiet h fun p hp => ?_
    cases hlp : s.relaxation.setSolution solution with
    | error f => simp [hlp, bind, Except.bind] at hp
    | ok lp =>
      simp only [hlp, bind, Except.bind, Except.ok.injEq] at hp
      subst hp
      have hrows : lp.rows = s.relaxation.rows := Relaxation.rows_setSolution hlp
      exact ⟨⟨h.catalogue_eq, h.settings_eq, h.storage, hrows ▸ h.rows, h.tree⟩, by simp⟩
  | addRow row depth => exact absurd trivial ha
  | removeRows depth =>
    refine ⟨⟨h.catalogue_eq, h.settings_eq, h.storage, fun r hr => ?_, h.tree⟩, ?_⟩
    · exact h.rows r (List.mem_of_mem_filter hr)
    · simp [perform, removeRows]

theorem submitted_cons (catalogue : List (Cut ℝ)) (action : Action ℝ) (actions : List (Action ℝ)) :
    submitted catalogue (action :: actions) =
      submitted catalogue [action] ++ submitted catalogue actions :=
  List.filterMap_append (l := [action])

theorem mem_of_mem_submitted {actions : List (Action ℝ)} {cut : Cut ℝ}
    (h : cut ∈ submitted catalogue actions) : cut ∈ catalogue := by
  obtain ⟨action, -, ha⟩ := List.mem_filterMap.mp h
  cases action with
  | add number scorefactor atRoot => exact List.mem_of_getElem? ha
  | _ => cases ha

/-- Soundness, in exact arithmetic and with any tolerances: if bounds change and rows enter the LP
only through the storage, then a point of the root box that satisfies all submitted cuts is never
cut off. No commit reports infeasibility, no node is marked, the point stays in the boxes of all
nodes, and it satisfies all rows of the LP. -/
theorem run_sound (hf : 0 ≤ g.tolerances.feasibility) {domains : Domains ℝ} (hx : domains.Admit x)
    (solution : List ℝ) {actions : List (Action ℝ)}
    (ha : ∀ action ∈ actions, ¬action.BypassesStorage)
    (hcuts : ∀ cut ∈ submitted catalogue
      (actions.take (run (start catalogue g solution domains) actions).length),
        cut.IsSatisfiedBy x) :
    ∀ r ∈ run (start catalogue g solution domains) actions,
      r.result ≠ .ok (.committed true) ∧
        (∀ n ∈ r.state.tree.nodes, n.infeasible = false ∧ n.domains.Admit x) ∧
          ∀ row ∈ r.state.relaxation.rows, row.row.IsSatisfiedBy x := by
  suffices hall : ∀ s : Session ℝ, s.Sound catalogue g x →
      (∀ cut ∈ submitted catalogue (actions.take (run s actions).length), cut.IsSatisfiedBy x) →
      ∀ r ∈ run s actions, r.state.Sound catalogue g x ∧ r.result ≠ .ok (.committed true) by
    intro r hr
    obtain ⟨hs, hresult⟩ := hall _ (sound_start hx solution) hcuts r hr
    exact ⟨hresult, hs.tree, hs.rows⟩
  clear hcuts
  induction actions with
  | nil => simp [run]
  | cons action actions ih =>
    rw [List.forall_mem_cons] at ha
    intro s hs hcuts r hr
    rcases run_cons s action actions with ⟨-, hrun⟩ | ⟨-, hrun⟩
    · rw [hrun, List.length_cons, List.take_succ_cons, submitted_cons,
        List.forall_mem_append] at hcuts
      have hstep := sound_perform hf hs ha.1 hcuts.1
      rw [hrun] at hr
      rcases List.mem_cons.mp hr with rfl | hr
      · exact hstep
      · exact ih ha.2 _ hstep.1 hcuts.2 r hr
    · rw [hrun] at hcuts hr
      obtain rfl := List.mem_singleton.mp hr
      exact sound_perform hf hs ha.1 hcuts

noncomputable def sampleCut (coefficients : List ℝ) (rhs : ℝ) : Cut ℝ :=
  ⟨"sample", .ofDense coefficients, 0, none, some rhs, false⟩

theorem run_sound_sample :
    ¬∃ r ∈ run (start [sampleCut [2, 1] 7, sampleCut [3, 0] 10] (.sample 0) [0, 0]
        [⟨.integer, some 0, some 10⟩, ⟨.continuous, some 0, none⟩])
        [.add 0 1 false, .add 1 1 true, .createChild 0, .apply, .focusOn 1, .apply],
      r.result = .ok (.committed true) := by
  have hx : Domains.Admit [⟨.integer, some 0, some 10⟩, ⟨.continuous, some 0, none⟩]
      fun column => if column = 0 then 3 else 1 := by
    simp [Domain.Admits, VariableKind.Fits, Domain.contains_iff]
    exact ⟨⟨3, rfl⟩, by norm_num⟩
  have hcuts : ∀ cut ∈ [sampleCut [2, 1] 7, sampleCut [3, 0] 10],
      cut.IsSatisfiedBy fun column => if column = 0 then 3 else 1 := by
    simp [sampleCut, Cut.isSatisfiedBy_iff, Cut.value, SparseVector.ofDense, SparseVector.nonzeros]
    norm_num
  rintro ⟨r, hr, hresult⟩
  have hsound := run_sound (g := .sample 0) le_rfl hx [0, 0] (by simp [Action.BypassesStorage])
    (fun cut hcut => hcuts cut (mem_of_mem_submitted hcut)) r hr
  exact hsound.1 hresult

end Session

end CutSelection
