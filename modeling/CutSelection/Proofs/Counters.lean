import Mathlib.Data.List.DropRight
import CutSelection.Proofs.Faults
import CutSelection.Proofs.History
import CutSelection.Proofs.Ranking.Diversity

/-!
What the counters count. Each of them is a sum over the steps of a history, or over those since the
storage was last emptied: the submissions that were let in, the cuts that were evicted, the rounds,
and the rows that commits appended.
-/

namespace CutSelection

variable {K : Type} [Scalar K] {threshold : K} {g : Settings K}

def Event.evicted : Event K → Option String
  | .evictedAtCapacity cut _ => some cut
  | .evictedAsParallel cut _ => some cut
  | _ => none

namespace Ranking

theorem exists_of_overflow {cuts : Ranking K} {capacity : Option Nat} {c : RankedCut K}
    (h : overflow cuts capacity = some c) :
    (∃ n, capacity = some n) ∧ cuts = cuts.dropLast ++ [c] := by
  cases capacity with
  | none => cases h
  | some n =>
    rw [overflow] at h
    split at h
    · obtain ⟨hlast, -⟩ := Option.filter_eq_some_iff.mp h
      obtain ⟨top, rfl⟩ := List.getLast?_eq_some_iff.mp hlast
      exact ⟨⟨n, rfl⟩, by rw [List.dropLast_concat]⟩
    · cases h

variable (threshold g) in
/-- What leaves at capacity is the last cut, and only a ranking with a capacity lets it go. -/
theorem seated_eq_append (p : Placement K) (capacity : Option Nat) :
    seated threshold g p = withinCapacity threshold g p capacity ++
        (ofPlacement threshold g p capacity).overflow.toList ∧
      ((ofPlacement threshold g p capacity).overflow.isSome → ∃ n, capacity = some n) := by
  have hwithin : withinCapacity threshold g p capacity =
      if (ofPlacement threshold g p capacity).overflow.isSome then (seated threshold g p).dropLast
      else seated threshold g p := rfl
  rw [hwithin]
  cases h : (ofPlacement threshold g p capacity).overflow with
  | none => simp
  | some c =>
    change (if p.candidate.score.IsForced then none else overflow (seated threshold g p) capacity) =
      some c at h
    split at h
    · cases h
    · obtain ⟨hn, hlast⟩ := exists_of_overflow h
      exact ⟨hlast, fun _ => hn⟩

theorem evicted_events (p : Placement K) (capacity : Option Nat) :
    (ofPlacement threshold g p capacity).events.filterMap Event.evicted =
      ((ofPlacement threshold g p capacity).overflow.toList ++
        (ofPlacement threshold g p capacity).trimmed).map (·.row.name) := by
  have hclashes : ((ofPlacement threshold g p capacity).clashes.map Clash.event).filterMap
      Event.evicted = [] := by
    rw [List.filterMap_map]
    exact List.filterMap_eq_nil_iff.mpr fun _ _ => rfl
  have htrimmed : ((ofPlacement threshold g p capacity).trimmed.map fun c =>
      Event.evictedAsParallel c.row.name c.orthogonality).filterMap Event.evicted =
        (ofPlacement threshold g p capacity).trimmed.map (·.row.name) := by
    rw [List.filterMap_map]
    exact congrFun List.filterMap_eq_map _
  rw [Insertion.events, List.filterMap_append, List.filterMap_append, hclashes, htrimmed,
    List.nil_append, List.map_append]
  congr 1
  obtain ⟨-, hcapacity⟩ := seated_eq_append threshold g p capacity
  cases hover : (ofPlacement threshold g p capacity).overflow with
  | none => rfl
  | some c =>
    obtain ⟨n, hn⟩ := hcapacity (by rw [hover, Option.isSome_some])
    have hlimit : (ofPlacement threshold g p capacity).capacity = some n := hn
    rw [hlimit]
    rfl

theorem names_of_insert {cuts : Ranking K} {row : Row K} {valuation : Valuation K}
    {capacity : Option Nat} {i : Insertion K}
    (h : cuts.insert threshold g row valuation capacity = .ok i) :
    (i.cuts.map (·.row.name) ++ i.events.filterMap Event.evicted).Perm
      (row.name :: cuts.map (·.row.name)) := by
  obtain ⟨p, ho, rfl⟩ := insert_eq_ok.mp h
  have hp := place_of_offer _ _ ho
  have hkept : ((ofPlacement threshold g p capacity).cuts ++
      ((ofPlacement threshold g p capacity).overflow.toList ++
        (ofPlacement threshold g p capacity).trimmed)).Perm (seated threshold g p) := by
    have htrimmed : withinCapacity threshold g p capacity =
        (ofPlacement threshold g p capacity).cuts ++
          (ofPlacement threshold g p capacity).trimmed.reverse :=
      (withoutPendingTail_append _).symm
    rw [(seated_eq_append threshold g p capacity).1, htrimmed, List.append_assoc]
    exact (List.perm_append_comm.trans ((List.reverse_perm _).symm.append_right _)).append_left _
  have hsettled : ((settle threshold g p.candidate p.below).cuts.map (·.row.name)).Perm
      (p.below.map (·.row.name)) := by
    have hnames := (submissions_settle threshold g p.candidate p.below).map (·.1.name)
    rw [List.map_map, List.map_map] at hnames
    exact hnames
  have hseated : ((seated threshold g p).map (·.row.name)).Perm
      (row.name :: cuts.map (·.row.name)) := by
    have hrow : p.candidate.row = row := by rw [row_of_place hp, RankedCut.row_ofValuation]
    rw [← above_append_below threshold g hp, seated, List.map_append, List.map_append,
      List.map_cons, hrow]
    exact ((hsettled.cons _).append_left _).trans List.perm_middle
  rw [evicted_events, ← List.map_append]
  exact (hkept.map _).trans hseated

end Ranking

/-- A row may be submitted if it is not in the LP and has a finite side. -/
def Row.IsSubmittable (row : Row K) (lp : Relaxation K) : Prop :=
  ¬lp.Contains row ∧ row.HasFiniteSide

instance (row : Row K) (lp : Relaxation K) : Decidable (row.IsSubmittable lp) :=
  inferInstanceAs (Decidable (_ ∧ _))

namespace Storage

variable {s : Storage K} {row : Row K} {scorefactor : K} {atRoot : Bool} {lp : Relaxation K}
  {domains : Domains K}

/-- All that taking in an appraised cut can do if it goes well. -/
theorem accept_cases {a : Appraisal K} (h : GoesOn (s.accept row a).result) :
    ((s.accept row a).state = s ∧ (s.accept row a).events.filterMap Event.evicted = [] ∧
        ((s.accept row a).result = .ok .redundant ∨ (s.accept row a).result = .ok .rejected)) ∨
      (∃ changes, (s.accept row a).state = { s with
            boundChanges := s.boundChanges ++ changes
            statistics := s.statistics.countStored changes.length } ∧
          (s.accept row a).events.filterMap Event.evicted = [] ∧
          (s.accept row a).result = .ok (.boundChanges changes.length)) ∨
      ∃ i, a = .ranked (.ok i) ∧
        (s.accept row a).state = { s with
          cuts := i.cuts
          statistics := s.statistics.countStored 1 } ∧
        (s.accept row a).events.filterMap Event.evicted = i.events.filterMap Event.evicted ∧
        (s.accept row a).result = .ok .stored := by
  unfold accept at h ⊢
  split
  · exact .inl ⟨rfl, rfl, .inl rfl⟩
  · exact .inl ⟨rfl, rfl, .inl rfl⟩
  · rename_i changes _
    refine .inr (.inl ⟨changes, rfl, ?_, rfl⟩)
    rw [List.filterMap_map]
    exact List.filterMap_eq_nil_iff.mpr fun _ _ => rfl
  · exact .inl ⟨rfl, rfl, .inr rfl⟩
  · rename_i i
    dsimp only at h ⊢
    cases hf : i.cuts.fault s.settings.tolerances with
    | none =>
      refine .inr (.inr ⟨i, rfl, rfl, ?_, rfl⟩)
      simp [List.filterMap_append, Event.evicted]
    | some f =>
      -- a ranking that is out of order ends the run
      rw [hf] at h
      rw [Ranking.fault] at hf
      split at hf
      · cases hf
      · cases hf
        exact absurd h id

/-- All that a submission can do if the run goes on: it is a misuse, or it is counted as found and
its cut is taken in. -/
theorem addCut_cases (h : GoesOn (s.addCut row scorefactor atRoot lp domains).result) :
    let r := s.addCut row scorefactor atRoot lp domains
    let found := { s with statistics := s.statistics.countFound }
    (¬row.IsSubmittable lp ∧ r.state = s ∧ r.events = [] ∧
        ∃ m, r.result = .error (.misuse m)) ∨
      row.IsSubmittable lp ∧
        ((r.state = found ∧ r.events.filterMap Event.evicted = [] ∧
            (r.result = .ok .redundant ∨ r.result = .ok .rejected)) ∨
          (∃ changes, r.state = { found with
                boundChanges := s.boundChanges ++ changes
                statistics := found.statistics.countStored changes.length } ∧
              r.events.filterMap Event.evicted = [] ∧
              r.result = .ok (.boundChanges changes.length)) ∨
          ∃ i : Insertion K, r.state = { found with
                cuts := i.cuts
                statistics := found.statistics.countStored 1 } ∧
              (i.cuts.map (·.row.name) ++ r.events.filterMap Event.evicted).Perm
                (row.name :: s.cuts.map (·.row.name)) ∧
              r.result = .ok .stored) := by
  intro r found
  by_cases hc : lp.Contains row
  · refine .inl ⟨fun h => h.1 hc, ?_⟩
    have hr : r = _ := if_pos hc
    rw [hr]
    exact ⟨rfl, rfl, _, rfl⟩
  by_cases hs : row.HasFiniteSide
  · right
    refine ⟨⟨hc, hs⟩, ?_⟩
    change GoesOn r.result at h
    cases ha : s.appraise row scorefactor atRoot lp.solution domains with
    | error f =>
      have hr : r = ⟨s, [], .error f⟩ := by
        simp only [r, addCut, if_neg hc, not_not.mpr hs, if_false, ha]
      rw [hr] at h
      exact absurd h (s.failsForGood_appraise row scorefactor lp.solution atRoot domains f ha)
    | ok a =>
      have hr : r = found.accept row a := by
        simp only [r, addCut, if_neg hc, not_not.mpr hs, if_false, ha, found]
      rw [hr] at h ⊢
      refine (accept_cases h).imp_right (Or.imp_right ?_)
      rintro ⟨i, rfl, hstate, hevents, hresult⟩
      refine ⟨i, hstate, ?_, hresult⟩
      rw [hevents]
      rcases appraise_cases ha with ⟨hne, -⟩ | ⟨_, _, _, hne, -⟩ | ⟨-, valuation, hinsert⟩
      · cases hne
      · cases hne
      · exact Ranking.names_of_insert (Appraisal.ranked.inj hinsert).symm
  · refine .inl ⟨fun h => hs h.2, ?_⟩
    have hr : r = _ := (if_neg hc).trans (if_pos hs)
    rw [hr]
    exact ⟨rfl, rfl, _, rfl⟩

theorem goesOn_of_eq_ok {α : Type} {r : Except Fault α} {a : α} (h : r = .ok a) : GoesOn r :=
  h ▸ trivial

theorem state_of_turnedAway
    (h : (s.addCut row scorefactor atRoot lp domains).result = .ok .redundant ∨
      (s.addCut row scorefactor atRoot lp domains).result = .ok .rejected) :
    (s.addCut row scorefactor atRoot lp domains).state =
      { s with statistics := s.statistics.countFound } := by
  obtain ⟨-, -, -, m, hm⟩ | ⟨-, ⟨hstate, -⟩ | ⟨_, -, -, hresult⟩ | ⟨_, -, -, hresult⟩⟩ :=
    addCut_cases (h.elim goesOn_of_eq_ok goesOn_of_eq_ok)
  · rw [hm] at h
    simp at h
  · exact hstate
  · rw [hresult] at h
    simp at h
  · rw [hresult] at h
    simp at h

theorem names_of_stored (h : (s.addCut row scorefactor atRoot lp domains).result = .ok .stored) :
    ((s.addCut row scorefactor atRoot lp domains).state.cuts.map (·.row.name) ++
      (s.addCut row scorefactor atRoot lp domains).events.filterMap Event.evicted).Perm
        (row.name :: s.cuts.map (·.row.name)) := by
  obtain ⟨-, -, -, m, hm⟩ | ⟨-, ⟨-, -, hresult⟩ | ⟨_, -, -, hresult⟩ | ⟨i, hstate, hnames, -⟩⟩ :=
    addCut_cases (goesOn_of_eq_ok h)
  · rw [hm] at h
    cases h
  · simp [h] at hresult
  · rw [hresult] at h
    cases h
  · rw [hstate]
    exact hnames

end Storage

def Action.Drains : Action K → Prop
  | .apply => True
  | .clear => True
  | _ => False

instance : (action : Action K) → Decidable action.Drains := fun action => by
  cases action <;> unfold Action.Drains <;> infer_instance

namespace Session

/-- A submission that passes the checks on entry. -/
def Submits (p : Session K × Action K) : Prop :=
  match p.2 with
  | .add number _ _ =>
    match p.1.row number with
    | .ok row => row.IsSubmittable p.1.relaxation
    | .error _ => False
  | _ => False

instance : (p : Session K × Action K) → Decidable (Submits p) := fun p => by
  unfold Submits
  split
  · split <;> infer_instance
  · infer_instance

/-- The cuts that a step evicts, by name. -/
def evictions (p : Session K × Action K) : List String :=
  (p.1.perform p.2).events.filterMap Event.evicted

/-- The rows that a commit appends to the LP outside the initial LP phase. -/
def appended (p : Session K × Action K) : List (LpRow K) :=
  match p.2 with
  | .apply =>
    if p.1.storage.initialLp then []
    else (p.1.perform .apply).state.relaxation.rows.drop p.1.relaxation.rows.length
  | _ => []

/-- The steps since the storage was last emptied. -/
def sinceDrain (steps : List (Session K × Action K)) : List (Session K × Action K) :=
  steps.rtakeWhile (¬·.2.Drains)

/-- What each counter is a sum of. -/
structure Accounted (steps : List (Session K × Action K)) (s : Storage K) : Prop where
  found : s.statistics.found = steps.countP (Submits ·)
  foundInRound : s.statistics.foundInRound = (sinceDrain steps).countP (Submits ·)
  stored : s.statistics.stored =
    s.cuts.length + s.boundChanges.length + ((sinceDrain steps).flatMap evictions).length
  rounds : s.statistics.rounds = steps.countP (·.2.Drains)
  applied : s.statistics.applied =
    s.statistics.boundChangesApplied + (steps.flatMap appended).length

/-- What the counters of a round gain in a step that does not end it. -/
structure Counts (s t : Storage K) (submissions evictions : Nat) : Prop where
  found : t.statistics.found = s.statistics.found + submissions
  foundInRound : t.statistics.foundInRound = s.statistics.foundInRound + submissions
  stored : t.statistics.stored + (s.cuts.length + s.boundChanges.length) =
    s.statistics.stored + (t.cuts.length + t.boundChanges.length + evictions)
  rounds : t.statistics.rounds = s.statistics.rounds
  applied : t.statistics.applied = s.statistics.applied
  boundChangesApplied : t.statistics.boundChangesApplied = s.statistics.boundChangesApplied

variable {s : Session K} {action : Action K}

theorem counts_refl (s : Storage K) : Counts s s 0 0 := ⟨rfl, rfl, rfl, rfl, rfl, rfl⟩

theorem counts_add {row : Row K} {scorefactor : K} {atRoot : Bool}
    (h : GoesOn (s.add row scorefactor atRoot).result) :
    Counts s.storage (s.add row scorefactor atRoot).state.storage
      (if row.IsSubmittable s.relaxation then 1 else 0)
      ((s.add row scorefactor atRoot).events.filterMap Event.evicted).length := by
  obtain ⟨hsub, hstate, hevents, -⟩ | ⟨hsub, hcases⟩ := Storage.addCut_cases (goesOn_map_iff.mp h)
  · rw [if_neg hsub]
    simp only [add, hstate, hevents]
    exact counts_refl _
  · rw [if_pos hsub]
    obtain ⟨hstate, hevents, -⟩ | ⟨changes, hstate, hevents, -⟩ | ⟨i, hstate, hnames, -⟩ := hcases
    · simp only [add, hstate, hevents]
      exact ⟨rfl, rfl, rfl, rfl, rfl, rfl⟩
    · simp only [add, hstate, hevents]
      refine ⟨rfl, rfl, ?_, rfl, rfl, rfl⟩
      simp [Statistics.countStored, Statistics.countFound]
      omega
    · have hlength := hnames.length_eq
      simp only [List.length_append, List.length_map, List.length_cons] at hlength
      simp only [add, hstate]
      refine ⟨rfl, rfl, ?_, rfl, rfl, rfl⟩
      simp only [Statistics.countStored, Statistics.countFound]
      omega

theorem counts_of_not_drains (hd : ¬action.Drains) (hr : GoesOn (s.perform action).result) :
    Counts s.storage (s.perform action).state.storage (if Submits (s, action) then 1 else 0)
      (evictions (s, action)).length := by
  have hquiet : ∀ {r : Except Fault (Session K × Answer)},
      (∀ t answer, r = .ok (t, answer) → Counts s.storage t.storage 0 0) →
        Counts s.storage (s.quiet r).state.storage 0
          ((s.quiet r).events.filterMap Event.evicted).length := fun h => by
    rw [events_quiet]
    exact quiet_induction (counts_refl _) h
  cases action with
  | add number scorefactor atRoot =>
    cases hrow : s.row number with
    | error f =>
      have hsub : ¬Submits (s, .add number scorefactor atRoot) := by simp [Submits, hrow]
      rw [if_neg hsub]
      simp only [evictions, perform, hrow]
      exact counts_refl s.storage
    | ok row =>
      have hsub : Submits (s, .add number scorefactor atRoot) ↔
          row.IsSubmittable s.relaxation := by simp [Submits, hrow]
      rw [if_congr hsub rfl rfl]
      simp only [evictions, perform, hrow] at hr ⊢
      exact counts_add hr
  | apply => exact absurd trivial hd
  | clear => exact absurd trivial hd
  | startInitialLp =>
    refine hquiet fun t answer ht => ?_
    obtain ⟨storage, h, rfl⟩ := switchPhase_eq_ok ht
    rw [Storage.eq_of_startInitialLp h]
    exact ⟨rfl, rfl, rfl, rfl, rfl, rfl⟩
  | endInitialLp =>
    refine hquiet fun t answer ht => ?_
    obtain ⟨storage, h, rfl⟩ := switchPhase_eq_ok ht
    rw [Storage.eq_of_endInitialLp h]
    exact ⟨rfl, rfl, rfl, rfl, rfl, rfl⟩
  | createChild | focusOn | setBound | change | setSolution =>
    refine hquiet fun t answer ht => ?_
    obtain ⟨_, -, ht⟩ := exists_of_bind_eq_ok ht
    cases ht
    exact counts_refl s.storage
  | addRow number depth =>
    refine hquiet fun t answer ht => ?_
    obtain ⟨row, -, ht⟩ := exists_of_bind_eq_ok ht
    obtain ⟨lp, -, rfl⟩ := addRow_eq_ok ht
    exact counts_refl s.storage
  | removeRows depth =>
    have hevents : (s.removeRows depth).events.filterMap Event.evicted = [] := by
      rw [removeRows]
      split <;> rfl
    rw [evictions]
    dsimp only [perform]
    rw [hevents]
    exact counts_refl s.storage

theorem counts_of_drains (hd : action.Drains) (hr : GoesOn (s.perform action).result) :
    (s.perform action).state.storage.cuts = [] ∧
      (s.perform action).state.storage.boundChanges = [] ∧
      ∃ changes, (s.perform action).state.storage.statistics =
        { s.storage.statistics with
          foundInRound := 0
          stored := 0
          rounds := s.storage.statistics.rounds + 1
          applied := s.storage.statistics.applied + changes + (appended (s, action)).length
          boundChangesApplied := s.storage.statistics.boundChangesApplied + changes } := by
  cases action with
  | clear => exact ⟨rfl, rfl, 0, rfl⟩
  | apply =>
    have hfault : (BoundChange.applyAll s.tree.focus s.storage.settings.tolerances s.tree
        s.storage.boundChanges).fault = none := by
      refine Option.eq_none_iff_forall_ne_some.mpr fun f hf => ?_
      simp only [perform, apply, Storage.applyCuts, hf] at hr
      exact BoundChange.not_isRecoverable_of_applyAll hf hr
    have hrows := s.relaxation.rows_addRows s.tree.focusNode.depth (s.storage.cuts.map (·.row))
    simp only [appended, perform, apply, Storage.applyCuts, hfault, hrows, List.drop_left]
    refine ⟨rfl, rfl, if s.storage.initialLp then 0 else
      (BoundChange.applyAll s.tree.focus s.storage.settings.tolerances s.tree
        s.storage.boundChanges).count, ?_⟩
    cases s.storage.initialLp <;>
      simp [Storage.endRound, Statistics.endRound, Statistics.countApplied, Nat.add_right_comm]
  | _ => exact absurd hd id

theorem Accounted.concat {steps : List (Session K × Action K)} (h : Accounted steps s.storage)
    (hr : GoesOn (s.perform action).result) :
    Accounted (steps ++ [(s, action)]) (s.perform action).state.storage := by
  by_cases hd : action.Drains
  · obtain ⟨hcuts, hempty, changes, hstatistics⟩ := counts_of_drains hd hr
    have hsince : sinceDrain (steps ++ [(s, action)]) = [] :=
      List.rtakeWhile_concat_neg _ _ _ (by simpa using hd)
    have hsub : ¬Submits (s, action) := by
      cases action with
      | add => exact absurd hd id
      | _ => exact id
    refine ⟨?_, ?_, ?_, ?_, ?_⟩
    · rw [hstatistics, List.countP_append, List.countP_singleton, ← h.found]
      simp [hsub]
    · rw [hstatistics, hsince]
      rfl
    · rw [hstatistics, hsince, hcuts, hempty]
      rfl
    · rw [hstatistics, List.countP_append, List.countP_singleton, ← h.rounds]
      simp [hd]
    · have happlied := h.applied
      rw [hstatistics, List.flatMap_append, List.length_append, List.flatMap_singleton]
      dsimp only
      omega
  · obtain ⟨hfound, hround, hstored, hrounds, happlied, hchanges⟩ := counts_of_not_drains hd hr
    have hsince : sinceDrain (steps ++ [(s, action)]) = sinceDrain steps ++ [(s, action)] :=
      List.rtakeWhile_concat_pos _ _ _ (by simpa using hd)
    have happended : appended (s, action) = [] := by
      cases action with
      | apply => exact absurd trivial hd
      | _ => rfl
    refine ⟨?_, ?_, ?_, ?_, ?_⟩
    · rw [hfound, h.found, List.countP_append, List.countP_singleton]
      simp
    · rw [hround, h.foundInRound, hsince, List.countP_append, List.countP_singleton]
      simp
    · rw [hsince, List.flatMap_append, List.length_append, List.flatMap_singleton]
      have := h.stored
      omega
    · rw [hrounds, h.rounds, List.countP_append, List.countP_singleton]
      simp [hd]
    · rw [happlied, hchanges, h.applied, List.flatMap_append, List.flatMap_singleton, happended,
        List.append_nil]

theorem accounted_of_history {catalogue : List (Cut K)} {settings : Settings K} {solution : List K}
    {domains : Domains K} {steps : List (Session K × Action K)}
    (h : History (start catalogue settings solution domains) steps s) :
    Accounted steps s.storage := by
  induction h with
  | nil => exact ⟨rfl, rfl, rfl, rfl, rfl⟩
  | concat _ hr ih => exact ih.concat hr

theorem map_eq_error {α β : Type} {f : α → β} {r : Except Fault α} {e : Fault}
    (h : f <$> r = .error e) : r = .error e := by
  cases r with
  | error _ => exact congrArg _ (Except.error.inj h)
  | ok _ => cases h

theorem state_of_misuse {m : Misuse} (h : (s.perform action).result = .error (.misuse m)) :
    (s.perform action).state = s := by
  cases action with
  | add number scorefactor atRoot =>
    cases hrow : s.row number with
    | error f => simp only [perform, hrow]
    | ok row =>
      simp only [perform, hrow, add] at h ⊢
      have hresult := map_eq_error h
      have hr : GoesOn
          (s.storage.addCut row scorefactor atRoot s.relaxation s.tree.domains).result := by
        rw [hresult]
        exact trivial
      obtain ⟨-, hstate, -⟩ | ⟨-, ⟨-, -, h | h⟩ | ⟨_, -, -, h⟩ | ⟨_, -, -, h⟩⟩ :=
        Storage.addCut_cases hr
      · rw [hstate]
      all_goals
        rw [h] at hresult
        cases hresult
  | apply =>
    simp only [perform, apply, Storage.applyCuts] at h
    split at h
    · rename_i f hf
      cases h
      exact absurd trivial (BoundChange.not_isRecoverable_of_applyAll hf)
    · have h := map_eq_error h
      dsimp only at h
      split at h <;> cases h
  | clear => cases h
  | removeRows depth => cases h
  | _ => exact state_quiet_of_error h

theorem rows_apply (s : Session K) :
    s.relaxation.rows <+: (s.perform .apply).state.relaxation.rows := by
  simp only [perform, apply, Storage.applyCuts]
  split
  · exact List.prefix_refl _
  · exact ⟨_, (s.relaxation.rows_addRows _ _).symm⟩

theorem add_eq_ok {number : Nat} {scorefactor : K} {atRoot : Bool} {admission : Admission}
    (h : (s.perform (.add number scorefactor atRoot)).result = .ok (.admitted admission)) :
    ∃ row, s.row number = .ok row ∧
      s.perform (.add number scorefactor atRoot) = s.add row scorefactor atRoot ∧
      (s.storage.addCut row scorefactor atRoot s.relaxation s.tree.domains).result =
        .ok admission := by
  cases hrow : s.row number with
  | error f => simp [perform, hrow] at h
  | ok row =>
    simp only [perform, hrow, add] at h ⊢
    refine ⟨row, rfl, rfl, ?_⟩
    cases hresult :
        (s.storage.addCut row scorefactor atRoot s.relaxation s.tree.domains).result with
    | error f => simp [hresult, Functor.map, Except.map] at h
    | ok a =>
      rw [hresult] at h
      exact congrArg _ (Answer.admitted.inj (Except.ok.inj h))

theorem state_of_turnedAway {number : Nat} {scorefactor : K} {atRoot : Bool}
    (h : (s.perform (.add number scorefactor atRoot)).result = .ok (.admitted .redundant) ∨
      (s.perform (.add number scorefactor atRoot)).result = .ok (.admitted .rejected)) :
    (s.perform (.add number scorefactor atRoot)).state = { s with
      storage := { s.storage with statistics := s.storage.statistics.countFound } } := by
  rcases h with h | h
  · obtain ⟨row, -, hperform, hresult⟩ := add_eq_ok h
    rw [hperform, add, Storage.state_of_turnedAway (.inl hresult)]
  · obtain ⟨row, -, hperform, hresult⟩ := add_eq_ok h
    rw [hperform, add, Storage.state_of_turnedAway (.inr hresult)]

theorem names_of_stored {number : Nat} {scorefactor : K} {atRoot : Bool}
    (h : (s.perform (.add number scorefactor atRoot)).result = .ok (.admitted .stored)) :
    ∃ row, s.row number = .ok row ∧
      ((s.perform (.add number scorefactor atRoot)).state.storage.cuts.map (·.row.name) ++
        evictions (s, .add number scorefactor atRoot)).Perm
          (row.name :: s.storage.cuts.map (·.row.name)) := by
  obtain ⟨row, hrow, hperform, hresult⟩ := add_eq_ok h
  refine ⟨row, hrow, ?_⟩
  rw [evictions, hperform]
  exact Storage.names_of_stored hresult

/-- The counters over whole runs, whatever the steps are and however they interleave. Each counter
is a sum over the steps so far, or over those since the last commit or clearing. Evicted cuts are
those that a submission reports as evicted, which are the ones that it takes out of the ranking.
Rows count as appended if a commit adds them outside the initial LP phase. A cut that is not stored
leaves nothing behind but that it was found, and a misuse leaves nothing behind at all. -/
theorem counters_of_history {catalogue : List (Cut K)} {settings : Settings K} {solution : List K}
    {domains : Domains K} {steps : List (Session K × Action K)}
    (h : History (start catalogue settings solution domains) steps s) :
    s.storage.statistics.found = steps.countP (Submits ·) ∧
    s.storage.statistics.foundInRound = (sinceDrain steps).countP (Submits ·) ∧
    s.storage.statistics.stored = s.storage.cuts.length + s.storage.boundChanges.length +
      ((sinceDrain steps).flatMap evictions).length ∧
    s.storage.count ≤ s.storage.statistics.stored ∧
    s.storage.statistics.rounds = steps.countP (·.2.Drains) ∧
    s.storage.statistics.boundChangesApplied ≤ s.storage.statistics.applied ∧
    s.storage.statistics.applied - s.storage.statistics.boundChangesApplied =
      (steps.flatMap appended).length ∧
    s.relaxation.rows <+: (s.perform .apply).state.relaxation.rows ∧
    (∀ number scorefactor atRoot,
      let r := s.perform (.add number scorefactor atRoot)
      (r.result = .ok (.admitted .redundant) ∨ r.result = .ok (.admitted .rejected) →
        r.state = { s with storage := { s.storage with statistics := { s.storage.statistics with
          found := s.storage.statistics.found + 1
          foundInRound := s.storage.statistics.foundInRound + 1 } } }) ∧
      (r.result = .ok (.admitted .stored) → ∃ row, s.row number = .ok row ∧
        (r.state.storage.cuts.map (·.row.name) ++
          evictions (s, .add number scorefactor atRoot)).Perm
            (row.name :: s.storage.cuts.map (·.row.name)))) ∧
    ∀ action m, (s.perform action).result = .error (.misuse m) → (s.perform action).state = s := by
  obtain ⟨hfound, hround, hstored, hrounds, happlied⟩ := accounted_of_history h
  refine ⟨hfound, hround, hstored, ?_, hrounds, ?_, ?_, s.rows_apply,
    fun _ _ _ => ⟨state_of_turnedAway, names_of_stored⟩, fun _ _ => state_of_misuse⟩
  · rw [hstored]
    exact Nat.le_add_right _ _
  · rw [happlied]
    exact Nat.le_add_right _ _
  · rw [happlied, Nat.add_sub_cancel_left]

/-- A round with an eviction at capacity, a misuse, an initial LP whose first row is refused, and a
round in which a cut is displaced by a parallel one. -/
def busy : List (Session Float × Action Float) × Session Float :=
  let wide := { Ranking.sampleRow "wide" 2 [] with coefficients := .ofDense (List.replicate 6 1) }
  let catalogue := [Ranking.sampleRow "first" 0 [0, 1], Ranking.sampleRow "second" 1 [1, 2], wide,
    Ranking.sampleRow "bound" 3 [4], Ranking.sampleRow "third" 4 [0, 1]]
  trail (start (catalogue.map (·.toCut)) { Settings.standard with maxCutsRoot := 1 }
      (List.replicate 5 1) (List.replicate 5 ⟨.continuous, some 0, some 1⟩))
    [.add 0 0.5 true, .add 3 1 true, .add 1 1 true, .apply, .add 1 1 true, .startInitialLp,
      .add 2 1 true, .add 0 1 true, .apply, .endInitialLp, .add 0 0.5 true, .add 4 1 true]

theorem counters_of_history_busy :
    (busy.1.length = 12 ∧ busy.2.storage.statistics = ⟨7, 2, 2, 2, 1, 2⟩ ∧
      (busy.1.flatMap evictions, (busy.1.flatMap appended).map (·.row.name)) =
        (["first", "first"], ["second"])) ∧
    busy.2.storage.statistics.found = busy.1.countP (Submits ·) ∧
    busy.2.storage.statistics.stored =
      busy.2.storage.cuts.length + busy.2.storage.boundChanges.length +
        ((sinceDrain busy.1).flatMap evictions).length := by
  have hbusy : History _ busy.1 busy.2 := history_trail _ _
  obtain ⟨hfound, -, hstored, -⟩ := counters_of_history hbusy
  exact ⟨by decide +kernel, hfound, hstored⟩

end Session
end CutSelection
