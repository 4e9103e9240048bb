import CutSelection.Session

/-!
Steps of a session. What a step can do is said once: it stays where it is, or one operation changes
the part of the session that it is about. Facts about all sessions that a run goes on from then
follow by cases on this, one for each operation.
-/

namespace CutSelection

variable {K : Type} [Scalar K]

def GoesOn {α : Type} (result : Except Fault α) : Prop :=
  match result with
  | .ok _ => True
  | .error f => f.IsRecoverable

instance {α : Type} : (result : Except Fault α) → Decidable (GoesOn result)
  | .ok _ => .isTrue trivial
  | .error f => inferInstanceAs (Decidable f.IsRecoverable)

namespace Session

/-- The changes that a step can make. A commit and a submission leave what the storage leaves, also
if they fail. -/
inductive Step (s : Session K) : Session K → Prop
  | stay : s.Step s
  | add {number : Nat} {row : Row K} (h : s.row number = .ok row) (scorefactor : K)
      (atRoot : Bool) : s.Step (s.add row scorefactor atRoot).state
  | apply : s.Step s.apply.state
  | clear : s.Step s.clear.state
  | startInitialLp {storage : Storage K} (h : s.storage.startInitialLp = .ok storage) :
      s.Step { s with storage := storage }
  | endInitialLp {storage : Storage K} (h : s.storage.endInitialLp = .ok storage) :
      s.Step { s with storage := storage }
  | createChild {parent : Nat} {tree : SearchTree K} (h : s.tree.createChild parent = .ok tree) :
      s.Step { s with tree := tree }
  | focusOn {node : Nat} {tree : SearchTree K} (h : s.tree.focusOn node = .ok tree) :
      s.Step { s with tree := tree }
  | setBound {node column : Nat} {value : K} {direction : Direction} {tree : SearchTree K}
      {crosses : Bool} (h : s.tree.setBound node column value direction = .ok (tree, crosses)) :
      s.Step { s with tree := tree }
  | change {change : BoundChange K} {node : Nat} {tree : SearchTree K}
      {outcome : BoundChange.Outcome}
      (h : change.apply s.tree node s.storage.settings.tolerances = .ok (tree, outcome)) :
      s.Step { s with tree := tree }
  | setSolution {solution : List K} {lp : Relaxation K}
      (h : s.relaxation.setSolution solution = .ok lp) : s.Step { s with relaxation := lp }
  | addRow {number depth : Nat} {row : Row K} {lp : Relaxation K} (hrow : s.row number = .ok row)
      (h : s.relaxation.addRow row depth = .ok lp) : s.Step { s with relaxation := lp }
  | removeRows (depth : Nat) :
      s.Step { s with relaxation := s.relaxation.removeRowsBelow depth }

theorem row_eq_ok {s : Session K} {number : Nat} {row : Row K} : s.row number = .ok row ↔
    s.catalogue[number]? = some row.toCut ∧ row.number = number := by
  rw [Session.row]
  cases s.catalogue[number]? with
  | none => simp
  | some cut =>
    cases row
    simp [eq_comm]

theorem exists_of_bind_eq_ok {α β : Type} {r : Except Fault α} {next : α → Except Fault β} {b : β}
    (h : r >>= next = .ok b) : ∃ a, r = .ok a ∧ next a = .ok b := by
  cases r with
  | error f => cases h
  | ok a => exact ⟨a, rfl, h⟩

theorem switchPhase_eq_ok {s t : Session K} {r : Except Misuse (Storage K)} {answer : Answer}
    (h : s.switchPhase r = .ok (t, answer)) :
    ∃ storage, r = .ok storage ∧ t = { s with storage := storage } := by
  cases r with
  | error m => cases h
  | ok storage =>
    cases h
    exact ⟨storage, rfl, rfl⟩

theorem addRow_eq_ok {s t : Session K} {row : Row K} {depth : Nat} {answer : Answer}
    (h : s.addRow row depth = .ok (t, answer)) :
    ∃ lp, s.relaxation.addRow row depth = .ok lp ∧ t = { s with relaxation := lp } := by
  rw [addRow] at h
  cases hlp : s.relaxation.addRow row depth with
  | error r => simp [hlp] at h
  | ok lp =>
    rw [hlp] at h
    cases h
    exact ⟨lp, rfl, rfl⟩

theorem quiet_induction {P : Session K → Prop} {s : Session K}
    {r : Except Fault (Session K × Answer)} (hs : P s)
    (h : ∀ t answer, r = .ok (t, answer) → P t) : P (s.quiet r).state := by
  cases r with
  | error f => exact hs
  | ok p => exact h p.1 p.2 rfl

theorem step_quiet {s : Session K} {r : Except Fault (Session K × Answer)}
    (h : ∀ t answer, r = .ok (t, answer) → s.Step t) : s.Step (s.quiet r).state :=
  quiet_induction .stay h

@[simp] theorem events_quiet (s : Session K) (r : Except Fault (Session K × Answer)) :
    (s.quiet r).events = [] := by cases r <;> rfl

theorem state_quiet_of_error {s : Session K} {r : Except Fault (Session K × Answer)} {f : Fault}
    (h : (s.quiet r).result = .error f) : (s.quiet r).state = s := by
  cases r with
  | error e => rfl
  | ok p => cases h

theorem step_perform (s : Session K) (action : Action K) : s.Step (s.perform action).state := by
  cases action with
  | add number scorefactor atRoot =>
    rw [perform]
    cases h : s.row number with
    | error f => exact .stay
    | ok row => exact .add h scorefactor atRoot
  | apply => exact .apply
  | clear => exact .clear
  | startInitialLp =>
    refine step_quiet fun t answer ht => ?_
    obtain ⟨storage, h, rfl⟩ := switchPhase_eq_ok ht
    exact .startInitialLp h
  | endInitialLp =>
    refine step_quiet fun t answer ht => ?_
    obtain ⟨storage, h, rfl⟩ := switchPhase_eq_ok ht
    exact .endInitialLp h
  | createChild parent =>
    refine step_quiet fun t answer ht => ?_
    obtain ⟨tree, h, ht⟩ := exists_of_bind_eq_ok ht
    cases ht
    exact .createChild h
  | focusOn node =>
    refine step_quiet fun t answer ht => ?_
    obtain ⟨tree, h, ht⟩ := exists_of_bind_eq_ok ht
    cases ht
    exact .focusOn h
  | setBound node column value direction =>
    refine step_quiet fun t answer ht => ?_
    obtain ⟨⟨tree, crosses⟩, h, ht⟩ := exists_of_bind_eq_ok ht
    cases ht
    exact .setBound h
  | change node change =>
    refine step_quiet fun t answer ht => ?_
    obtain ⟨⟨tree, outcome⟩, h, ht⟩ := exists_of_bind_eq_ok ht
    cases ht
    exact .change h
  | setSolution solution =>
    refine step_quiet fun t answer ht => ?_
    obtain ⟨lp, h, ht⟩ := exists_of_bind_eq_ok ht
    cases ht
    exact .setSolution h
  | addRow number depth =>
    refine step_quiet fun t answer ht => ?_
    obtain ⟨row, hrow, ht⟩ := exists_of_bind_eq_ok ht
    obtain ⟨lp, h, rfl⟩ := addRow_eq_ok ht
    exact .addRow hrow h
  | removeRows depth => exact .removeRows depth

/-- The sessions that a run goes on from. -/
inductive Reachable : Session K → Prop
  | start (catalogue : List (Cut K)) (settings : Settings K) (solution : List K)
      (domains : Domains K) : Reachable (start catalogue settings solution domains)
  | step {s : Session K} {action : Action K} (h : Reachable s)
      (hr : GoesOn (s.perform action).result) : Reachable (s.perform action).state

theorem Reachable.induction {P : Session K → Prop}
    (start : ∀ catalogue settings solution domains,
      P (Session.start catalogue settings solution domains))
    (step : ∀ {s t : Session K}, P s → s.Step t → P t) {s : Session K} (h : Reachable s) : P s := by
  induction h with
  | start catalogue settings solution domains => exact start catalogue settings solution domains
  | step _ _ ih => exact step ih (step_perform _ _)

theorem run_cons (s : Session K) (action : Action K) (actions : List (Action K)) :
    GoesOn (s.perform action).result ∧
        run s (action :: actions) = s.perform action :: run (s.perform action).state actions ∨
      ¬GoesOn (s.perform action).result ∧ run s (action :: actions) = [s.perform action] := by
  rw [run]
  cases (s.perform action).result with
  | ok answer => exact .inl ⟨trivial, rfl⟩
  | error f =>
    by_cases hf : f.IsRecoverable
    · exact .inl ⟨hf, if_pos hf⟩
    · exact .inr ⟨hf, if_neg hf⟩

/-- What the session has that a run starts from, and every step keeps, all sessions of the run
have. -/
theorem forall_mem_run {P : Session K → Prop} {actions : List (Action K)} {s : Session K} (h : P s)
    (step : ∀ action ∈ actions, ∀ {s : Session K}, P s → P (s.perform action).state) :
    ∀ r ∈ run s actions, P r.state := by
  induction actions generalizing s with
  | nil => simp [run]
  | cons action actions ih =>
    rw [List.forall_mem_cons] at step
    have hfirst := step.1 h
    intro r hr
    rcases run_cons s action actions with ⟨-, hrun⟩ | ⟨-, hrun⟩ <;> rw [hrun] at hr
    · rcases List.mem_cons.mp hr with rfl | hr
      · exact hfirst
      · exact ih hfirst step.2 r hr
    · exact List.mem_singleton.mp hr ▸ hfirst

theorem Reachable.of_mem_run {s : Session K} (h : Reachable s) {actions : List (Action K)}
    {r : Reply K (Session K) Answer} (hr : r ∈ run s actions) (hok : GoesOn r.result) :
    Reachable r.state := by
  induction actions generalizing s with
  | nil => cases hr
  | cons action actions ih =>
    rcases run_cons s action actions with ⟨hgoes, hrun⟩ | ⟨hstops, hrun⟩
    · rw [hrun] at hr
      rcases List.mem_cons.mp hr with rfl | hr
      · exact .step h hgoes
      · exact ih (.step h hgoes) hr
    · rw [hrun] at hr
      rw [List.mem_singleton.mp hr] at hok
      exact absurd hok hstops

end Session
end CutSelection
