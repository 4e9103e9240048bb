import CutSelection.Commit

/-!
The search tree by operations: what each of them does if it returns, and what bound changes do to a
tree. A bound change reaches a tree only by setting bounds, so whatever setting a bound keeps is
kept by a whole list of changes.
-/

namespace CutSelection

variable {K : Type}

theorem Domains.get_eq_ok {domains : Domains K} {column : Nat} {d : Domain K} :
    domains.get column = .ok d ↔ domains[column]? = some d := by
  rw [get]
  cases domains[column]? <;> simp

theorem Domain.meet_eq [Scalar K] {d : Domain K} {direction : Direction} {value : K}
    {t : Tolerances K} (h : ¬d.IsCrossedBy direction value) : d.meet direction value t = value := by
  unfold IsCrossedBy at h
  rw [meet]
  cases ho : d.bound direction.opposite with
  | none => rfl
  | some opposite =>
    rw [ho] at h
    exact if_neg fun hc => h hc.1

namespace SearchTree

variable {tree tree' : SearchTree K}

theorem getElem?_focus (tree : SearchTree K) : tree.nodes[tree.focus]? = some tree.focusNode :=
  List.getElem?_eq_getElem tree.focus_lt

@[simp] theorem domains_setNode_focus (tree : SearchTree K) (n : Node K) :
    (tree.setNode tree.focus n).domains = n.domains := by
  simp [domains, focusNode, setNode]

theorem eq_iff : tree = tree' ↔ tree.nodes = tree'.nodes ∧ tree.focus = tree'.focus := by
  cases tree
  cases tree'
  simp

theorem createChild_eq_ok {parent : Nat} : tree.createChild parent = .ok tree' ↔
    ∃ n, tree.nodes[parent]? = some n ∧
      tree'.nodes = tree.nodes ++ [⟨some parent, n.depth + 1, n.domains, false⟩] ∧
      tree'.focus = tree.focus := by
  simp only [createChild, node]
  cases tree.nodes[parent]? with
  | none => simp [bind, Except.bind]
  | some n =>
    simp only [bind, Except.bind, Except.ok.injEq, Option.some.injEq, exists_eq_left', eq_iff]
    exact and_congr eq_comm eq_comm

theorem focusOn_eq_ok {number : Nat} : tree.focusOn number = .ok tree' ↔
    number < tree.nodes.length ∧ tree'.nodes = tree.nodes ∧ tree'.focus = number := by
  rw [focusOn]
  split
  · rename_i h
    rw [Except.ok.injEq, eq_iff]
    simp only [h, true_and]
    exact and_congr eq_comm eq_comm
  · rename_i h
    simp [h]

variable [Scalar K]

theorem setBound_eq_ok {number column : Nat} {value : K} {direction : Direction}
    {r : SearchTree K × Bool} : tree.setBound number column value direction = .ok r ↔
      ∃ n d, tree.nodes[number]? = some n ∧ n.domains[column]? = some d ∧
        r = if d.IsCrossedBy direction value then
          (tree.setNode number { n with infeasible := true }, true)
        else
          (tree.setNode number
            { n with domains := n.domains.set column (d.setBound value direction) }, false) := by
  simp only [setBound, node, Domains.get]
  cases hn : tree.nodes[number]? with
  | none => simp [bind, Except.bind]
  | some n =>
    cases hd : n.domains[column]? with
    | none => simp [hd, bind, Except.bind]
    | some d =>
      by_cases hc : d.IsCrossedBy direction value
      · simp [hd, hc, bind, Except.bind]
        exact eq_comm
      · simp [hd, hc, bind, Except.bind]
        exact eq_comm

end SearchTree

variable [Scalar K] {tree : SearchTree K} {t : Tolerances K}

namespace BoundChange

variable {change : BoundChange K} {node : Nat}

theorem apply_eq_ok {r : SearchTree K × Outcome} : change.apply tree node t = .ok r ↔
    ∃ d, tree.domains[change.column]? = some d ∧
      let value := d.adjust change.direction change.value t
      if d.IsTightenedBy change.direction value t then
        ∃ s, tree.setBound node change.column (d.meet change.direction value t)
          change.direction = .ok s ∧ r = (s.1, if s.2 then .infeasible else .applied)
      else r = (tree, .dominated) := by
  rw [apply, Domains.get]
  cases hd : tree.domains[change.column]? with
  | none => simp [bind, Except.bind]
  | some d =>
    by_cases ht : d.IsTightenedBy change.direction (d.adjust change.direction change.value t) t
    · cases hs : tree.setBound node change.column
        (d.meet change.direction (d.adjust change.direction change.value t) t) change.direction with
      | error f => simp [ht, hs, bind, Except.bind]
      | ok s =>
        simp only [ht, hs, bind, Except.bind, not_true_eq_false, if_false, if_true,
          Except.ok.injEq, Option.some.injEq, exists_eq_left']
        exact eq_comm
    · simp [ht, bind, Except.bind]
      exact eq_comm

theorem apply_of_not_isTightenedBy {d : Domain K} (hd : tree.domains[change.column]? = some d)
    (ht : ¬d.IsTightenedBy change.direction (d.adjust change.direction change.value t) t) :
    change.apply tree node t = .ok (tree, .dominated) := by
  refine apply_eq_ok.mpr ⟨d, hd, ?_⟩
  rw [if_neg ht]

theorem apply_of_setBound {d : Domain K} (hd : tree.domains[change.column]? = some d)
    (ht : d.IsTightenedBy change.direction (d.adjust change.direction change.value t) t)
    {tree' : SearchTree K} {crosses : Bool} (h : tree.setBound node change.column
      (d.meet change.direction (d.adjust change.direction change.value t) t) change.direction =
        .ok (tree', crosses)) :
    change.apply tree node t = .ok (tree', if crosses then .infeasible else .applied) := by
  refine apply_eq_ok.mpr ⟨d, hd, ?_⟩
  rw [if_pos ht]
  exact ⟨_, h, rfl⟩

/-- An applied change set a bound, one that was found infeasible set none, and a dominated one did
nothing. -/
theorem apply_cases {r : SearchTree K × Outcome} (h : change.apply tree node t = .ok r) :
    r = (tree, .dominated) ∨ ∃ value tree' crosses,
      tree.setBound node change.column value change.direction = .ok (tree', crosses) ∧
        r = (tree', if crosses then .infeasible else .applied) := by
  obtain ⟨d, -, hr⟩ := apply_eq_ok.mp h
  dsimp only at hr
  split at hr
  · obtain ⟨⟨tree', crosses⟩, hs, rfl⟩ := hr
    exact .inr ⟨_, tree', crosses, hs, rfl⟩
  · exact .inl hr

theorem applyAll_cons_of_ok {r : SearchTree K × Outcome} (h : change.apply tree node t = .ok r)
    (changes : List (BoundChange K)) :
    applyAll node t tree (change :: changes) =
      if r.2 = .infeasible then ⟨r.1, [(change, .infeasible)], none⟩
      else { applyAll node t r.1 changes with
        outcomes := (change, r.2) :: (applyAll node t r.1 changes).outcomes } := by
  obtain ⟨tree', outcome⟩ := r
  cases outcome <;> simp [applyAll, h]

theorem applyAll_cons_of_error {f : Fault} (h : change.apply tree node t = .error f)
    (changes : List (BoundChange K)) :
    applyAll node t tree (change :: changes) = ⟨tree, [], some f⟩ := by simp [applyAll, h]

/-- What setting a bound keeps, a bound change keeps. -/
theorem apply_induction {P : SearchTree K → Prop}
    (setBound : ∀ {tree tree' : SearchTree K} {number column value direction crosses}, P tree →
      tree.setBound number column value direction = .ok (tree', crosses) → P tree')
    (h : P tree) {r : SearchTree K × Outcome} (hr : change.apply tree node t = .ok r) : P r.1 := by
  rcases apply_cases hr with rfl | ⟨value, tree', crosses, hs, rfl⟩
  · exact h
  · exact setBound h hs

theorem applyAll_keeps {P : SearchTree K → Prop} {changes : List (BoundChange K)}
    (step : ∀ change ∈ changes, ∀ {tree : SearchTree K} {r}, P tree →
      change.apply tree node t = .ok r → P r.1) (h : P tree) :
    P (applyAll node t tree changes).tree := by
  induction changes generalizing tree with
  | nil => exact h
  | cons change changes ih =>
    rw [List.forall_mem_cons] at step
    cases ha : change.apply tree node t with
    | error f =>
      rw [applyAll_cons_of_error ha]
      exact h
    | ok r =>
      have hr := step.1 h ha
      rw [applyAll_cons_of_ok ha]
      split
      · exact hr
      · exact ih step.2 hr

theorem applyAll_induction {P : SearchTree K → Prop}
    (setBound : ∀ {tree tree' : SearchTree K} {number column value direction crosses}, P tree →
      tree.setBound number column value direction = .ok (tree', crosses) → P tree')
    (h : P tree) (changes : List (BoundChange K)) : P (applyAll node t tree changes).tree :=
  applyAll_keeps (fun _ _ _ _ h hr => apply_induction setBound h hr) h

end BoundChange
end CutSelection
