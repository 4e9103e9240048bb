import Mathlib
import CutSelection.Proofs.NodeChanges
import CutSelection.Proofs.Storage

/-!
The stored bound changes of a session and what a commit does with them. They are applied to the node
in focus one after the other, each to the tree that the one before it left, until one finds the node
infeasible. None of them can fail: all nodes have as many columns as the root, and a change is only
stored for a column that is there.
-/

namespace CutSelection

variable {K : Type}

namespace ChangesApplied

variable (c : ChangesApplied K)

theorem count_eq : c.count = (c.outcomes.map (·.2)).count .applied := by
  rw [count, List.count, List.countP_map]
  rfl

theorem infeasible_eq : c.infeasible = decide (.infeasible ∈ c.outcomes.map (·.2)) := by
  rw [infeasible, List.any_eq]
  simp

end ChangesApplied

namespace SearchTree

def HasColumns (tree : SearchTree K) (columns : Nat) : Prop :=
  ∀ n ∈ tree.nodes, n.domains.length = columns

variable {tree tree' : SearchTree K} {columns : Nat}

theorem HasColumns.length_domains (h : tree.HasColumns columns) :
    tree.domains.length = columns := h _ (List.mem_of_getElem? tree.getElem?_focus)

theorem HasColumns.createChild (h : tree.HasColumns columns) {parent : Nat}
    (ht : tree.createChild parent = .ok tree') : tree'.HasColumns columns := by
  obtain ⟨n, hn, hnodes, -⟩ := createChild_eq_ok.mp ht
  rw [HasColumns, hnodes, List.forall_mem_append, List.forall_mem_singleton]
  exact ⟨h, h n (List.mem_of_getElem? hn)⟩

theorem HasColumns.focusOn (h : tree.HasColumns columns) {number : Nat}
    (ht : tree.focusOn number = .ok tree') : tree'.HasColumns columns := by
  rw [HasColumns, (focusOn_eq_ok.mp ht).2.1]
  exact h

theorem HasColumns.setBound [Scalar K] (h : tree.HasColumns columns) {number column : Nat}
    {value : K} {direction : Direction} {crosses : Bool}
    (ht : tree.setBound number column value direction = .ok (tree', crosses)) :
    tree'.HasColumns columns := by
  obtain ⟨n, d, hn, -, hr⟩ := setBound_eq_ok.mp ht
  have hlength := h n (List.mem_of_getElem? hn)
  split at hr <;> cases hr <;> intro m hm <;> rcases List.mem_or_eq_of_mem_set hm with hm | rfl
  · exact h m hm
  · exact hlength
  · exact h m hm
  · exact List.length_set.trans hlength

end SearchTree

variable [Scalar K]

namespace BoundChange

/-- Changes that are applied to a node one after the other, with what each of them came to. The
first one that finds the node infeasible is the last. -/
inductive Trace (node : Nat) (t : Tolerances K) :
    SearchTree K → List (BoundChange K) → SearchTree K → List Outcome → Prop
  | done (tree : SearchTree K) : Trace node t tree [] tree []
  | stop {tree tree' : SearchTree K} {change : BoundChange K} (changes : List (BoundChange K))
      (h : change.apply tree node t = .ok (tree', .infeasible)) :
      Trace node t tree (change :: changes) tree' [.infeasible]
  | step {tree next tree' : SearchTree K} {change : BoundChange K} {changes : List (BoundChange K)}
      {outcome : Outcome} {outcomes : List Outcome}
      (h : change.apply tree node t = .ok (next, outcome)) (ho : outcome ≠ .infeasible)
      (hrest : Trace node t next changes tree' outcomes) :
      Trace node t tree (change :: changes) tree' (outcome :: outcomes)

variable {node columns : Nat} {t : Tolerances K} {tree tree' : SearchTree K}
  {changes : List (BoundChange K)} {outcomes : List Outcome}

theorem Trace.applyAll_eq (h : Trace node t tree changes tree' outcomes) :
    (applyAll node t tree changes).tree = tree' ∧ (applyAll node t tree changes).fault = none ∧
      (applyAll node t tree changes).outcomes.map (·.2) = outcomes := by
  induction h with
  | done => exact ⟨rfl, rfl, rfl⟩
  | stop changes h =>
    rw [applyAll_cons_of_ok h, if_pos rfl]
    exact ⟨rfl, rfl, rfl⟩
  | step h ho _ ih =>
    obtain ⟨htree, hfault, houtcomes⟩ := ih
    rw [applyAll_cons_of_ok h, if_neg ho]
    exact ⟨htree, hfault, congrArg (_ :: ·) houtcomes⟩

variable (node) (t : Tolerances K) in
theorem exists_trace (h : tree.HasColumns columns) (hnode : node < tree.nodes.length)
    {changes : List (BoundChange K)} (hc : ∀ change ∈ changes, change.column < columns) :
    ∃ tree' outcomes, Trace node t tree changes tree' outcomes := by
  induction changes generalizing tree with
  | nil => exact ⟨tree, [], .done tree⟩
  | cons change changes ih =>
    obtain ⟨hcolumn, hrest⟩ := List.forall_mem_cons.mp hc
    have hn := List.getElem?_eq_getElem hnode
    have hown := h _ (List.mem_of_getElem? hn)
    obtain ⟨next, outcome, ha⟩ := exists_apply_eq_ok t hn
      (List.getElem?_eq_getElem (hown ▸ hcolumn))
      (List.getElem?_eq_getElem (h.length_domains ▸ hcolumn))
    by_cases ho : outcome = .infeasible
    · exact ⟨next, _, .stop changes (ho ▸ ha)⟩
    · have hnext := apply_induction (P := (·.HasColumns columns)) (fun h ht => h.setBound ht) h ha
      have hlength : next.nodes.length = tree.nodes.length := by
        rw [← next.length_links, links_apply ha, tree.length_links]
      obtain ⟨tree', outcomes, htrace⟩ := ih hnext (hlength ▸ hnode) hrest
      exact ⟨tree', _, .step ha ho htrace⟩

end BoundChange

namespace Cut

variable {cut : Cut K} {e : Entry K} {t : Tolerances K} {domains : Domains K}
  {changes : List (BoundChange K)} {change : BoundChange K}

theorem column_lt_of_mem_boundChanges (h : cut.boundChanges e domains t = .ok changes)
    (hc : change ∈ changes) : change.column < domains.length := by
  rw [boundChanges] at h
  split at h
  · cases h
  · obtain ⟨d, hd, h⟩ := Session.exists_of_bind_eq_ok h
    cases h
    obtain ⟨side, -, hside⟩ := List.mem_filterMap.mp hc
    obtain ⟨limit, -, hside⟩ := Option.bind_eq_some_iff.mp hside
    dsimp only at hside
    split at hside
    · cases hside
      exact (List.getElem?_eq_some_iff.mp (Domains.get_eq_ok.mp hd)).1
    · cases hside

end Cut

namespace Session

theorem Step.mem_boundChanges {s s' : Session K} (h : s.Step s') {change : BoundChange K}
    (hc : change ∈ s'.storage.boundChanges) :
    change ∈ s.storage.boundChanges ∨
      ∃ (cut : Cut K) (e : Entry K) (changes : List (BoundChange K)), cut.singleEntry = some e ∧
        cut.boundChanges e s.tree.domains s.storage.settings.tolerances = .ok changes ∧
          change ∈ changes := by
  cases h with
  | @add number row _ scorefactor atRoot =>
    rcases s.storage.state_addCut row scorefactor atRoot s.relaxation s.tree.domains with
      hs | ⟨a, ha, hs⟩
    · exact .inl (hs ▸ hc)
    · simp only [Session.add, hs, Storage.boundChanges_accept] at hc
      refine (List.mem_append.mp hc).imp_right fun hnew => ?_
      rcases Storage.appraise_cases ha with ⟨rfl, -⟩ | ⟨e, changes, he, rfl, hchanges⟩ |
        ⟨-, valuation, rfl⟩
      · cases hnew
      · exact ⟨row.toCut, e, changes, he, hchanges, hnew⟩
      · cases hnew
  | apply =>
    simp only [Session.apply, Storage.applyCuts] at hc
    split at hc
    · exact .inl hc
    · cases hc
  | clear => cases hc
  | startInitialLp h => exact .inl ((Storage.contents_startInitialLp h).2.2 ▸ hc)
  | endInitialLp h => exact .inl ((Storage.contents_endInitialLp h).2.2 ▸ hc)
  | _ => exact .inl hc

/-- Every change that is stored has a column at every node. -/
structure HasColumns (s : Session K) (columns : Nat) : Prop where
  tree : s.tree.HasColumns columns
  changes : ∀ change ∈ s.storage.boundChanges, change.column < columns

variable {s s' : Session K} {columns : Nat}

theorem HasColumns.step (h : s.HasColumns columns) (hstep : s.Step s') : s'.HasColumns columns := by
  refine ⟨hstep.tree_induction (P := (·.HasColumns columns)) (fun h ht => h.createChild ht)
    (fun h ht => h.focusOn ht) (fun h ht => h.setBound ht) h.tree, fun change hc => ?_⟩
  rcases hstep.mem_boundChanges hc with hold | ⟨cut, e, changes, -, hok, hnew⟩
  · exact h.changes change hold
  · exact h.tree.length_domains ▸ Cut.column_lt_of_mem_boundChanges hok hnew

theorem Reachable.exists_hasColumns (h : Reachable s) : ∃ columns, s.HasColumns columns := by
  refine h.induction (P := fun s => ∃ columns, s.HasColumns columns)
    (fun catalogue settings solution domains => ⟨domains.length, ?_, ?_⟩)
    (fun ⟨columns, hs⟩ hstep => ⟨columns, hs.step hstep⟩)
  · exact List.forall_mem_singleton.mpr rfl
  · simp [Session.start]

/-- The pending changes can be applied to the node in focus without a fault. -/
theorem Reachable.exists_trace (h : Reachable s) : ∃ tree outcomes,
    BoundChange.Trace s.tree.focus s.storage.settings.tolerances s.tree s.storage.boundChanges tree
      outcomes := by
  obtain ⟨columns, hcolumns⟩ := h.exists_hasColumns
  exact BoundChange.exists_trace _ _ hcolumns.tree s.tree.focus_lt hcolumns.changes

end Session
end CutSelection
