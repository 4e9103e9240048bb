import Mathlib
import CutSelection.Proofs.Box

/-!
What the changes of a cut and their application to a node say about points. A change that is derived
from a cut holds at every point that satisfies the cut, and a change that holds at a point does not
take the point out of any box that it lies in.
-/

namespace CutSelection

variable {x : Nat → ℝ} {t : Tolerances ℝ}

def BoundChange.Holds (change : BoundChange ℝ) (x : Nat → ℝ) : Prop :=
  change.direction.Limits change.value (x change.column)

namespace Cut

variable {cut : Cut ℝ} {e : Entry ℝ} {change : BoundChange ℝ}

theorem sideChange_eq_some {domain : Domain ℝ} {side : Direction} :
    cut.sideChange e domain t side = some change ↔ ∃ limit ∈ cut.side side,
      let direction := side.through e.2
      let value := domain.adjust direction ((limit - cut.constant) / e.2) t
      domain.IsTightenedBy direction value t ∧ change = ⟨e.1, value, direction⟩ := by
  rw [sideChange]
  cases cut.side side <;> simp [eq_comm]

theorem boundChanges_eq_ok (he : e.2 ≠ 0) {domains : Domains ℝ} {changes : List (BoundChange ℝ)} :
    cut.boundChanges e domains t = .ok changes ↔ ∃ domain, domains[e.1]? = some domain ∧
      changes = [.lower, .upper].filterMap (cut.sideChange e domain t) := by
  rw [boundChanges, Domains.get]
  cases domains[e.1]? <;> simp [he, bind, Except.bind, eq_comm]

theorem mem_boundChanges (he : e.2 ≠ 0) {domains : Domains ℝ} {changes : List (BoundChange ℝ)}
    (h : cut.boundChanges e domains t = .ok changes) : change ∈ changes ↔
      ∃ domain, domains[e.1]? = some domain ∧
        ∃ side, cut.sideChange e domain t side = some change := by
  obtain ⟨domain, hd, rfl⟩ := (boundChanges_eq_ok he).mp h
  simp only [hd, Option.some.injEq, exists_eq_left', List.mem_filterMap]
  constructor
  · rintro ⟨side, -, hs⟩
    exact ⟨side, hs⟩
  · rintro ⟨side, hs⟩
    exact ⟨side, by cases side <;> simp, hs⟩

/-- The four cases of sign and side, and the rounding: nothing that satisfies the cut is lost. -/
theorem holds_of_mem_boundChanges (hf : 0 ≤ t.feasibility) (hs : cut.singleEntry = some e)
    {domains : Domains ℝ} {changes : List (BoundChange ℝ)}
    (h : cut.boundChanges e domains t = .ok changes) (hx : domains.Admit x)
    (hc : cut.IsSatisfiedBy x) : ∀ change ∈ changes, change.Holds x := by
  intro change hchange
  have he := ne_zero_of_singleEntry hs
  obtain ⟨domain, hd, side, hside⟩ := (mem_boundChanges he h).mp hchange
  obtain ⟨limit, hlimit, -, rfl⟩ := sideChange_eq_some.mp hside
  have hv := hc side limit hlimit
  rw [value_of_singleEntry hs] at hv
  exact Domain.limits_adjust hf (hx e.1 domain hd).1 ((Direction.limits_through he).mpr hv)

end Cut

namespace SearchTree

/-- No node is marked infeasible, and a point lies in the boxes of all nodes. -/
def Retains (tree : SearchTree ℝ) (x : Nat → ℝ) : Prop :=
  ∀ n ∈ tree.nodes, n.infeasible = false ∧ n.domains.Admit x

variable {tree tree' : SearchTree ℝ}

theorem Retains.domains (h : tree.Retains x) : tree.domains.Admit x :=
  (h tree.focusNode (List.get_mem _ _)).2

theorem Retains.setNode (h : tree.Retains x) {n : Node ℝ} (hn : n.infeasible = false)
    (hx : n.domains.Admit x) (number : Nat) : (tree.setNode number n).Retains x := by
  intro m hm
  rcases List.mem_or_eq_of_mem_set hm with hm | rfl
  · exact h m hm
  · exact ⟨hn, hx⟩

theorem Retains.createChild (h : tree.Retains x) {parent : Nat}
    (ht : tree.createChild parent = .ok tree') : tree'.Retains x := by
  obtain ⟨n, hn, hnodes, -⟩ := createChild_eq_ok.mp ht
  intro m hm
  rw [hnodes] at hm
  rcases List.mem_append.mp hm with hm | hm
  · exact h m hm
  · obtain rfl := List.mem_singleton.mp hm
    exact ⟨rfl, (h n (List.mem_of_getElem? hn)).2⟩

theorem Retains.focusOn (h : tree.Retains x) {node : Nat} (ht : tree.focusOn node = .ok tree') :
    tree'.Retains x := by
  obtain ⟨-, hnodes, -⟩ := focusOn_eq_ok.mp ht
  rwa [Retains, hnodes]

theorem Retains.setBound {tree : SearchTree ℝ} (h : tree.Retains x) {number column : Nat}
    {value : ℝ} {direction : Direction} (hv : direction.Limits value (x column))
    {r : SearchTree ℝ × Bool} (hr : tree.setBound number column value direction = .ok r) :
    r.1.Retains x ∧ r.2 = false := by
  obtain ⟨n, d, hn, hd, rfl⟩ := setBound_eq_ok.mp hr
  obtain ⟨hi, hx⟩ := h n (List.mem_of_getElem? hn)
  rw [if_neg (Domain.not_isCrossedBy (hx column d hd).2 hv)]
  refine ⟨h.setNode ?_ ?_ number, rfl⟩
  · exact hi
  · exact Domains.admit_setBound hx hd hv

end SearchTree

namespace BoundChange

variable {tree : SearchTree ℝ} {change : BoundChange ℝ} {node : Nat}

/-- A change that holds at a retained point leaves the point in all boxes, at whatever node it is
applied and wherever the focus is. -/
theorem retains_apply (hf : 0 ≤ t.feasibility) (h : tree.Retains x) (hc : change.Holds x)
    {r : SearchTree ℝ × Outcome} (hr : change.apply tree node t = .ok r) :
    r.1.Retains x ∧ r.2 ≠ .infeasible := by
  obtain ⟨d, hd, hr⟩ := apply_eq_ok.mp hr
  obtain ⟨hk, hx⟩ := h.domains change.column d hd
  have hv := Domain.limits_adjust hf hk hc
  dsimp only at hr
  split at hr
  · obtain ⟨s, hs, rfl⟩ := hr
    rw [Domain.meet_eq (Domain.not_isCrossedBy hx hv)] at hs
    obtain ⟨hs, hfalse⟩ := h.setBound hv hs
    exact ⟨hs, by simp [hfalse]⟩
  · subst hr
    exact ⟨h, by simp⟩

variable (node) in
theorem retains_applyAll (hf : 0 ≤ t.feasibility) {changes : List (BoundChange ℝ)}
    (h : tree.Retains x) (hc : ∀ change ∈ changes, change.Holds x) :
    (applyAll node t tree changes).tree.Retains x ∧
      (applyAll node t tree changes).infeasible = false := by
  induction changes generalizing tree with
  | nil => exact ⟨h, rfl⟩
  | cons change changes ih =>
    rw [List.forall_mem_cons] at hc
    cases hr : change.apply tree node t with
    | error f =>
      rw [applyAll_cons_of_error hr]
      exact ⟨h, rfl⟩
    | ok r =>
      obtain ⟨hretains, hne⟩ := retains_apply hf h hc.1 hr
      obtain ⟨hrest, hfalse⟩ := ih hretains hc.2
      rw [applyAll_cons_of_ok hr, if_neg hne]
      refine ⟨hrest, ?_⟩
      rw [ChangesApplied.infeasible] at hfalse ⊢
      simp [hne, hfalse]

end BoundChange

end CutSelection
