import Mathlib
import CutSelection.Proofs.Tightening

/-!
A bound change at a node of the search tree. Whether it does anything is decided by the bounds of
the node in focus, and it reaches one bound of the given node and nothing else. At the node in focus
it never widens a domain, and a second application finds nothing left to do unless the value was
moved onto the opposite bound.
-/

namespace CutSelection

variable {K : Type} [Scalar K]

namespace SearchTree

variable {tree tree' : SearchTree K} {number column : Nat} {value : K} {direction : Direction}
  {crosses : Bool}

theorem getElem?_setBound_of_ne
    (h : tree.setBound number column value direction = .ok (tree', crosses)) {i : Nat}
    (hi : i ≠ number) : tree'.nodes[i]? = tree.nodes[i]? := by
  obtain ⟨n, d, -, -, hr⟩ := setBound_eq_ok.mp h
  split at hr <;> cases hr <;> exact List.getElem?_set_ne hi.symm

theorem setBound_self {n : Node K} {d : Domain K} (hn : tree.nodes[number]? = some n)
    (hd : n.domains[column]? = some d) (hb : value ∈ d.bound direction)
    (hc : ¬d.IsCrossedBy direction value) :
    tree.setBound number column value direction = .ok (tree, false) := by
  refine setBound_eq_ok.mpr ⟨n, d, hn, hd, ?_⟩
  obtain ⟨hlt, hget⟩ := List.getElem?_eq_some_iff.mp hn
  obtain ⟨hlt', hget'⟩ := List.getElem?_eq_some_iff.mp hd
  have hsame : tree.setNode number n = tree := by
    rw [eq_iff, nodes_setNode, ← hget]
    exact ⟨List.set_getElem_self hlt, rfl⟩
  have hdomains : n.domains.set column d = n.domains := by
    rw [← hget']
    exact List.set_getElem_self hlt'
  rw [if_neg hc, Domain.setBound_eq_self hb, hdomains, hsame]

theorem getElem?_domains_setBound {d : Domain K} (hd : tree.domains[column]? = some d)
    (h : tree.setBound tree.focus column value direction = .ok (tree', false)) :
    ¬d.IsCrossedBy direction value ∧
      tree'.domains[column]? = some (d.setBound value direction) := by
  obtain ⟨n, e, hn, he, hr⟩ := setBound_eq_ok.mp h
  obtain rfl : n = tree.focusNode := Option.some.inj (hn.symm.trans tree.getElem?_focus)
  obtain rfl : d = e := Option.some.inj (hd.symm.trans he)
  split at hr
  · cases hr
  · rename_i hc
    cases hr
    refine ⟨hc, ?_⟩
    rw [domains_setNode_focus]
    exact List.getElem?_set_self (List.getElem?_eq_some_iff.mp hd).1

end SearchTree

namespace BoundChange

variable {tree tree' : SearchTree K} {change : BoundChange K} {node : Nat} {t : Tolerances K}
  {d : Domain K}

section Outcomes

variable {outcome : Outcome} (h : change.apply tree node t = .ok (tree', outcome))

include h

/-- The bounds in focus decide whether anything happens, wherever the node is. -/
theorem dominated_iff (hd : tree.domains[change.column]? = some d) : outcome = .dominated ↔
    ¬d.IsTightenedBy change.direction (d.adjust change.direction change.value t) t := by
  by_cases ht : d.IsTightenedBy change.direction (d.adjust change.direction change.value t) t
  · refine iff_of_false (fun ho => ?_) (not_not.mpr ht)
    obtain ⟨e, he, hr⟩ := apply_eq_ok.mp h
    obtain rfl : d = e := Option.some.inj (hd.symm.trans he)
    rw [if_pos ht, ho] at hr
    obtain ⟨⟨s, crosses⟩, -, hs⟩ := hr
    cases crosses <;> cases hs
  · rw [apply_of_not_isTightenedBy hd ht] at h
    cases h
    exact iff_of_true rfl ht

/-- No other bound moves, and none at all unless the change is applied. -/
theorem bound?_apply {i j : Nat} {direction : Direction} (hother : i ≠ node ∨ j ≠ change.column ∨
    direction ≠ change.direction ∨ outcome ≠ .applied) :
    tree'.bound? i j direction = tree.bound? i j direction := by
  rcases apply_cases h with hr | ⟨value, s, crosses, hs, hr⟩
  · cases hr
    rfl
  · cases hr
    rw [SearchTree.bound?_setBound hs, if_neg]
    rintro ⟨rfl, rfl, rfl, rfl⟩
    simp at hother

theorem getElem?_apply_of_ne {i : Nat} (hi : i ≠ node) : tree'.nodes[i]? = tree.nodes[i]? := by
  rcases apply_cases h with hr | ⟨value, s, crosses, hs, hr⟩
  · cases hr
    rfl
  · cases hr
    exact SearchTree.getElem?_setBound_of_ne hs hi

theorem links_apply : tree'.links = tree.links := by
  rcases apply_cases h with hr | ⟨value, s, crosses, hs, hr⟩
  · cases hr
    rfl
  · cases hr
    exact SearchTree.links_setBound hs

theorem focus_apply : tree'.focus = tree.focus := by
  rcases apply_cases h with hr | ⟨value, s, crosses, hs, hr⟩
  · cases hr
    rfl
  · cases hr
    exact SearchTree.focus_setBound hs

end Outcomes

/-- An applied change tightens the bound in focus, and sets its value, moved onto the opposite bound
in focus if it is barely beyond it. -/
theorem setBound_of_applied (hd : tree.domains[change.column]? = some d)
    (h : change.apply tree node t = .ok (tree', .applied)) :
    d.IsTightenedBy change.direction (d.adjust change.direction change.value t) t ∧
      tree.setBound node change.column
        (d.meet change.direction (d.adjust change.direction change.value t) t) change.direction =
          .ok (tree', false) := by
  have ht : d.IsTightenedBy change.direction (d.adjust change.direction change.value t) t := by
    by_contra hnot
    cases (dominated_iff h hd).mpr hnot
  obtain ⟨e, he, hr⟩ := apply_eq_ok.mp h
  obtain rfl : d = e := Option.some.inj (hd.symm.trans he)
  rw [if_pos ht] at hr
  obtain ⟨⟨s, crosses⟩, hs, hr⟩ := hr
  cases crosses with
  | true => cases hr
  | false =>
    cases hr
    exact ⟨ht, hs⟩

variable (t) in
theorem exists_apply_eq_ok {n : Node K} {own : Domain K} (hn : tree.nodes[node]? = some n)
    (hown : n.domains[change.column]? = some own)
    (hd : tree.domains[change.column]? = some d) :
    ∃ tree' outcome, change.apply tree node t = .ok (tree', outcome) := by
  by_cases ht : d.IsTightenedBy change.direction (d.adjust change.direction change.value t) t
  · have hbound : (tree.bound? node change.column change.direction).isSome := by
      simp [SearchTree.bound?, hn, hown]
    obtain ⟨tree', crosses, hs⟩ := SearchTree.exists_setBound_eq_ok
      (d.meet change.direction (d.adjust change.direction change.value t) t) hbound
    exact ⟨tree', _, apply_of_setBound hd ht hs⟩
  · exact ⟨tree, .dominated, apply_of_not_isTightenedBy hd ht⟩

section Tolerant

variable [TolerantScalar K]

/-- A bound change at a node, in focus or not. The bounds in focus decide: the change is dominated
exactly if its value, adjusted there, does not tighten the bound in focus. Only the given bound of
the given node may move, and it does so only if the change is applied. Where the focus has the same
bound as the node, the node's own bound decides, and where the focus has one that is at least as
tight, the node's bound is never loosened. -/
theorem apply_decided_in_focus (h0 : 0 ≤ t.epsilon) {n : Node K} {own focused : Domain K}
    (hn : tree.nodes[node]? = some n) (hown : n.domains[change.column]? = some own)
    (hfocused : tree.domains[change.column]? = some focused) :
    ∃ tree' outcome, change.apply tree node t = .ok (tree', outcome) ∧
      (outcome = .dominated ↔ ¬focused.IsTightenedBy change.direction
        (focused.adjust change.direction change.value t) t) ∧
      (∀ i j direction, i ≠ node ∨ j ≠ change.column ∨ direction ≠ change.direction ∨
        outcome ≠ .applied → tree'.bound? i j direction = tree.bound? i j direction) ∧
      (∀ i, i ≠ node → tree'.nodes[i]? = tree.nodes[i]?) ∧
      tree'.links = tree.links ∧ tree'.focus = tree.focus ∧
      (own.kind = focused.kind → own.bound change.direction = focused.bound change.direction →
        (outcome = .dominated ↔ ¬own.IsTightenedBy change.direction
          (own.adjust change.direction change.value t) t)) ∧
      (outcome = .applied → ∃ value,
        tree'.bound? node change.column change.direction = some (some value) ∧
          (focused.Ordered → (∀ bound ∈ own.bound change.direction,
              ∃ inner ∈ focused.bound change.direction, change.direction.AsTight inner bound) →
            ∀ bound ∈ own.bound change.direction, change.direction.AsTight value bound)) := by
  obtain ⟨tree', outcome, h⟩ := exists_apply_eq_ok t hn hown hfocused
  have hdominated := dominated_iff h hfocused
  refine ⟨tree', outcome, h, hdominated, fun _ _ _ => bound?_apply h,
    fun _ => getElem?_apply_of_ne h, links_apply h, focus_apply h, fun hk hb => ?_, ?_⟩
  · rwa [Domain.adjust_congr hk, Domain.isTightenedBy_congr hb]
  · rintro rfl
    obtain ⟨ht, hs⟩ := setBound_of_applied hfocused h
    have hvalue := (SearchTree.bound?_setBound hs node change.column change.direction).trans
      (if_pos ⟨rfl, rfl, rfl, rfl⟩)
    refine ⟨_, hvalue, fun hordered hinner bound hb => ?_⟩
    obtain ⟨inner, hi, htight⟩ := hinner bound hb
    exact (Domain.asTight_meet h0 hordered ht hi).trans htight

/-- A root between 0 and 10 that is in focus, and a child of it that was tightened to lie above
5. -/
def tightChild : SearchTree Float :=
  (Session.trail (Session.start [] .standard [0] [⟨.continuous, some 0, some 10⟩])
    [.createChild 0, .focusOn 1, .setBound none 0 5 .lower, .focusOn 0]).2.tree

theorem apply_decided_in_focus_tightChild :
    let change : BoundChange Float := ⟨0, 7, .upper⟩
    ∃ tree' value, change.apply tightChild 1 .standard = .ok (tree', .applied) ∧
      tree'.bound? 1 0 .upper = some (some value) ∧ value ≤ 10 ∧
      tree'.bound? 1 0 .lower = some (some 5) ∧ tree'.bound? 0 0 .upper = some (some 10) := by
  intro change
  obtain ⟨tree', outcome, h, -, hother, -, -, -, hown, happlied⟩ :=
    @apply_decided_in_focus Float _ tightChild change 1 .standard _ (by decide +kernel) _ _ _
      (show tightChild.nodes[1]? =
        some ⟨some 0, 1, [⟨.continuous, some 5, some 10⟩], false⟩ from rfl) rfl
      (show tightChild.domains[0]? = some ⟨.continuous, some 0, some 10⟩ from rfl)
  have hresult : (change.apply tightChild 1 .standard).map (·.2) = .ok .applied := by
    decide +kernel
  rw [h] at hresult
  obtain rfl : outcome = .applied := Except.ok.inj hresult
  obtain ⟨value, hvalue, htight⟩ := happlied rfl
  refine ⟨tree', value, h, hvalue, htight ?_ ?_ 10 rfl, ?_, ?_⟩
  · rintro lower ⟨⟩ upper ⟨⟩
    decide +kernel
  · rintro bound ⟨⟩
    exact ⟨10, rfl, show (10 : Float) ≤ 10 by decide +kernel⟩
  · rw [hother 1 0 .lower (.inr (.inr (.inl (by decide))))]
    decide +kernel
  · rw [hother 0 0 .upper (.inl (by decide))]
    decide +kernel

theorem loosened_tightChild :
    let change : BoundChange Float := ⟨0, 3, .lower⟩
    tightChild.bound? 1 0 .lower = some (some 5) ∧
      (∀ n ∈ tightChild.nodes[1]?, ∀ own ∈ n.domains[0]?,
        ¬own.IsTightenedBy .lower (own.adjust .lower 3 .standard) .standard) ∧
      (change.apply tightChild 1 .standard).map
        (fun r => (r.2, r.1.bound? 1 0 .lower)) = .ok (.applied, some (some 3)) := by
  decide +kernel

/-- A change that was applied at the node in focus is applied once more. The tree stays as it is,
and nothing is found infeasible. The first application tightened the bound, and the second one is
dominated, exactly if the value was not beyond the opposite bound, or was beyond it by no more than
`epsilon` and the opposite bound tightens the domain. -/
theorem apply_again (h0 : 0 ≤ t.epsilon)
    (h : change.apply tree tree.focus t = .ok (tree', .applied)) :
    ∃ d bound outcome, tree.domains[change.column]? = some d ∧
      tree'.domains[change.column]? = some (d.setBound bound change.direction) ∧
      change.apply tree' tree'.focus t = .ok (tree', outcome) ∧ outcome ≠ .infeasible ∧
      (d.IsTightenedBy change.direction bound t ∧ outcome = .dominated ↔
        ∀ opposite ∈ d.bound change.direction.opposite,
          change.direction.Crosses (d.adjust change.direction change.value t) opposite →
            d.IsTightenedBy change.direction opposite t ∧
              ¬(d.setBound opposite change.direction).IsTightenedBy change.direction
                (d.adjust change.direction change.value t) t) := by
  obtain ⟨d, hd, -⟩ := apply_eq_ok.mp h
  obtain ⟨ht, hs⟩ := setBound_of_applied hd h
  obtain ⟨hc, hd'⟩ := SearchTree.getElem?_domains_setBound hd hs
  have hsettles := Domain.meet_settles_iff h0 ht hc
  set value := d.adjust change.direction change.value t with hvalue
  set bound := d.meet change.direction value t with hbound
  have hvalue' : (d.setBound bound change.direction).adjust change.direction change.value t =
      value := Domain.adjust_congr (Domain.kind_setBound d bound change.direction) ..
  by_cases hagain : (d.setBound bound change.direction).IsTightenedBy change.direction value t
  · have hself : tree'.setBound tree'.focus change.column
        ((d.setBound bound change.direction).meet change.direction
          ((d.setBound bound change.direction).adjust change.direction change.value t) t)
        change.direction = .ok (tree', false) := by
      rw [hvalue', Domain.meet_setBound]
      exact SearchTree.setBound_self tree'.getElem?_focus hd' (Domain.bound_setBound ..)
        (by rwa [Domain.isCrossedBy_setBound])
    refine ⟨d, bound, .applied, hd, hd', apply_of_setBound hd' ?_ hself, by simp, ?_⟩
    · rwa [hvalue']
    · rw [← hsettles]
      simp [hagain]
  · refine ⟨d, bound, .dominated, hd, hd', apply_of_not_isTightenedBy hd' ?_, by simp, ?_⟩
    · rwa [hvalue']
    · rw [← hsettles]
      simp [hagain]

def single (lower upper : Float) : SearchTree Float :=
  .ofRoot [⟨.continuous, some lower, some upper⟩]

def raise (value : Float) : BoundChange Float := ⟨0, value, .lower⟩

theorem apply_again_barelyBeyond :
    ∃ tree', (raise 10.000000001).apply (single 0 10) 0 .standard = .ok (tree', .applied) ∧
      (raise 10.000000001).apply tree' tree'.focus .standard = .ok (tree', .dominated) ∧
      tree'.domains[0]? = some ⟨.continuous, some 10, some 10⟩ := by
  have happly : (raise 10.000000001).apply (single 0 10) (single 0 10).focus .standard =
      .ok (.ofRoot [⟨.continuous, some 10, some 10⟩], .applied) := by rfl
  obtain ⟨d, bound, outcome, hd, -, hagain, -, hlaw⟩ := apply_again (by decide +kernel) happly
  obtain rfl : ⟨.continuous, some 0, some 10⟩ = d := Option.some.inj hd
  have hdominated := (hlaw.mpr (by rintro opposite ⟨⟩ -; decide +kernel)).2
  exact ⟨_, happly, hdominated ▸ hagain, rfl⟩

/-- A value that is beyond it by more is applied again and again, and also to a fixed variable, whose
bound it does not tighten. -/
theorem applied_again_beyond :
    ((raise 10.000001).apply (single 0 10) 0 .standard).map (·.2) = .ok .applied ∧
      (((raise 10.000001).apply (single 0 10) 0 .standard).bind fun r =>
        ((raise 10.000001).apply r.1 0 .standard).map (·.2)) = .ok .applied ∧
      ((raise 10.000001).apply (single 10 10) 0 .standard).map
        (fun r => (r.2, r.1.bound? 0 0 .lower)) = .ok (.applied, some (some 10)) ∧
      ∀ d ∈ (single 10 10).domains, ¬d.IsTightenedBy .lower 10 .standard := by
  decide +kernel

end Tolerant

end BoundChange
end CutSelection
