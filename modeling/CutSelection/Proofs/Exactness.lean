import Mathlib
import CutSelection.Proofs.BoundChanges
import CutSelection.Proofs.Redundancy
import CutSelection.Proofs.Regular
import CutSelection.Proofs.Storage

/-!
The bound commit in exact arithmetic and without tolerances. Each cut on a single variable is
equivalent to the changes that are derived from it, and a commit cuts the box of the node in focus
down to the points that all changes leave, or finds that there are none.
-/

namespace CutSelection

variable {t : Tolerances ℝ} {x : Nat → ℝ}

structure Tolerances.Exact (t : Tolerances ℝ) : Prop where
  epsilon : t.epsilon = 0
  feasibility : t.feasibility = 0

namespace Domain

variable {d : Domain ℝ} {direction : Direction} {value v : ℝ}

theorem limits_value_adjust (ht : t.Exact) : direction.Limits value (d.adjust direction value t) := by
  simp only [adjust]
  cases d.kind with
  | continuous => exact direction.limits_refl value
  | integer =>
    cases direction with
    | lower =>
      have h : value ≤ ⌈value - t.feasibility⌉ := by
        simpa [ht.feasibility] using Int.le_ceil value
      exact h
    | upper =>
      have h : (⌊value + t.feasibility⌋ : ℝ) ≤ value := by
        simpa [ht.feasibility] using Int.floor_le value
      exact h

/-- It makes no difference to the values that a variable may take. -/
theorem limits_adjust_iff (ht : t.Exact) (hk : d.kind.Fits v) :
    direction.Limits (d.adjust direction value t) v ↔ direction.Limits value v :=
  ⟨fun h => (limits_value_adjust ht).trans h, limits_adjust ht.feasibility.ge hk⟩

theorem fits_adjust (d : Domain ℝ) (direction : Direction) (value : ℝ) (t : Tolerances ℝ) :
    d.kind.Fits (d.adjust direction value t) := by
  simp only [adjust]
  cases d.kind with
  | continuous => trivial
  | integer =>
    cases direction with
    | lower => exact ⟨_, rfl⟩
    | upper => exact ⟨_, rfl⟩

theorem isTightenedBy_iff (ht : t.Exact) : d.IsTightenedBy direction value t ↔
    ∀ bound ∈ d.bound direction, ¬direction.Limits value bound := by
  simp only [IsTightenedBy]
  cases direction <;> cases hb : d.bound _ <;>
    simp [Direction.Limits, Tolerances.isGt_iff_lt ht.epsilon, Tolerances.isLt_iff_lt ht.epsilon]

theorem meet_eq_of_exact (ht : t.Exact) : d.meet direction value t = value := by
  rw [meet]
  cases d.bound direction.opposite with
  | none => rfl
  | some opposite =>
    refine if_neg fun h => h.2 ?_
    cases direction
    · exact (Tolerances.isFeasibleGt_iff_lt ht.feasibility).mpr h.1
    · exact (Tolerances.isFeasibleLt_iff_lt ht.feasibility).mpr h.1

theorem contains_setBound_iff (ht : t.Exact) (h : d.IsTightenedBy direction value t) :
    (d.setBound value direction).Contains v ↔ d.Contains v ∧ direction.Limits value v := by
  refine ⟨fun hv => ?_, fun hv => contains_setBound hv.1 hv.2⟩
  have hvalue : direction.Limits value v := hv direction value (bound_setBound ..)
  refine ⟨fun other bound hb => ?_, hvalue⟩
  rcases Direction.eq_or_eq_opposite other direction with rfl | rfl
  · have := (isTightenedBy_iff ht).mp h bound hb
    exact (Direction.limits_of_not_limits this).trans hvalue
  · exact hv _ bound (by rwa [bound_setBound_opposite])

end Domain

theorem Domains.admit_setBound_iff (ht : t.Exact) {domains : Domains ℝ} {column : Nat}
    {d : Domain ℝ} {direction : Direction} {value : ℝ} (hd : domains[column]? = some d)
    (h : d.IsTightenedBy direction value t) :
    Admit (domains.set column (d.setBound value direction)) x ↔
      domains.Admit x ∧ direction.Limits value (x column) := by
  refine ⟨fun hx => ?_, fun hx => admit_setBound hx.1 hd hx.2⟩
  have hlength := (List.getElem?_eq_some_iff.mp hd).1
  obtain ⟨hk, hc⟩ := hx column (d.setBound value direction) (List.getElem?_set_self hlength)
  rw [Domain.kind_setBound] at hk
  obtain ⟨hc, hvalue⟩ := (Domain.contains_setBound_iff ht h).mp hc
  refine ⟨fun other e he => ?_, hvalue⟩
  by_cases hother : column = other
  · subst hother
    obtain rfl : d = e := Option.some.inj (hd.symm.trans he)
    exact ⟨hk, hc⟩
  · exact hx other e (by rwa [List.getElem?_set_ne hother])

theorem Domains.kinds_setBound {domains : Domains ℝ} {column : Nat} {d : Domain ℝ}
    (hd : domains[column]? = some d) (value : ℝ) (direction : Direction) :
    (domains.set column (d.setBound value direction)).map (·.kind) = domains.map (·.kind) := by
  obtain ⟨hlength, rfl⟩ := List.getElem?_eq_some_iff.mp hd
  refine List.ext_getElem (by simp) fun i hi hi' => ?_
  by_cases h : column = i
  · subst h
    simp
  · simp [List.getElem_set_ne h]

namespace BoundChange

variable {tree : SearchTree ℝ} {change : BoundChange ℝ}

/-- What the tree looks like after changes that did not find the node in focus infeasible. -/
structure Reduces (tree tree' : SearchTree ℝ) (changes : List (BoundChange ℝ)) : Prop where
  focus : tree'.focus = tree.focus
  kinds : tree'.domains.map (·.kind) = tree.domains.map (·.kind)
  regular : tree'.domains.Regular
  admit_iff : ∀ x, tree'.domains.Admit x ↔ tree.domains.Admit x ∧ ∀ change ∈ changes, change.Holds x

/-- A bound that tightens the box and leaves room cuts off exactly the points that it does not
limit. -/
theorem reduces_setBound (ht : t.Exact) (hreg : tree.domains.Regular) {d : Domain ℝ} {value : ℝ}
    (hd : tree.domains[change.column]? = some d)
    (htight : d.IsTightenedBy change.direction value t) (hk : d.kind.Fits value)
    (hc : ¬d.IsCrossedBy change.direction value)
    (hv : ∀ v, d.kind.Fits v →
      (change.direction.Limits value v ↔ change.direction.Limits change.value v)) :
    Reduces tree (tree.setNode tree.focus { tree.focusNode with
      domains := tree.domains.set change.column (d.setBound value change.direction) }) [change] := by
  constructor
  · rfl
  · rw [SearchTree.domains_setNode_focus]
    exact Domains.kinds_setBound hd value change.direction
  · rw [SearchTree.domains_setNode_focus]
    intro d' hd'
    rcases List.mem_or_eq_of_mem_set hd' with hd' | rfl
    · exact hreg d' hd'
    · exact (hreg d (List.mem_of_getElem? hd)).setBound hk hc
  · intro x
    rw [SearchTree.domains_setNode_focus, Domains.admit_setBound_iff ht hd htight]
    refine and_congr_right fun hx => ?_
    simpa [Holds] using hv _ (hx change.column d hd).1

theorem reduces_self (ht : t.Exact) (hreg : tree.domains.Regular) {d : Domain ℝ}
    (hd : tree.domains[change.column]? = some d)
    (htight : ¬d.IsTightenedBy change.direction
      (d.adjust change.direction change.value t) t) : Reduces tree tree [change] := by
  refine ⟨rfl, rfl, hreg, fun x => ⟨fun hx => ⟨hx, ?_⟩, fun hx => hx.1⟩⟩
  obtain ⟨hk, hc⟩ := hx change.column d hd
  rw [Domain.isTightenedBy_iff ht] at htight
  push Not at htight
  obtain ⟨bound, hb, hlimit⟩ := htight
  have := (Domain.limits_adjust_iff ht hk).mp (hlimit.trans (hc _ bound hb))
  simpa [Holds] using this

theorem apply_of_crossed (ht : t.Exact) {d : Domain ℝ} (hd : tree.domains[change.column]? = some d)
    (htight : d.IsTightenedBy change.direction (d.adjust change.direction change.value t) t)
    (hcross : d.IsCrossedBy change.direction (d.adjust change.direction change.value t)) :
    change.apply tree tree.focus t =
      .ok (tree.setNode tree.focus { tree.focusNode with infeasible := true }, .infeasible) := by
  refine apply_eq_ok.mpr ⟨d, hd, ?_⟩
  rw [if_pos htight, Domain.meet_eq_of_exact ht]
  refine ⟨_, SearchTree.setBound_eq_ok.mpr ⟨_, d, tree.getElem?_focus, hd, rfl⟩, ?_⟩
  rw [if_pos hcross]
  rfl

theorem apply_of_not_crossed (ht : t.Exact) {d : Domain ℝ}
    (hd : tree.domains[change.column]? = some d)
    (htight : d.IsTightenedBy change.direction (d.adjust change.direction change.value t) t)
    (hcross : ¬d.IsCrossedBy change.direction (d.adjust change.direction change.value t)) :
    change.apply tree tree.focus t = .ok (tree.setNode tree.focus { tree.focusNode with
      domains := tree.domains.set change.column
        (d.setBound (d.adjust change.direction change.value t) change.direction) }, .applied) := by
  refine apply_eq_ok.mpr ⟨d, hd, ?_⟩
  rw [if_pos htight, Domain.meet_eq_of_exact ht]
  refine ⟨_, SearchTree.setBound_eq_ok.mpr ⟨_, d, tree.getElem?_focus, hd, rfl⟩, ?_⟩
  rw [if_neg hcross]
  rfl

/-- A change either leaves no point of the box, and the node is found infeasible, or it leaves
exactly the points that it holds at. -/
theorem apply_exact (ht : t.Exact) (hreg : tree.domains.Regular)
    (hc : change.column < tree.domains.length) :
    ∃ r, change.apply tree tree.focus t = .ok r ∧
      ((r.2 = .infeasible ∧ ∀ x, tree.domains.Admit x → ¬change.Holds x) ∨
        r.2 ≠ .infeasible ∧ Reduces tree r.1 [change]) := by
  have hd := List.getElem?_eq_getElem hc
  set d := tree.domains[change.column] with hdef
  by_cases htight : d.IsTightenedBy change.direction (d.adjust change.direction change.value t) t
  · by_cases hcross : d.IsCrossedBy change.direction (d.adjust change.direction change.value t)
    · refine ⟨_, apply_of_crossed ht hd htight hcross, .inl ⟨rfl, fun x hx hholds => ?_⟩⟩
      obtain ⟨hk, hcontains⟩ := hx change.column d hd
      exact Domain.not_isCrossedBy hcontains ((Domain.limits_adjust_iff ht hk).mpr hholds) hcross
    · exact ⟨_, apply_of_not_crossed ht hd htight hcross, .inr ⟨by simp,
        reduces_setBound ht hreg hd htight (d.fits_adjust ..) hcross
          fun v hk => Domain.limits_adjust_iff ht hk⟩⟩
  · exact ⟨_, apply_of_not_isTightenedBy hd htight,
      .inr ⟨by simp, reduces_self ht hreg hd htight⟩⟩

theorem Reduces.nil (h : tree.domains.Regular) : Reduces tree tree [] :=
  ⟨rfl, rfl, h, by simp⟩

theorem Reduces.cons {tree' tree'' : SearchTree ℝ} {changes : List (BoundChange ℝ)}
    (h : Reduces tree tree' [change]) (h' : Reduces tree' tree'' changes) :
    Reduces tree tree'' (change :: changes) :=
  ⟨h'.focus.trans h.focus, h'.kinds.trans h.kinds, h'.regular, fun x => by
    rw [h'.admit_iff, h.admit_iff]
    simp [and_assoc]⟩

theorem Reduces.length_eq {tree' : SearchTree ℝ} {changes : List (BoundChange ℝ)}
    (h : Reduces tree tree' changes) : tree'.domains.length = tree.domains.length := by
  simpa using congrArg List.length h.kinds

/-- The same for a list of changes: the first one that leaves no point ends it. -/
theorem applyAll_exact (ht : t.Exact) {changes : List (BoundChange ℝ)}
    (hreg : tree.domains.Regular) (hc : ∀ change ∈ changes, change.column < tree.domains.length) :
    (applyAll tree.focus t tree changes).fault = none ∧
      (((applyAll tree.focus t tree changes).infeasible = true ∧
          ∀ x, tree.domains.Admit x → ¬∀ change ∈ changes, change.Holds x) ∨
        (applyAll tree.focus t tree changes).infeasible = false ∧
          Reduces tree (applyAll tree.focus t tree changes).tree changes) := by
  induction changes generalizing tree with
  | nil => exact ⟨rfl, .inr ⟨rfl, .nil hreg⟩⟩
  | cons change changes ih =>
    rw [List.forall_mem_cons] at hc
    obtain ⟨r, hr, hcase⟩ := apply_exact ht hreg hc.1
    rw [applyAll_cons_of_ok hr]
    rcases hcase with ⟨hinfeasible, hnone⟩ | ⟨hne, hreduces⟩
    · rw [if_pos hinfeasible]
      refine ⟨rfl, .inl ⟨by simp [ChangesApplied.infeasible], fun x hx hholds => ?_⟩⟩
      exact hnone x hx (hholds change List.mem_cons_self)
    · have hrest := ih hreduces.regular fun c hmem => by
        rw [hreduces.length_eq]
        exact hc.2 c hmem
      rw [hreduces.focus] at hrest
      obtain ⟨hfault, hcase⟩ := hrest
      rw [if_neg hne]
      refine ⟨hfault, ?_⟩
      rcases hcase with ⟨hinfeasible, hnone⟩ | ⟨hfeasible, hrest⟩
      · left
        refine ⟨?_, fun x hx hholds => ?_⟩
        · rw [ChangesApplied.infeasible] at hinfeasible ⊢
          simp [hinfeasible]
        · rw [List.forall_mem_cons] at hholds
          refine hnone x ((hreduces.admit_iff x).mpr ⟨hx, ?_⟩) hholds.2
          simpa using hholds.1
      · right
        refine ⟨?_, hreduces.cons hrest⟩
        rw [ChangesApplied.infeasible] at hfeasible ⊢
        simp [hne, hfeasible]

end BoundChange

end CutSelection
