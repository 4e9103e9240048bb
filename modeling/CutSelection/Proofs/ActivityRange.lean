import Mathlib
import CutSelection.Proofs.Redundancy
import CutSelection.Proofs.Regular
import CutSelection.Proofs.Tightening

/-!
The range of a cut over a box. In exact arithmetic an activity bound is the value of the linear part
at some point of the box, and if there is none, the box has points where the linear part lies beyond
any limit. So the redundancy filter drops a cut exactly if the whole box satisfies it.
-/

namespace CutSelection

namespace Domain

variable {d : Domain ℝ} {direction : Direction} {bound : ℝ}

theorem Ordered.regular (h : d.Ordered) :
    ({ d with kind := .continuous } : Domain ℝ).Regular :=
  ⟨h, fun _ _ _ => trivial⟩

theorem Ordered.contains_bound (h : d.Ordered) (hb : bound ∈ d.bound direction) :
    d.Contains bound :=
  (h.regular.admits_bound hb).2

theorem Ordered.exists_contains_beyond (h : d.Ordered) (hb : d.bound direction = none)
    (limit : ℝ) : ∃ v, d.Contains v ∧ ¬direction.Limits limit v := by
  obtain ⟨v, hv, hbeyond⟩ :=
    h.regular.exists_beyond hb (show VariableKind.continuous.Fits limit from trivial)
  exact ⟨v, hv.2, hbeyond⟩

end Domain

namespace Domains

variable {domains : Domains ℝ} {x : Nat → ℝ} {column : Nat} {d : Domain ℝ} {v : ℝ}

theorem exists_contain (h : ∀ d ∈ domains, d.Ordered) : ∃ x, domains.Contain x := by
  have hregular : Regular (domains.map fun d => { d with kind := .continuous }) := by
    intro d hd
    obtain ⟨own, hown, rfl⟩ := List.mem_map.mp hd
    exact (h own hown).regular
  obtain ⟨x, hx⟩ := hregular.exists_admit
  exact ⟨x, fun column d hd => (hx column { d with kind := .continuous } (by simp [hd])).2⟩

theorem Contain.update (hx : domains.Contain x) (hd : domains[column]? = some d)
    (hv : d.Contains v) : domains.Contain (Function.update x column v) := by
  intro other own hown
  rcases eq_or_ne other column with rfl | hne
  · obtain rfl : d = own := Option.some.inj (hd.symm.trans hown)
    rwa [Function.update_self]
  · rw [Function.update_of_ne hne]
    exact hx other own hown

end Domains

namespace Cut

section Entries

variable {K : Type} [Scalar K] {domains : Domains K} {direction : Direction}
  {entries : List (Entry K)}

theorem exists_boundSum_eq_ok (h : ∀ e ∈ entries, e.1 < domains.length) (total : K) :
    ∃ bound, boundSum domains direction total entries = .ok bound := by
  induction entries generalizing total with
  | nil => exact ⟨some total, rfl⟩
  | cons e entries ih =>
    rw [List.forall_mem_cons] at h
    have hd : domains.get e.1 = .ok domains[e.1] :=
      Domains.get_eq_ok.mpr (List.getElem?_eq_getElem h.1)
    cases hb : domains[e.1].bound (direction.through e.2) with
    | none => exact ⟨none, by simp [boundSum, hd, hb, bind, Except.bind]⟩
    | some b =>
      obtain ⟨bound, hbound⟩ := ih h.2 (total + e.2 * b)
      exact ⟨bound, by simpa [boundSum, hd, hb, bind, Except.bind] using hbound⟩

theorem exists_bound_eq_none {total : K}
    (h : boundSum domains direction total entries = .ok none) :
    ∃ e ∈ entries, ∃ d, domains[e.1]? = some d ∧ d.bound (direction.through e.2) = none := by
  induction entries generalizing total with
  | nil => simp [boundSum] at h
  | cons e entries ih =>
    cases hd : domains.get e.1 with
    | error f => simp [boundSum, hd, bind, Except.bind] at h
    | ok d =>
      cases hb : d.bound (direction.through e.2) with
      | none => exact ⟨e, List.mem_cons_self, d, Domains.get_eq_ok.mp hd, hb⟩
      | some b =>
        simp only [boundSum, hd, hb, bind, Except.bind] at h
        obtain ⟨f, hf, hrest⟩ := ih h
        exact ⟨f, List.mem_cons_of_mem e hf, hrest⟩

variable {cut : Cut K}
  (h : ∀ e ∈ cut.coefficients.entries, e.1 < domains.length)

include h

theorem exists_activityBound_eq_ok (direction : Direction) :
    ∃ bound, cut.activityBound domains direction = .ok bound := exists_boundSum_eq_ok h (-0)

theorem exists_lowerSideIsRedundant_eq_ok (t : Tolerances K) :
    ∃ redundant, cut.lowerSideIsRedundant domains t = .ok redundant := by
  obtain ⟨least, hleast⟩ := exists_activityBound_eq_ok h .lower
  rw [lowerSideIsRedundant, minActivity, hleast]
  cases cut.lhs <;> cases least <;> exact ⟨_, rfl⟩

theorem exists_upperSideIsRedundant_eq_ok (t : Tolerances K) :
    ∃ redundant, cut.upperSideIsRedundant domains t = .ok redundant := by
  obtain ⟨greatest, hgreatest⟩ := exists_activityBound_eq_ok h .upper
  rw [upperSideIsRedundant, maxActivity, hgreatest]
  cases cut.rhs <;> cases greatest <;> exact ⟨_, rfl⟩

theorem exists_isRedundant_eq_ok (t : Tolerances K) :
    ∃ redundant, cut.isRedundant domains t = .ok redundant := by
  obtain ⟨lower, hlower⟩ := exists_lowerSideIsRedundant_eq_ok h t
  obtain ⟨upper, hupper⟩ := exists_upperSideIsRedundant_eq_ok h t
  rw [isRedundant, hlower, hupper]
  cases cut.modifiable <;> cases lower <;> exact ⟨_, rfl⟩

end Entries

variable {domains : Domains ℝ} {x : Nat → ℝ} {direction : Direction} {entries : List (Entry ℝ)}

theorem sum_update_of_forall_ne {column : Nat} (h : ∀ e ∈ entries, e.1 ≠ column) (v : ℝ) :
    (entries.map fun e => e.2 * Function.update x column v e.1).sum =
      (entries.map fun e => e.2 * x e.1).sum := by
  refine congrArg List.sum (List.map_congr_left fun e he => ?_)
  rw [Function.update_of_ne (h e he)]

/-- Every column has one coefficient, so that the products change by a multiple of the move. -/
theorem sum_update (hs : entries.Pairwise fun e f => e.1 < f.1) {e : Entry ℝ} (he : e ∈ entries)
    (v : ℝ) : (entries.map fun f => f.2 * Function.update x e.1 v f.1).sum =
      e.2 * v + ((entries.map fun f => f.2 * x f.1).sum - e.2 * x e.1) := by
  induction entries with
  | nil => cases he
  | cons first entries ih =>
    obtain ⟨hfirst, hs⟩ := List.pairwise_cons.mp hs
    simp only [List.map_cons, List.sum_cons]
    rcases List.mem_cons.mp he with rfl | he
    · rw [Function.update_self, sum_update_of_forall_ne fun f hf => (hfirst f hf).ne']
      ring
    · rw [ih hs he, Function.update_of_ne (hfirst e he).ne]
      ring

/-- The sum of the selected bounds is that of the products at a corner. Columns without an entry
stay where they are, which lets the columns be moved one by one. -/
theorem boundSum_attained (hd : ∀ d ∈ domains, d.Ordered)
    (hs : entries.Pairwise fun e f => e.1 < f.1) (hx : domains.Contain x) {total bound : ℝ}
    (h : boundSum domains direction total entries = .ok (some bound)) :
    ∃ y, domains.Contain y ∧ (∀ column, (∀ e ∈ entries, e.1 ≠ column) → y column = x column) ∧
      total + (entries.map fun e => e.2 * y e.1).sum = bound := by
  induction entries generalizing x total with
  | nil =>
    simp only [boundSum, Except.ok.injEq, Option.some.injEq] at h
    exact ⟨x, hx, fun _ _ => rfl, by simp [h]⟩
  | cons e entries ih =>
    obtain ⟨hfirst, hs⟩ := List.pairwise_cons.mp hs
    obtain ⟨d, hcolumn, b, hb, h⟩ := boundSum_cons_eq_some.mp h
    have hcontains := (hd d (List.mem_of_getElem? hcolumn)).contains_bound hb
    -- The first column is moved first, and has no entry among the others that would move it again.
    obtain ⟨y, hy, hother, hsum⟩ := ih hs (hx.update hcolumn hcontains) h
    have hye : y e.1 = b := by
      rw [hother e.1 fun f hf => (hfirst f hf).ne', Function.update_self]
    refine ⟨y, hy, fun column hcolumn => ?_, ?_⟩
    · rw [List.forall_mem_cons] at hcolumn
      rw [hother column hcolumn.2, Function.update_of_ne hcolumn.1.symm]
    · rw [← hsum, List.map_cons, List.sum_cons, hye, add_assoc]

variable {cut : Cut ℝ} {t : Tolerances ℝ}

theorem value_update {e : Entry ℝ} (he : e ∈ cut.coefficients.entries) (v : ℝ) :
    cut.value (Function.update x e.1 v) = e.2 * v + (cut.value x - e.2 * x e.1) := by
  rw [value, sum_update cut.coefficients.sorted he, value]
  ring

theorem exists_value_eq (hd : ∀ d ∈ domains, d.Ordered) {extreme : ℝ}
    (h : cut.activityBound domains direction = .ok (some extreme)) :
    ∃ x, domains.Contain x ∧ cut.value x = extreme + cut.constant := by
  obtain ⟨x, hx⟩ := Domains.exists_contain hd
  obtain ⟨y, hy, -, hsum⟩ := boundSum_attained hd cut.coefficients.sorted hx h
  rw [neg_zero, zero_add] at hsum
  exact ⟨y, hy, by rw [value, hsum]⟩

theorem exists_value_beyond (hd : ∀ d ∈ domains, d.Ordered)
    (h : cut.activityBound domains direction = .ok none) (limit : ℝ) :
    ∃ x, domains.Contain x ∧ ¬direction.Limits limit (cut.value x) := by
  obtain ⟨x, hx⟩ := Domains.exists_contain hd
  obtain ⟨e, he, d, hcolumn, hb⟩ := exists_bound_eq_none h
  obtain ⟨v, hv, hbeyond⟩ := (hd d (List.mem_of_getElem? hcolumn)).exists_contains_beyond hb
    ((limit - (cut.value x - e.2 * x e.1)) / e.2)
  refine ⟨_, hx.update hcolumn hv, ?_⟩
  rwa [value_update he, ← Direction.limits_through (cut.entries_ne_zero e he)]

/-- A finite side is kept to exactly if no point of the box is beyond it. -/
theorem keepsTo_iff (hf : t.feasibility = 0) (hd : ∀ d ∈ domains, d.Ordered)
    (hcover : ∀ e ∈ cut.coefficients.entries, e.1 < domains.length) {side : Direction} :
    cut.KeepsTo domains t side ↔
      ∀ x, domains.Contain x → ∀ limit ∈ cut.side side, side.Limits limit (cut.value x) := by
  constructor
  · exact fun h x hx => h.limits hf hx
  · intro h limit hlimit
    obtain ⟨bound, hbound⟩ := exists_activityBound_eq_ok hcover side
    cases bound with
    | none =>
      obtain ⟨x, hx, hbeyond⟩ := exists_value_beyond hd hbound limit
      exact absurd (h x hx limit hlimit) hbeyond
    | some extreme =>
      obtain ⟨x, hx, hvalue⟩ := exists_value_eq hd hbound
      have hlimits := hvalue ▸ h x hx limit hlimit
      exact ⟨extreme, hbound, (Direction.feasiblyLimits_iff hf).mpr
        (Direction.limits_sub_iff.mpr hlimits)⟩

/-- The redundancy filter is exact. A modifiable cut is never redundant. On ordered domains that
cover it, the filter answers on any other cut, and drops it exactly if all points within the bounds
satisfy it. -/
theorem isRedundant_iff_forall_isSatisfiedBy (cut : Cut ℝ) (domains : Domains ℝ)
    (t : Tolerances ℝ) :
    (cut.modifiable = true → cut.isRedundant domains t = .ok false) ∧
      (cut.modifiable = false → t.feasibility = 0 → (∀ d ∈ domains, d.Ordered) →
        (∀ e ∈ cut.coefficients.entries, e.1 < domains.length) →
          ∃ redundant, cut.isRedundant domains t = .ok redundant ∧
            (redundant = true ↔ ∀ x, domains.Contain x → cut.IsSatisfiedBy x)) := by
  refine ⟨fun hm => by simp [isRedundant, hm], fun hm hf hd hcover => ?_⟩
  obtain ⟨redundant, hredundant⟩ := exists_isRedundant_eq_ok hcover t
  refine ⟨redundant, hredundant, ?_⟩
  calc redundant = true ↔ cut.isRedundant domains t = .ok true := by simp [hredundant]
    _ ↔ ∀ side, cut.KeepsTo domains t side := by simp [isRedundant_eq_true_iff, hm]
    _ ↔ ∀ side x, domains.Contain x → ∀ limit ∈ cut.side side, side.Limits limit (cut.value x) :=
      forall_congr' fun side => keepsTo_iff hf hd hcover
    _ ↔ ∀ x, domains.Contain x → cut.IsSatisfiedBy x :=
      ⟨fun h x hx side => h side x hx, fun h side x hx => h x hx side⟩

noncomputable def difference (modifiable : Bool) : Cut ℝ :=
  ⟨"difference", ⟨[(0, 1), (1, -2)], 2, by simp [SparseVector.WellFormed]⟩, 1, some (-5), none,
    modifiable⟩

/-- Its value is at least -5 where the first variable is nonnegative and the second one at most 3. -/
theorem isRedundant_difference :
    let domains : Domains ℝ := [⟨.continuous, some 0, some 1⟩, ⟨.integer, none, some 3⟩]
    (difference false).isRedundant domains ⟨0, 0, 0⟩ = .ok true ∧
      (difference true).isRedundant domains ⟨0, 0, 0⟩ = .ok false := by
  intro domains
  have hordered : ∀ d ∈ domains, d.Ordered := by simp [domains, Domain.Ordered]
  have hcover : ∀ e ∈ (difference false).coefficients.entries, e.1 < domains.length := by
    simp [difference, domains]
  have hsatisfied : ∀ x, domains.Contain x → (difference false).IsSatisfiedBy x := by
    intro x hx
    have hfirst := (Domain.contains_iff.mp (hx 0 _ rfl)).1 0 rfl
    have hsecond := (Domain.contains_iff.mp (hx 1 _ rfl)).2 3 rfl
    refine isSatisfiedBy_iff.mpr ⟨?_, by simp [difference]⟩
    rintro lhs ⟨⟩
    simp only [value, difference, List.map_cons, List.map_nil, List.sum_cons, List.sum_nil]
    linarith
  obtain ⟨redundant, hredundant, hiff⟩ :=
    (isRedundant_iff_forall_isSatisfiedBy (difference false) domains ⟨0, 0, 0⟩).2 rfl rfl hordered
      hcover
  refine ⟨?_, (isRedundant_iff_forall_isSatisfiedBy (difference true) domains ⟨0, 0, 0⟩).1 rfl⟩
  rw [hredundant, hiff.mpr hsatisfied]

end Cut
end CutSelection
