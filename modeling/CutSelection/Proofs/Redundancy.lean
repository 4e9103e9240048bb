import Mathlib
import CutSelection.Redundancy
import CutSelection.Proofs.Box

/-!
The redundancy filter by sides. A cut is redundant if on each of its finite sides the activity bound
exists and keeps to the side. In exact arithmetic the activity bounds limit the value of the cut at
every point of the box, so that a redundant cut is satisfied by the whole box.
-/

namespace CutSelection

def Direction.FeasiblyLimits {K : Type} [Scalar K] (d : Direction) (t : Tolerances K)
    (limit value : K) : Prop :=
  match d with
  | .lower => t.IsFeasibleLe limit value
  | .upper => t.IsFeasibleLe value limit

theorem Direction.feasiblyLimits_iff {t : Tolerances ℝ} (hf : t.feasibility = 0) {d : Direction}
    {limit value : ℝ} : d.FeasiblyLimits t limit value ↔ d.Limits limit value := by
  cases d <;> exact Tolerances.isFeasibleLe_iff_le hf

namespace Cut

section Sides

variable {K : Type} [Scalar K] {cut : Cut K} {domains : Domains K} {t : Tolerances K}

variable (cut domains t) in
/-- If a side is finite, the activity is bounded in its direction, and the bound keeps to it. -/
def KeepsTo (side : Direction) : Prop :=
  ∀ limit ∈ cut.side side, ∃ extreme, cut.activityBound domains side = .ok (some extreme) ∧
    side.FeasiblyLimits t (limit - cut.constant) extreme

theorem lowerSideIsRedundant_eq_true_iff :
    cut.lowerSideIsRedundant domains t = .ok true ↔ cut.KeepsTo domains t .lower := by
  rw [lowerSideIsRedundant, KeepsTo, side]
  cases cut.lhs with
  | none => simp
  | some lhs =>
    rw [minActivity]
    cases cut.activityBound domains .lower with
    | error f => simp [bind, Except.bind]
    | ok least => cases least <;> simp [bind, Except.bind, Direction.FeasiblyLimits]

theorem upperSideIsRedundant_eq_true_iff :
    cut.upperSideIsRedundant domains t = .ok true ↔ cut.KeepsTo domains t .upper := by
  rw [upperSideIsRedundant, KeepsTo, side]
  cases cut.rhs with
  | none => simp
  | some rhs =>
    rw [maxActivity]
    cases cut.activityBound domains .upper with
    | error f => simp [bind, Except.bind]
    | ok greatest => cases greatest <;> simp [bind, Except.bind, Direction.FeasiblyLimits]

theorem isRedundant_eq_true_iff : cut.isRedundant domains t = .ok true ↔
    cut.modifiable = false ∧ ∀ side, cut.KeepsTo domains t side := by
  have hsides : (∀ side, cut.KeepsTo domains t side) ↔
      cut.KeepsTo domains t .lower ∧ cut.KeepsTo domains t .upper :=
    ⟨fun h => ⟨h .lower, h .upper⟩, fun h side => by cases side <;> simp [h]⟩
  rw [hsides, ← lowerSideIsRedundant_eq_true_iff, ← upperSideIsRedundant_eq_true_iff, isRedundant]
  cases cut.modifiable with
  | true => simp
  | false =>
    cases cut.lowerSideIsRedundant domains t with
    | error f => simp [bind, Except.bind]
    | ok lower => cases lower <;> simp [bind, Except.bind]

theorem boundSum_cons_eq_some {direction : Direction} {e : Entry K} {entries : List (Entry K)}
    {total bound : K} : boundSum domains direction total (e :: entries) = .ok (some bound) ↔
      ∃ d, domains[e.1]? = some d ∧ ∃ b ∈ d.bound (direction.through e.2),
        boundSum domains direction (total + e.2 * b) entries = .ok (some bound) := by
  rw [boundSum, Domains.get]
  cases domains[e.1]? with
  | none => simp [bind, Except.bind]
  | some d => cases hb : d.bound (direction.through e.2) <;> simp [hb, bind, Except.bind]

end Sides

variable {cut : Cut ℝ} {domains : Domains ℝ} {x : Nat → ℝ} {t : Tolerances ℝ}

theorem entries_ne_zero (cut : Cut ℝ) : ∀ e ∈ cut.coefficients.entries, e.2 ≠ 0 := fun e he => by
  simpa using cut.coefficients.not_isZero he

/-- Each product is limited by the bound that its coefficient selects. -/
theorem boundSum_limits (hx : domains.Contain x) {direction : Direction} {entries : List (Entry ℝ)}
    (he : ∀ e ∈ entries, e.2 ≠ 0) {total v bound : ℝ} (hv : direction.Limits total v)
    (h : boundSum domains direction total entries = .ok (some bound)) :
    direction.Limits bound (v + (entries.map fun e => e.2 * x e.1).sum) := by
  induction entries generalizing total v with
  | nil =>
    simp only [boundSum, Except.ok.injEq, Option.some.injEq] at h
    simpa [← h] using hv
  | cons e entries ih =>
    rw [List.forall_mem_cons] at he
    obtain ⟨d, hd, b, hb, h⟩ := boundSum_cons_eq_some.mp h
    have hterm : direction.Limits (e.2 * b) (e.2 * x e.1) :=
      (Direction.limits_mul he.1).mpr (hx e.1 d hd _ b hb)
    simpa [add_assoc] using ih he.2 (hv.add hterm) h

theorem activityBound_limits (hx : domains.Contain x) {direction : Direction} {bound : ℝ}
    (h : cut.activityBound domains direction = .ok (some bound)) :
    direction.Limits (bound + cut.constant) (cut.value x) := by
  have hzero : direction.Limits (-0) (0 : ℝ) := by simp [direction.limits_refl]
  have hs := boundSum_limits hx cut.entries_ne_zero hzero h
  simpa [value] using hs.add (direction.limits_refl cut.constant)

theorem KeepsTo.limits {side : Direction} (h : cut.KeepsTo domains t side)
    (hf : t.feasibility = 0) (hx : domains.Contain x) :
    ∀ limit ∈ cut.side side, side.Limits limit (cut.value x) := by
  intro limit hlimit
  obtain ⟨extreme, hextreme, hkeeps⟩ := h limit hlimit
  have hlimits := Direction.limits_sub_iff.mp ((Direction.feasiblyLimits_iff hf).mp hkeeps)
  exact hlimits.trans (activityBound_limits hx hextreme)

theorem isSatisfiedBy_of_isRedundant (hf : t.feasibility = 0) (hx : domains.Contain x)
    (h : cut.isRedundant domains t = .ok true) : cut.IsSatisfiedBy x :=
  fun side => ((isRedundant_eq_true_iff.mp h).2 side).limits hf hx

end Cut
end CutSelection
