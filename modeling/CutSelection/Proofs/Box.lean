import Mathlib
import CutSelection.Proofs.Exact
import CutSelection.Proofs.SearchTree

/-!
Points, the boxes they lie in, and the cuts they satisfy. A point assigns a real number to every
column. A cut on a single variable says the same about a point as the bounds that its sides give.
-/

namespace CutSelection

/-- A bound of the given direction leaves a value where it is. -/
def Direction.Limits : Direction → ℝ → ℝ → Prop
  | .lower, bound, v => bound ≤ v
  | .upper, bound, v => v ≤ bound

def VariableKind.Fits : VariableKind → ℝ → Prop
  | .continuous, _ => True
  | .integer, v => ∃ n : ℤ, v = n

namespace Direction

variable {d : Direction} {bound opposite v a c limit : ℝ}

theorem eq_or_eq_opposite (d e : Direction) : d = e ∨ d = e.opposite := by
  cases d <;> cases e <;> simp [Direction.opposite]

theorem limits_refl (d : Direction) (v : ℝ) : d.Limits v v := by cases d <;> exact le_rfl

theorem Limits.trans (h : d.Limits a bound) (h' : d.Limits bound v) : d.Limits a v := by
  cases d
  · exact le_trans h h'
  · exact le_trans h' h

theorem limits_of_not_limits (h : ¬d.Limits a bound) : d.Limits bound a := by
  cases d
  · exact (not_le.mp h).le
  · exact (not_le.mp h).le

theorem Limits.antisymm (h : d.Limits a bound) (h' : d.Limits bound a) : a = bound := by
  cases d
  · exact le_antisymm h h'
  · exact le_antisymm h' h

theorem limits_sub_iff : d.Limits (limit - c) v ↔ d.Limits limit (v + c) := by
  cases d
  · exact sub_le_iff_le_add
  · exact le_sub_iff_add_le

theorem not_crosses (h : d.Limits bound v) (ho : d.opposite.Limits opposite v) :
    ¬d.Crosses bound opposite := by
  cases d
  · exact not_lt.mpr (le_trans h ho)
  · exact not_lt.mpr (le_trans ho h)

theorem Limits.add {bound' v' : ℝ} (h : d.Limits bound v) (h' : d.Limits bound' v') :
    d.Limits (bound + bound') (v + v') := by
  cases d
  · exact add_le_add h h'
  · exact add_le_add h h'

/-- A limit on `a v + c` is one on `v`, of the same direction if `a` is positive. -/
theorem limits_through (ha : a ≠ 0) :
    (d.through a).Limits ((limit - c) / a) v ↔ d.Limits limit (a * v + c) := by
  rcases lt_or_gt_of_ne ha with h | h
  · have hn : ¬0 < a := not_lt.mpr h.le
    cases d
    · simp only [through, hn, if_false, opposite, Limits, le_div_iff_of_neg h]
      constructor <;> intro _ <;> linarith
    · simp only [through, hn, if_false, opposite, Limits, div_le_iff_of_neg h]
      constructor <;> intro _ <;> linarith
  · cases d
    · simp only [through, h, if_true, Limits, div_le_iff₀ h]
      constructor <;> intro _ <;> linarith
    · simp only [through, h, if_true, Limits, le_div_iff₀ h]
      constructor <;> intro _ <;> linarith

theorem limits_mul (ha : a ≠ 0) : d.Limits (a * bound) (a * v) ↔ (d.through a).Limits bound v := by
  have h := @limits_through d v a 0 (a * bound) ha
  rw [sub_zero, add_zero, mul_div_cancel_left₀ bound ha] at h
  exact h.symm

end Direction

namespace Domain

variable {d : Domain ℝ} {direction : Direction} {value v : ℝ} {t : Tolerances ℝ}

def Contains (d : Domain ℝ) (v : ℝ) : Prop :=
  ∀ direction, ∀ bound ∈ d.bound direction, direction.Limits bound v

theorem contains_iff : d.Contains v ↔
    (∀ lower ∈ d.lower, lower ≤ v) ∧ ∀ upper ∈ d.upper, v ≤ upper := by
  constructor
  · exact fun h => ⟨h .lower, h .upper⟩
  · rintro ⟨hl, hu⟩ (_ | _)
    · exact hl
    · exact hu

def Admits (d : Domain ℝ) (v : ℝ) : Prop := d.kind.Fits v ∧ d.Contains v

theorem contains_setBound (h : d.Contains v) (hv : direction.Limits value v) :
    (d.setBound value direction).Contains v := by
  intro other bound hb
  rcases Direction.eq_or_eq_opposite other direction with rfl | rfl
  · rw [bound_setBound] at hb
    cases hb
    exact hv
  · rw [bound_setBound_opposite] at hb
    exact h _ bound hb

/-- Rounding to the inside passes no integer that a bound allows. -/
theorem limits_adjust (hf : 0 ≤ t.feasibility) (hk : d.kind.Fits v)
    (h : direction.Limits value v) : direction.Limits (d.adjust direction value t) v := by
  simp only [adjust]
  cases hd : d.kind with
  | continuous => exact h
  | integer =>
    rw [hd] at hk
    obtain ⟨n, rfl⟩ := hk
    cases direction with
    | lower =>
      have hn : value - t.feasibility ≤ n := by
        have : value ≤ n := h
        linarith
      have hc : ⌈value - t.feasibility⌉ ≤ n := Int.ceil_le.mpr hn
      exact Int.cast_le.mpr hc
    | upper =>
      have hn : (n : ℝ) ≤ value + t.feasibility := by
        have : (n : ℝ) ≤ value := h
        linarith
      have hc : n ≤ ⌊value + t.feasibility⌋ := Int.le_floor.mpr hn
      exact Int.cast_le.mpr hc

theorem not_isCrossedBy (h : d.Contains v) (hv : direction.Limits value v) :
    ¬d.IsCrossedBy direction value := by
  rw [IsCrossedBy]
  cases ho : d.bound direction.opposite with
  | none => exact id
  | some opposite => exact Direction.not_crosses hv (h _ opposite ho)

end Domain

/-- The columns of a box are admitted one by one. -/
def Domains.Admit (domains : Domains ℝ) (x : Nat → ℝ) : Prop :=
  ∀ (column : Nat) (d : Domain ℝ), domains[column]? = some d → d.Admits (x column)

/-- The point lies within all bounds, and may be fractional. -/
def Domains.Contain (domains : Domains ℝ) (x : Nat → ℝ) : Prop :=
  ∀ (column : Nat) (d : Domain ℝ), domains[column]? = some d → d.Contains (x column)

namespace Domains

variable {domains : Domains ℝ} {x : Nat → ℝ} {column : Nat} {d : Domain ℝ}

@[simp] theorem admit_nil : Admit [] x := by simp [Admit]

@[simp] theorem admit_cons :
    Admit (d :: domains) x ↔ d.Admits (x 0) ∧ domains.Admit fun column => x (column + 1) := by
  constructor
  · exact fun h => ⟨h 0 d rfl, fun column => h (column + 1)⟩
  · rintro ⟨hd, hrest⟩ (_ | column) d' hd'
    · cases hd'
      exact hd
    · exact hrest column d' hd'

theorem Admit.contain (h : domains.Admit x) : domains.Contain x := fun column d hd =>
  (h column d hd).2

theorem admit_setBound {value : ℝ} {direction : Direction} (h : domains.Admit x)
    (hd : domains[column]? = some d) (hv : direction.Limits value (x column)) :
    Admit (domains.set column (d.setBound value direction)) x := by
  intro other d' hd'
  rw [List.getElem?_set] at hd'
  split at hd'
  · rename_i hc
    subst hc
    split at hd'
    · cases hd'
      obtain ⟨hk, hc⟩ := h column d hd
      exact ⟨by rwa [Domain.kind_setBound], Domain.contains_setBound hc hv⟩
    · cases hd'
  · exact h other d' hd'

end Domains

namespace Cut

variable {cut : Cut ℝ} {x : Nat → ℝ}

noncomputable def value (cut : Cut ℝ) (x : Nat → ℝ) : ℝ :=
  (cut.coefficients.entries.map fun e => e.2 * x e.1).sum + cut.constant

def Allows (cut : Cut ℝ) (activity : ℝ) : Prop :=
  ∀ side, ∀ limit ∈ cut.side side, side.Limits limit activity

theorem allows_iff {v : ℝ} : cut.Allows v ↔
    (∀ lhs ∈ cut.lhs, lhs ≤ v) ∧ ∀ rhs ∈ cut.rhs, v ≤ rhs := by
  constructor
  · exact fun h => ⟨h .lower, h .upper⟩
  · rintro ⟨hl, hr⟩ (_ | _)
    · exact hl
    · exact hr

/-- Both sides hold, as far as they are finite. -/
def IsSatisfiedBy (cut : Cut ℝ) (x : Nat → ℝ) : Prop :=
  ∀ side, ∀ limit ∈ cut.side side, side.Limits limit (cut.value x)

theorem isSatisfiedBy_iff : cut.IsSatisfiedBy x ↔
    (∀ lhs ∈ cut.lhs, lhs ≤ cut.value x) ∧ ∀ rhs ∈ cut.rhs, cut.value x ≤ rhs := allows_iff

theorem singleEntry_eq_some {e : Entry ℝ} :
    cut.singleEntry = some e ↔ cut.modifiable = false ∧ cut.coefficients.entries = [e] := by
  rw [singleEntry]
  split
  · rename_i f he
    rw [he]
    cases cut.modifiable <;> simp
  · rename_i hne
    constructor
    · intro h
      cases h
    · exact fun h => absurd h.2 (hne e)

theorem isSome_singleEntry_iff :
    cut.singleEntry.isSome ↔ cut.modifiable = false ∧ cut.coefficients.nonzeroCount = 1 := by
  simp [Option.isSome_iff_exists, singleEntry_eq_some, SparseVector.nonzeroCount,
    List.length_eq_one_iff]

theorem value_of_singleEntry {e : Entry ℝ} (h : cut.singleEntry = some e) (x : Nat → ℝ) :
    cut.value x = e.2 * x e.1 + cut.constant := by
  simp [value, (singleEntry_eq_some.mp h).2]

theorem ne_zero_of_singleEntry {e : Entry ℝ} (h : cut.singleEntry = some e) : e.2 ≠ 0 := by
  have he : e ∈ cut.coefficients.entries := by simp [(singleEntry_eq_some.mp h).2]
  simpa using cut.coefficients.not_isZero he

end Cut

end CutSelection
