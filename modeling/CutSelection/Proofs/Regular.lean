import Mathlib
import CutSelection.Proofs.Box

/-!
Regular boxes: no bound lies beyond the opposite one, and bounds of integer variables are integers.
A regular box has a point, and it is determined by its points.
-/

namespace CutSelection

namespace VariableKind

variable {kind : VariableKind} {v w : ℝ}

theorem fits_add_int (h : kind.Fits v) (n : ℤ) : kind.Fits (v + n) := by
  cases kind with
  | continuous => trivial
  | integer =>
    obtain ⟨m, rfl⟩ := h
    exact ⟨m + n, by push_cast; rfl⟩

theorem fits_min (hv : kind.Fits v) (hw : kind.Fits w) : kind.Fits (min v w) := by
  rcases min_choice v w with h | h <;> rwa [h]

theorem fits_max (hv : kind.Fits v) (hw : kind.Fits w) : kind.Fits (max v w) := by
  rcases max_choice v w with h | h <;> rwa [h]

theorem fits_zero (kind : VariableKind) : kind.Fits 0 := by
  cases kind with
  | continuous => trivial
  | integer => exact ⟨0, by simp⟩

end VariableKind

namespace Domain

structure Regular (d : Domain ℝ) : Prop where
  ordered : ∀ lower ∈ d.lower, ∀ upper ∈ d.upper, lower ≤ upper
  fits : ∀ direction, ∀ bound ∈ d.bound direction, d.kind.Fits bound

variable {d d' : Domain ℝ} {direction : Direction} {bound value v : ℝ}

theorem Regular.admits_bound (h : d.Regular) (hb : bound ∈ d.bound direction) :
    d.Admits bound := by
  refine ⟨h.fits direction bound hb, contains_iff.mpr ?_⟩
  cases direction with
  | lower =>
    refine ⟨fun lower hl => ?_, fun upper hu => h.ordered bound hb upper hu⟩
    rw [Option.mem_unique hl hb]
  | upper =>
    refine ⟨fun lower hl => h.ordered lower hl bound hb, fun upper hu => ?_⟩
    rw [Option.mem_unique hu hb]

theorem Regular.exists_admits (h : d.Regular) : ∃ v, d.Admits v := by
  cases hl : d.lower with
  | some lower => exact ⟨lower, h.admits_bound (show lower ∈ d.bound .lower from hl)⟩
  | none =>
    cases hu : d.upper with
    | some upper => exact ⟨upper, h.admits_bound (show upper ∈ d.bound .upper from hu)⟩
    | none => exact ⟨0, d.kind.fits_zero, contains_iff.mpr (by simp [hl, hu])⟩

theorem Regular.exists_beyond (h : d.Regular) (hb : d.bound direction = none)
    (hk : d.kind.Fits value) : ∃ v, d.Admits v ∧ ¬direction.Limits value v := by
  cases direction with
  | lower =>
    have hone : d.kind.Fits (value - 1) := by
      simpa [sub_eq_add_neg] using VariableKind.fits_add_int hk (-1)
    have hl : d.lower = none := hb
    cases hu : d.upper with
    | none =>
      exact ⟨value - 1, ⟨hone, contains_iff.mpr (by simp [hl, hu])⟩, by simp [Direction.Limits]⟩
    | some upper =>
      refine ⟨min upper (value - 1), ⟨?_, contains_iff.mpr (by simp [hl, hu])⟩, ?_⟩
      · exact VariableKind.fits_min (h.fits .upper upper hu) hone
      · simp [Direction.Limits]
  | upper =>
    have hone : d.kind.Fits (value + 1) := by
      simpa using VariableKind.fits_add_int hk 1
    have hu : d.upper = none := hb
    cases hl : d.lower with
    | none =>
      exact ⟨value + 1, ⟨hone, contains_iff.mpr (by simp [hl, hu])⟩, by simp [Direction.Limits]⟩
    | some lower =>
      refine ⟨max lower (value + 1), ⟨?_, contains_iff.mpr (by simp [hl, hu])⟩, ?_⟩
      · exact VariableKind.fits_max (h.fits .lower lower hl) hone
      · simp [Direction.Limits]

/-- Domains that admit the same values have the same bounds. -/
theorem Regular.bound_eq (h : d.Regular) (h' : d'.Regular) (hk : d.kind = d'.kind)
    (hv : ∀ v, d.Admits v ↔ d'.Admits v) (hb : d.bound direction = some bound) :
    d'.bound direction = some bound := by
  have hd := h.admits_bound hb
  cases hb' : d'.bound direction with
  | none =>
    obtain ⟨v, ha, hn⟩ := h'.exists_beyond hb' (hk ▸ hd.1)
    exact absurd (((hv v).mpr ha).2 direction bound hb) hn
  | some bound' =>
    have hle : direction.Limits bound' bound := ((hv bound).mp hd).2 direction bound' hb'
    have hge : direction.Limits bound bound' :=
      ((hv bound').mpr (h'.admits_bound hb')).2 direction bound hb
    rw [hle.antisymm hge]

theorem Regular.eq_of_admits_iff (h : d.Regular) (h' : d'.Regular) (hk : d.kind = d'.kind)
    (hv : ∀ v, d.Admits v ↔ d'.Admits v) : d = d' := by
  have hb : ∀ direction, d.bound direction = d'.bound direction := by
    intro direction
    cases hb : d.bound direction with
    | some bound => exact (h.bound_eq h' hk hv hb).symm
    | none =>
      cases hb' : d'.bound direction with
      | none => rfl
      | some bound =>
        have := h'.bound_eq h hk.symm (fun v => (hv v).symm) hb'
        rw [hb] at this
        cases this
  obtain ⟨kind, lower, upper⟩ := d
  obtain ⟨kind', lower', upper'⟩ := d'
  obtain rfl : kind = kind' := hk
  obtain rfl : lower = lower' := hb .lower
  obtain rfl : upper = upper' := hb .upper
  rfl

theorem Regular.setBound (h : d.Regular) (hk : d.kind.Fits value)
    (hc : ¬d.IsCrossedBy direction value) : (d.setBound value direction).Regular := by
  constructor
  · cases direction with
    | lower =>
      intro lower hl upper hu
      have hu' : d.upper = some upper := hu
      cases hl
      simpa [IsCrossedBy, bound, hu', Direction.opposite, Direction.Crosses] using hc
    | upper =>
      intro lower hl upper hu
      have hl' : d.lower = some lower := hl
      cases hu
      simpa [IsCrossedBy, bound, hl', Direction.opposite, Direction.Crosses] using hc
  · intro other bound hb
    rw [kind_setBound]
    rcases Direction.eq_or_eq_opposite other direction with rfl | rfl
    · rw [bound_setBound] at hb
      cases hb
      exact hk
    · rw [bound_setBound_opposite] at hb
      exact h.fits _ bound hb

end Domain

namespace Domains

def Regular (domains : Domains ℝ) : Prop := ∀ d ∈ domains, d.Regular

variable {domains other : Domains ℝ}

theorem Regular.exists_admit (h : domains.Regular) : ∃ x, domains.Admit x := by
  induction domains with
  | nil => exact ⟨fun _ => 0, admit_nil⟩
  | cons d domains ih =>
    obtain ⟨hd, hrest⟩ := List.forall_mem_cons.mp h
    obtain ⟨v, hv⟩ := hd.exists_admits
    obtain ⟨x, hx⟩ := ih hrest
    exact ⟨fun | 0 => v | column + 1 => x column, admit_cons.mpr ⟨hv, hx⟩⟩

/-- A regular box is determined by its points. -/
theorem Regular.eq_of_admit_iff (h : domains.Regular) (h' : other.Regular)
    (hk : domains.map (·.kind) = other.map (·.kind))
    (hx : ∀ x, domains.Admit x ↔ other.Admit x) : domains = other := by
  induction domains generalizing other with
  | nil =>
    cases other with
    | nil => rfl
    | cons d' other => cases hk
  | cons d domains ih =>
    cases other with
    | nil => cases hk
    | cons d' other =>
      obtain ⟨hd, hrest⟩ := List.forall_mem_cons.mp h
      obtain ⟨hd', hrest'⟩ := List.forall_mem_cons.mp h'
      obtain ⟨hkind, hkinds⟩ := List.cons.inj hk
      have hpoint : ∀ v (x : Nat → ℝ),
          d.Admits v ∧ Admit domains x ↔ d'.Admits v ∧ Admit other x := by
        intro v x
        exact admit_cons.symm.trans ((hx fun | 0 => v | column + 1 => x column).trans admit_cons)
      obtain ⟨v, hv⟩ := hd.exists_admits
      obtain ⟨x, hx⟩ := Regular.exists_admit hrest
      obtain ⟨hv', hx'⟩ := (hpoint v x).mp ⟨hv, hx⟩
      have hhead : d = d' := hd.eq_of_admits_iff hd' hkind fun w => by
        simpa [hx, hx'] using hpoint w x
      have htail : domains = other := ih hrest hrest' hkinds fun y => by
        simpa [hv, hv'] using hpoint v y
      rw [hhead, htail]

end Domains

end CutSelection
