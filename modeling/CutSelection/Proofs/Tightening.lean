import Mathlib
import CutSelection.Proofs.Branching
import CutSelection.Proofs.Exact

/-!
Tightening bounds, whatever the tolerances are. A value that tightens a bound lies strictly inside
of it, so that no bound tightens itself, and a value that is moved onto the opposite bound is still
no further out than the bound that it replaces. Exact arithmetic and floating point agree on this.
-/

namespace CutSelection

/-- Ordered scalars in which no tolerance takes a value for smaller than one that it is not smaller
than. -/
class TolerantScalar (K : Type) [Scalar K] extends OrderedScalar K where
  lt_of_isLt {t : Tolerances K} {a b : K} : 0 ≤ t.epsilon → t.IsLt a b → a < b

noncomputable instance : TolerantScalar ℝ where
  lt_of_isLt h0 h := Tolerances.lt_of_isGt h0 (Tolerances.isLt_iff_isGt.mp h)

namespace Binary64

theorem lt_of_isLt {t : Tolerances Float} (h0 : 0 ≤ t.epsilon) {x y : Float} (h : t.IsLt x y) :
    x < y := by
  obtain ⟨hx, hy⟩ := isFinite_of_isNumber_relativeDifference (lt_iff.mp h).1
  by_contra hnot
  have hle := le_of_not_lt (isFinite_iff_steps.mp hx).1 (isFinite_iff_steps.mp hy).1 hnot
  exact not_isLt_of_le h0 hx hle h

instance : TolerantScalar Float where
  lt_of_isLt h0 h := lt_of_isLt h0 h

end Binary64

variable {K : Type} [Scalar K]

/-- A bound is at least as tight as another one of its direction. -/
def Direction.AsTight (direction : Direction) (value bound : K) : Prop :=
  match direction with
  | .lower => bound ≤ value
  | .upper => value ≤ bound

def Domain.Ordered (d : Domain K) : Prop := ∀ lower ∈ d.lower, ∀ upper ∈ d.upper, lower ≤ upper

namespace Domain

variable {d : Domain K} {direction : Direction} {value bound : K} {t : Tolerances K}

theorem adjust_congr {d' : Domain K} (h : d.kind = d'.kind) (direction : Direction) (value : K)
    (t : Tolerances K) : d.adjust direction value t = d'.adjust direction value t := by
  simp only [adjust, h]

theorem isTightenedBy_congr {d' : Domain K} (h : d.bound direction = d'.bound direction) :
    d.IsTightenedBy direction value t ↔ d'.IsTightenedBy direction value t := by
  simp only [IsTightenedBy, h]

@[simp] theorem meet_setBound (d : Domain K) (bound : K) (direction : Direction) (value : K)
    (t : Tolerances K) :
    (d.setBound bound direction).meet direction value t = d.meet direction value t := by
  simp only [meet, bound_setBound_opposite]

@[simp] theorem isCrossedBy_setBound (d : Domain K) (bound : K) (direction : Direction)
    (value : K) :
    (d.setBound bound direction).IsCrossedBy direction value ↔ d.IsCrossedBy direction value := by
  rw [isCrossedBy_iff, isCrossedBy_iff, bound_setBound_opposite]

omit [Scalar K] in
theorem setBound_eq_self (h : bound ∈ d.bound direction) : d.setBound bound direction = d := by
  obtain ⟨kind, lower, upper⟩ := d
  cases direction with
  | lower =>
    obtain rfl : lower = some bound := h
    rfl
  | upper =>
    obtain rfl : upper = some bound := h
    rfl

theorem meet_eq_opposite {opposite : K} (ho : opposite ∈ d.bound direction.opposite)
    (hc : direction.Crosses value opposite)
    (h : ¬d.IsCrossedBy direction (d.meet direction value t)) :
    d.meet direction value t = opposite := by
  rw [isCrossedBy_iff] at h
  by_cases hfar : direction.CrossesFar value opposite t
  · have hmeet : d.meet direction value t = value := by simp [meet, Option.mem_def.mp ho, hfar]
    rw [hmeet] at h
    exact absurd ⟨opposite, ho, hc⟩ h
  · simp [meet, Option.mem_def.mp ho, hc, hfar]

end Domain

section Tolerant

variable [TolerantScalar K] {t : Tolerances K}

namespace Direction

variable {direction : Direction} {value inner bound : K}

theorem not_crosses_self (direction : Direction) (value : K) : ¬direction.Crosses value value := by
  have hirrefl : ¬value < value := fun h =>
    (OrderedScalar.lt_iff.mp h).2 (OrderedScalar.lt_iff.mp h).1
  cases direction <;> exact hirrefl

theorem asTight_of_crosses (h : direction.Crosses value bound) : direction.AsTight value bound := by
  cases direction <;> exact (OrderedScalar.lt_iff.mp h).1

theorem AsTight.trans (h : direction.AsTight value inner) (h' : direction.AsTight inner bound) :
    direction.AsTight value bound := by
  cases direction
  · exact OrderedScalar.le_trans h' h
  · exact OrderedScalar.le_trans h h'

end Direction

theorem Tolerances.lt_of_isGt' (h0 : 0 ≤ t.epsilon) {a b : K} (h : t.IsGt a b) : b < a := by
  have hzero : Scalar.IsZero (0 : K) :=
    ⟨OrderedScalar.le_refl OrderedScalar.isFinite_zero,
      OrderedScalar.le_refl OrderedScalar.isFinite_zero⟩
  obtain ⟨hle, hnot⟩ := OrderedScalar.lt_iff.mp h
  have hexact : ({ t with epsilon := 0 } : Tolerances K).IsGt a b :=
    OrderedScalar.lt_iff.mpr ⟨OrderedScalar.le_trans h0 hle,
      fun hnonpos => hnot (OrderedScalar.le_trans hnonpos h0)⟩
  exact ((OrderedScalar.isGt_iff hzero).mp hexact).2.2

namespace Domain

variable {d : Domain K} {direction : Direction} {value bound : K}

theorem crosses_of_isTightenedBy (h0 : 0 ≤ t.epsilon) (h : d.IsTightenedBy direction value t)
    (hb : bound ∈ d.bound direction) : direction.Crosses value bound := by
  cases direction <;> simp only [IsTightenedBy, Option.mem_def.mp hb] at h
  · exact Tolerances.lt_of_isGt' h0 h
  · exact TolerantScalar.lt_of_isLt h0 h

theorem not_isTightenedBy_of_mem (h0 : 0 ≤ t.epsilon) (hb : bound ∈ d.bound direction) :
    ¬d.IsTightenedBy direction bound t := fun h =>
  direction.not_crosses_self bound (crosses_of_isTightenedBy h0 h hb)

/-- Moving a value onto the opposite bound does not take it outside of the bound that it
replaces. -/
theorem asTight_meet (h0 : 0 ≤ t.epsilon) (hd : d.Ordered)
    (h : d.IsTightenedBy direction value t) (hb : bound ∈ d.bound direction) :
    direction.AsTight (d.meet direction value t) bound := by
  have htight := Direction.asTight_of_crosses (crosses_of_isTightenedBy h0 h hb)
  rw [meet]
  split
  · exact htight
  · rename_i opposite ho
    split
    · cases direction
      · exact hd bound hb opposite ho
      · exact hd opposite ho bound hb
    · exact htight

/-- A value that tightens a domain, and crosses no bound once it was moved. The bound that comes of
it tightens the domain, and is not tightened by the value again, exactly if the value was not moved,
or its way back to the opposite bound is within the tolerance and that bound tightens the domain. -/
theorem meet_settles_iff (h0 : 0 ≤ t.epsilon) (h : d.IsTightenedBy direction value t)
    (hc : ¬d.IsCrossedBy direction (d.meet direction value t)) :
    d.IsTightenedBy direction (d.meet direction value t) t ∧
        ¬(d.setBound (d.meet direction value t) direction).IsTightenedBy direction value t ↔
      ∀ opposite ∈ d.bound direction.opposite, direction.Crosses value opposite →
        d.IsTightenedBy direction opposite t ∧
          ¬(d.setBound opposite direction).IsTightenedBy direction value t := by
  constructor
  · intro hsettles opposite ho hcrosses
    rwa [meet_eq_opposite ho hcrosses hc] at hsettles
  · intro hopposite
    by_cases hv : d.IsCrossedBy direction value
    · obtain ⟨opposite, ho, hcrosses⟩ := isCrossedBy_iff.mp hv
      rw [meet_eq_opposite ho hcrosses hc]
      exact hopposite opposite ho hcrosses
    · rw [meet_eq hv]
      exact ⟨h, not_isTightenedBy_of_mem h0 (bound_setBound d value direction)⟩

end Domain

end Tolerant
end CutSelection
