import Mathlib
import CutSelection.Settings
import CutSelection.Proofs.SparseSums

/-!
The real numbers as scalars. Over them the operations are exact, and each comparison says what the
order of the reals says.
-/

namespace CutSelection

noncomputable instance : Scalar ℝ where
  abs x := |x|
  sqrt := Real.sqrt
  floor x := ⌊x⌋
  ceil x := ⌈x⌉
  decidableLT := Classical.decRel _
  decidableLE := Classical.decRel _

namespace Scalar

@[simp] theorem abs_eq (x : ℝ) : abs x = |x| := rfl

@[simp] theorem maximum_eq (x y : ℝ) : maximum x y = max x y := by
  rw [maximum]
  split
  · rename_i h
    exact (max_eq_right (le_of_lt h)).symm
  · rename_i h
    rw [if_pos le_rfl, max_eq_left (not_lt.mp h)]

@[simp] theorem isZero_iff (x : ℝ) : IsZero x ↔ x = 0 :=
  ⟨fun h => le_antisymm h.1 h.2, fun h => ⟨h.le, h.ge⟩⟩

@[simp] theorem sum_eq (xs : List ℝ) : sum xs = xs.sum := by
  rw [sum]
  rw [← List.sum_eq_foldl]

end Scalar

namespace Tolerances

noncomputable def scale (x y : ℝ) : ℝ := max (max |x| |y|) 1

theorem one_le_scale (x y : ℝ) : 1 ≤ scale x y := le_max_right _ _

theorem scale_pos (x y : ℝ) : 0 < scale x y := zero_lt_one.trans_le (one_le_scale x y)

theorem abs_left_le_scale (x y : ℝ) : |x| ≤ scale x y := (le_max_left _ _).trans (le_max_left _ _)

theorem abs_right_le_scale (x y : ℝ) : |y| ≤ scale x y := (le_max_right _ _).trans (le_max_left _ _)

theorem scale_comm (x y : ℝ) : scale x y = scale y x := by rw [scale, scale, max_comm |x|]

theorem relativeDifference_eq (x y : ℝ) : relativeDifference x y = (x - y) / scale x y := by
  simp [relativeDifference, scale]

variable {t : Tolerances ℝ} {x y x' y' : ℝ}

theorem isGt_iff : t.IsGt x y ↔ t.epsilon * scale x y < x - y := by
  rw [IsGt, relativeDifference_eq, lt_div_iff₀ (scale_pos x y)]

theorem isLt_iff : t.IsLt x y ↔ t.epsilon * scale x y < y - x := by
  rw [IsLt, relativeDifference_eq, div_lt_iff₀ (scale_pos x y)]
  constructor <;> intro h <;> linarith

theorem isLt_iff_isGt : t.IsLt x y ↔ t.IsGt y x := by rw [isLt_iff, isGt_iff, scale_comm]

theorem lt_of_isGt (h0 : 0 ≤ t.epsilon) (h : t.IsGt x y) : y < x := by
  have := mul_nonneg h0 (scale_pos x y).le
  linarith [isGt_iff.mp h]

/-- Moving two values apart changes what their difference is measured against by no more than the
difference itself. -/
theorem isGt_mono (h0 : 0 ≤ t.epsilon) (h1 : t.epsilon ≤ 1) (h : t.IsGt x y) (hx : x ≤ x')
    (hy : y' ≤ y) : t.IsGt x' y' := by
  have hx' : |x'| ≤ |x| + (x' - x) := by
    have := abs_sub_abs_le_abs_sub x' x
    rw [abs_of_nonneg (sub_nonneg.mpr hx)] at this
    linarith
  have hy' : |y'| ≤ |y| + (y - y') := by
    have := abs_sub_abs_le_abs_sub y' y
    rw [abs_sub_comm, abs_of_nonneg (sub_nonneg.mpr hy)] at this
    linarith
  have hs : scale x' y' ≤ scale x y + ((x' - x) + (y - y')) := by
    have h₁ := abs_left_le_scale x y
    have h₂ := abs_right_le_scale x y
    have h₃ := one_le_scale x y
    exact max_le (max_le (by linarith) (by linarith)) (by linarith)
  have hε : t.epsilon * ((x' - x) + (y - y')) ≤ (x' - x) + (y - y') :=
    mul_le_of_le_one_left (by linarith) h1
  have := isGt_iff.mp h
  rw [isGt_iff]
  calc t.epsilon * scale x' y'
      ≤ t.epsilon * (scale x y + ((x' - x) + (y - y'))) := mul_le_mul_of_nonneg_left hs h0
    _ = t.epsilon * scale x y + t.epsilon * ((x' - x) + (y - y')) := mul_add _ _ _
    _ < x' - y' := by linarith

theorem isGt_iff_lt (h : t.epsilon = 0) : t.IsGt x y ↔ y < x := by rw [isGt_iff, h]; simp

theorem isLt_iff_lt (h : t.epsilon = 0) : t.IsLt x y ↔ x < y := by
  rw [isLt_iff_isGt, isGt_iff_lt h]

theorem isFeasibleGt_iff_lt (h : t.feasibility = 0) : t.IsFeasibleGt x y ↔ y < x := by
  rw [IsFeasibleGt, h, relativeDifference_eq, lt_div_iff₀ (scale_pos x y), zero_mul, sub_pos]

theorem isFeasibleLt_iff_lt (h : t.feasibility = 0) : t.IsFeasibleLt x y ↔ x < y := by
  rw [IsFeasibleLt, h, relativeDifference_eq, div_lt_iff₀ (scale_pos x y), neg_zero, zero_mul,
    sub_neg]

theorem isFeasibleLe_iff_le (h : t.feasibility = 0) : t.IsFeasibleLe x y ↔ x ≤ y := by
  rw [IsFeasibleLe, h, relativeDifference_eq, div_le_iff₀ (scale_pos x y), zero_mul, sub_nonpos]

end Tolerances

instance : GradedScalar ℝ where
  mul_comm := mul_comm
  zero_le_one := zero_le_one
  one_le_one := le_rfl
  maximum_nonneg x := by simp
  maximum_le_one x := by simp
  not_isLt_one {t m} h0 h1 h := by
    have := Tolerances.lt_of_isGt h0 (Tolerances.isLt_iff_isGt.mp h)
    linarith
  isLt_of_le {t a b m} h0 h1 ha hab hb h := by
    have hscale : Tolerances.scale a m = Tolerances.scale b m := by
      simp only [Tolerances.scale]
      rw [abs_of_nonneg ha, abs_of_nonneg (ha.trans hab), max_right_comm a, max_right_comm b,
        max_eq_right (hab.trans hb), max_eq_right hb]
    rw [Tolerances.isLt_iff] at h ⊢
    rw [hscale]
    linarith

noncomputable instance : OrderedScalar ℝ where
  IsFinite _ := True
  decidableIsFinite _ := inferInstanceAs (Decidable True)
  isFinite_zero := trivial
  isFinite_one := trivial
  lt_iff := lt_iff_le_not_ge
  le_trans := le_trans
  le_total {a b} _ _ := le_total a b
  isFinite_of_le _ _ _ _ := trivial
  isFinite_of_add _ := ⟨trivial, trivial⟩
  isFinite_of_mul _ := ⟨trivial, trivial⟩
  le_add _ _ h := le_add_of_nonneg_right h
  add_le_add_left _ _ _ h := by linarith
  mul_nonneg _ _ ha hb := mul_nonneg ha hb
  mul_le_mul_left _ _ _ ha h := mul_le_mul_of_nonneg_left h ha
  isGt_iff h0 := by
    rw [Tolerances.isGt_iff_lt ((Scalar.isZero_iff _).mp h0)]
    simp

noncomputable instance : SparseScalar ℝ where
  absorbsZeros_zero z hz := by rw [(Scalar.isZero_iff z).mp hz, add_zero]
  absorbsZeros_add _ z hz := by rw [(Scalar.isZero_iff z).mp hz, add_zero]
  isZero_mul {a b} _ hb := by simp [(Scalar.isZero_iff b).mp hb]

/-- Settings that compare scores with the given tolerance, and all else without one. -/
noncomputable def Settings.sample (epsilon : ℝ) : Settings ℝ where
  maxCuts := 10
  maxCutsRoot := 10
  minOrthogonality := 0
  minOrthogonalityRoot := 0
  orthogonalityWeight := 1
  efficacyNorm := .euclidean
  tolerances := ⟨epsilon, 0, 100⟩

end CutSelection
