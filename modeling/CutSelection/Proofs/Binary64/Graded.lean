import Mathlib
import CutSelection.Proofs.Orthogonality
import CutSelection.Proofs.Binary64.Order

/-!
Orthogonalities in double precision. Whatever the coefficients are, an orthogonality is a number
between zero and one, and a comparison with a threshold of at most one divides by one, so it is as
monotone as the difference it starts from.
-/

namespace CutSelection
namespace Binary64

open Float.Model UnpackedFloat

theorem value_one : value 1 = .finite .positive (2 ^ 52) (-52) (Nat.two_pow_pos _) := rfl

theorem isNumber_one : IsNumber 1 := by simp [IsNumber, value_one]

theorem value_neg (x : Float) : value (-x) = (value x).neg := by
  have hneg : Canonical (value x).neg ∧ InRange (value x).neg := by
    have hx := canonical_value x
    cases hv : value x <;> rw [hv] at hx <;> exact hx
  exact unpack_pack_of_inRange hneg

theorem value_abs (x : Float) : value (Scalar.abs x) = (value x).abs := by
  have habs : Canonical (value x).abs ∧ InRange (value x).abs := by
    have hx := canonical_value x
    cases hv : value x <;> rw [hv] at hx <;> exact hx
  exact unpack_pack_of_inRange habs

theorem steps_neg (x : Float) : steps (-x) = -steps x := by
  simp only [steps]
  rw [value_neg]
  cases value x with
  | notANumber => rfl
  | zero s => rfl
  | infinity s => exact apply_neg s _
  | finite s m e hm => exact apply_neg s _

theorem natAbs_apply (s : Sign) (n : Nat) : (s.apply n).natAbs = n := by
  cases s with
  | positive => rfl
  | negative => exact Int.natAbs_neg _

theorem steps_abs (x : Float) : steps (Scalar.abs x) = (steps x).natAbs := by
  simp only [steps]
  rw [value_abs]
  cases value x with
  | notANumber => rfl
  | zero s => rfl
  | infinity s => exact congrArg Int.ofNat (natAbs_apply s _).symm
  | finite s m e hm => exact congrArg Int.ofNat (natAbs_apply s _).symm

def Unsigned : UnpackedFloat → Prop
  | .infinity s => s = .positive
  | .finite s _ _ _ => s = .positive
  | _ => True

theorem unsigned_of_units_nonneg {x : UnpackedFloat} (h : 0 ≤ units x) : Unsigned x := by
  have hlimit := limit_pos
  cases x with
  | notANumber => trivial
  | zero s => trivial
  | infinity s =>
    cases s with
    | positive => rfl
    | negative => simp only [units, Sign.apply] at h; omega
  | finite s m e hm =>
    cases s with
    | positive => rfl
    | negative =>
      have hpos := Nat.mul_pos hm (Nat.two_pow_pos (e + 1074).toNat)
      simp only [units, Sign.apply] at h
      omega

theorem units_nonneg {x : UnpackedFloat} (h : Unsigned x) : 0 ≤ units x := by
  cases x with
  | notANumber => exact Int.le_refl _
  | zero s => exact Int.le_refl _
  | infinity s => obtain rfl : s = .positive := h; exact Int.natCast_nonneg _
  | finite s m e hm => obtain rfl : s = .positive := h; exact Int.natCast_nonneg _

theorem unsigned_decode (e : BitVec 11) (m : BitVec 52) : Unsigned (decode .positive e m) := by
  rw [decode]
  split
  · split <;> trivial
  · split
    · split <;> trivial
    · trivial

/-- The sign of a number is stored, also if it is not rounded. -/
theorem unsigned_unpack_pack {x : UnpackedFloat} (h : Unsigned x) :
    Unsigned (Float.Model.pack x).unpack := by
  change Unsigned (UnpackedFloat.unpack Format.binary64 (UnpackedFloat.pack Format.binary64 x))
  cases x with
  | notANumber => trivial
  | zero s => cases s <;> trivial
  | infinity s => obtain rfl : s = .positive := h; trivial
  | finite s m e hm =>
    obtain rfl : s = .positive := h
    rw [UnpackedFloat.pack]
    dsimp only
    split
    · trivial
    · split <;> (rw [unpack_packComponents]; exact unsigned_decode _ _)

theorem unsigned_roundWithAccuracy (m : Nat) (e : Int) (accuracy : Accuracy) :
    Unsigned (roundWithAccuracy Format.binary64 .positive m e accuracy) := by
  rw [roundWithAccuracy]
  dsimp only
  split <;> trivial

/-- A divisor that is not negative: its sign is that of a positive number. -/
def Divisor : UnpackedFloat → Prop
  | .infinity s => s = .positive
  | .zero s => s = .positive
  | .finite s _ _ _ => s = .positive
  | .notANumber => True

theorem unsigned_div {x y : UnpackedFloat} (hx : Unsigned x) (hy : Divisor y) :
    Unsigned (UnpackedFloat.div Format.binary64 x y) := by
  cases x with
  | notANumber => trivial
  | infinity s =>
    obtain rfl : s = .positive := hx
    cases y with
    | notANumber => trivial
    | infinity s' => trivial
    | zero s' => obtain rfl : s' = .positive := hy; rfl
    | finite s' n f hn => obtain rfl : s' = .positive := hy; rfl
  | zero s => cases y <;> trivial
  | finite s m e hm =>
    obtain rfl : s = .positive := hx
    cases y with
    | notANumber => trivial
    | infinity s' => trivial
    | zero s' => obtain rfl : s' = .positive := hy; rfl
    | finite s' n f hn =>
      obtain rfl : s' = .positive := hy
      exact unsigned_roundWithAccuracy _ _ _

theorem divisor_maximum {x y : Float} (hx : Divisor (value x)) (hy : Divisor (value y)) :
    Divisor (value (Scalar.maximum x y)) := by
  rw [Scalar.maximum]
  split
  · exact hy
  · split
    · exact hx
    · exact hy

theorem divisor_abs (x : Float) : Divisor (value (Scalar.abs x)) := by
  rw [value_abs]
  cases value x <;> trivial

theorem unsigned_sub {x y : Float} (hx : (value x).isFinite) (h : y ≤ x) :
    Unsigned (value (x - y)) := by
  obtain ⟨hy, -, hle⟩ := le_iff.mp h
  by_cases hfinite : (value y).isFinite
  · refine unsigned_of_units_nonneg ?_
    have hround := clamp_mono (roundSteps_mono (Int.sub_nonneg_of_le hle))
    rwa [← (steps_sub hx hfinite).2, roundSteps_zero, clamp_zero] at hround
  · refine unsigned_unpack_pack ?_
    change Unsigned (UnpackedFloat.sub Format.binary64 (value x) (value y))
    have hlt : steps x < limit := units_lt_limit (canonical_value x) hx
    unfold steps at hle hlt
    cases hy' : value y with
    | notANumber => exact absurd hy' hy
    | zero s => exact absurd (by rw [hy']; rfl) hfinite
    | finite s m e hm => exact absurd (by rw [hy']; rfl) hfinite
    | infinity s =>
      cases s with
      | positive =>
        rw [hy'] at hle
        exact absurd (Int.lt_of_le_of_lt hle hlt) (Int.lt_irrefl _)
      | negative =>
        cases hx' : value x with
        | zero s => rfl
        | finite s m e hm => rfl
        | _ => rw [hx'] at hx; cases hx

/-- A difference that is not negative is none after it was divided by a scale either. -/
theorem not_isLt_of_le {t : Tolerances Float} {x y : Float} (h0 : 0 ≤ t.epsilon)
    (hx : (value x).isFinite) (h : y ≤ x) : ¬t.IsLt x y := by
  have hsub := unsigned_sub hx h
  have hscale : Divisor (value (Scalar.maximum (Scalar.maximum (Scalar.abs x) (Scalar.abs y)) 1)) :=
    divisor_maximum (divisor_maximum (divisor_abs x) (divisor_abs y)) rfl
  have hquotient : Unsigned (value (relativeDifference x y)) :=
    unsigned_unpack_pack (unsigned_div hsub hscale)
  intro hlt
  have hsteps := (lt_iff.mp hlt).2.2
  have heps := (le_iff.mp h0).2.2
  have hnonneg := units_nonneg hquotient
  rw [steps_neg] at hsteps
  change 0 ≤ steps t.epsilon at heps
  change 0 ≤ steps (relativeDifference x y) at hnonneg
  omega

theorem max_log2 {s : Sign} {m : Nat} {e : Int} {hm : 0 < m}
    (h : Canonical (.finite s m e hm)) : max (m.log2 + e - 52) (-1074) = e := by
  obtain ⟨hlt, he, hn⟩ := h
  have hm0 : m ≠ 0 := Nat.ne_of_gt hm
  have h53 : m.log2 < 53 := (Nat.log2_lt hm0).mpr hlt
  rcases hn with hn | rfl
  · have h52 : 52 ≤ m.log2 := (Nat.le_log2 hm0).mpr hn
    omega
  · omega

theorem divCore_one {s : Sign} {m : Nat} {e : Int} {hm : 0 < m}
    (h : Canonical (.finite s m e hm)) : ∃ j : Nat,
      divCore Format.binary64 m e (2 ^ 52) (-52) = (m * 2 ^ j, e - j, .exact) := by
  have hlog := max_log2 h
  have hone : totalExponent (2 ^ 52) (-52) = 1 := rfl
  have htarget : min (e - -52) (Format.binary64.targetExponent (totalExponent m e - 1)) =
      max (e - 1) (-1074) := by
    simp only [Format.targetExponent, totalExponent, Format.mantissaBits, Format.minExponent]
    omega
  refine ⟨(e - max (e - 1) (-1074)).toNat, ?_⟩
  have he := h.2.1
  have hshift : (e - -52 - max (e - 1) (-1074)).toNat = (e - max (e - 1) (-1074)).toNat + 52 := by
    omega
  unfold divCore
  rw [hone, htarget]
  dsimp only
  rw [hshift, Nat.shiftLeft_eq, Nat.pow_add, ← Nat.mul_assoc, Nat.mul_div_cancel _ (by decide),
    Nat.mul_mod_left]
  refine Prod.ext rfl (Prod.ext ?_ rfl)
  change max (e - 1) (-1074) = e - _
  omega

theorem div_one {x : UnpackedFloat} (hx : Canonical x) : UnpackedFloat.div Format.binary64 x
    (.finite .positive (2 ^ 52) (-52) (Nat.two_pow_pos _)) = x := by
  have hsign : ∀ s : Sign, s / .positive = s := fun s => by cases s <;> rfl
  cases x with
  | notANumber => rfl
  | infinity s => exact congrArg _ (hsign s)
  | zero s => exact congrArg _ (hsign s)
  | finite s m e hm =>
    obtain ⟨j, hj⟩ := divCore_one hx
    have hlog := log2_mul_two_pow (Nat.ne_of_gt hm) j
    have hmax := max_log2 hx
    have hk : (e - (e - j)).toNat = j := by omega
    have hlt := hx.1
    rw [UnpackedFloat.div]
    dsimp only
    rw [hj]
    dsimp only
    rw [roundWithAccuracy_eq (t := e) _ (by omega) (by omega), hk, nearest_mul_two_pow_self, hsign]
    · rw [assemble]
      rw [dif_neg (Nat.ne_of_gt hm), if_neg (by omega)]
    · rw [hk, nearest_mul_two_pow_self]
      omega

theorem eq_of_units_eq {x : UnpackedFloat} {n : Nat} {f : Int} {hn : 0 < n}
    (hx : Canonical x ∧ InRange x) (hy : Canonical (.finite .positive n f hn))
    (hlt : n * 2 ^ (f + 1074).toNat < limit)
    (h : units x = units (.finite .positive n f hn)) : x = .finite .positive n f hn := by
  have hpos := Nat.mul_pos hn (Nat.two_pow_pos (f + 1074).toNat)
  simp only [units, Sign.apply] at h
  cases x with
  | notANumber => simp only at h; omega
  | zero s => simp only at h; omega
  | infinity s => cases s <;> simp only at h <;> omega
  | finite s m e hm =>
    obtain ⟨hm53, he, hm52⟩ := hx.1
    obtain ⟨hn53, hf, hn52⟩ := hy
    cases s with
    | negative => simp only at h; omega
    | positive =>
      have h' : m * 2 ^ (e + 1074).toNat = n * 2 ^ (f + 1074).toNat := Int.ofNat.inj h
      rcases Int.lt_trichotomy e f with hef | rfl | hef
      · have hlt' := finite_lt_finite hm53 he hn52 hef
        omega
      · obtain rfl : m = n := Nat.eq_of_mul_eq_mul_right (Nat.two_pow_pos _) h'
        rfl
      · have hlt' := finite_lt_finite hn53 hf hm52 hef
        omega

theorem value_eq_one {x : Float} (h : steps x = steps 1) : value x = value 1 := by
  have hone := canonical_value 1
  unfold steps at h
  rw [value_one] at h hone ⊢
  exact eq_of_units_eq (canonical_value x) hone.1 (units_finite_bounds hone).2 h

theorem maximum_of_lt {x y : Float} (h : x < y) : Scalar.maximum x y = y := if_pos h

theorem scale_eq_one {x y : Float} (hx : 0 ≤ x) (hlt : x < y) (hy : y ≤ 1) :
    value (Scalar.maximum (Scalar.maximum (Scalar.abs x) (Scalar.abs y)) 1) = value 1 := by
  obtain ⟨-, hxn, h0⟩ := le_iff.mp hx
  obtain ⟨-, hyn, hxy⟩ := lt_iff.mp hlt
  obtain ⟨-, -, h1⟩ := le_iff.mp hy
  have hzero : steps 0 = 0 := rfl
  have habs : ∀ z : Float, IsNumber z → IsNumber (Scalar.abs z) := fun z hz h => by
    rw [value_abs] at h
    cases hv : value z with
    | notANumber => exact hz hv
    | _ => rw [hv] at h; cases h
  have hsteps : steps (Scalar.abs x) < steps (Scalar.abs y) := by
    rw [steps_abs, steps_abs]
    omega
  rw [maximum_of_lt (lt_iff.mpr ⟨habs x hxn, habs y hyn, hsteps⟩)]
  rw [Scalar.maximum]
  split
  · rfl
  · rename_i hnot
    have hge := (le_iff.mp (le_of_not_lt (habs y hyn) isNumber_one hnot)).2.2
    split
    · refine value_eq_one ?_
      rw [steps_abs] at hge ⊢
      omega
    · rfl

theorem value_relativeDifference {x y : Float} (hx : 0 ≤ x) (hlt : x < y) (hy : y ≤ 1) :
    value (relativeDifference x y) = value (x - y) := by
  have hsub := canonical_value (x - y)
  change (Float.Model.pack (UnpackedFloat.div Format.binary64 (value (x - y)) (value
    (Scalar.maximum (Scalar.maximum (Scalar.abs x) (Scalar.abs y)) 1)))).unpack = _
  rw [scale_eq_one hx hlt hy, value_one, div_one hsub.1, unpack_pack_of_inRange hsub]

theorem isFinite_of_mem {x : Float} (h0 : 0 ≤ x) (h1 : x ≤ 1) : (value x).isFinite := by
  obtain ⟨-, hx, hle0⟩ := le_iff.mp h0
  obtain ⟨-, -, hle1⟩ := le_iff.mp h1
  have hlt : steps 1 < limit := units_lt_limit (canonical_value 1) rfl
  have hlimit := limit_pos
  have hzero : steps 0 = 0 := rfl
  rw [hzero] at hle0
  unfold steps at hle0 hle1 hlt
  cases hv : value x with
  | notANumber => exact absurd hv hx
  | infinity s =>
    rw [hv] at hle0 hle1
    cases s with
    | positive => exact absurd (Int.lt_of_le_of_lt hle1 hlt) (Int.lt_irrefl _)
    | negative =>
      have hneg : (0 : Int) ≤ -(limit : Int) := hle0
      omega
  | zero s => rfl
  | finite s m e hm => rfl

theorem maximum_zero_nonneg (x : Float) : 0 ≤ Scalar.maximum x 0 := by
  have h0 : (0 : Float) ≤ 0 := by decide +kernel
  rw [Scalar.maximum]
  split
  · exact h0
  · rename_i hnot
    split
    · rename_i hx
      exact le_of_not_lt (le_iff.mp hx).1 (le_iff.mp h0).1 hnot
    · exact h0

theorem value_one_sub (x : Float) : value (1 - x) =
    (Float.Model.pack (UnpackedFloat.sub Format.binary64
      (.finite .positive (2 ^ 52) (-52) (Nat.two_pow_pos _)) (value x))).unpack := rfl

theorem one_sub_abs_le_one {x : Float} (h : IsNumber (1 - Scalar.abs x)) :
    1 - Scalar.abs x ≤ 1 := by
  refine le_iff.mpr ⟨h, isNumber_one, ?_⟩
  have habs := value_abs x
  have hone : steps (1 - 0) = steps 1 := by decide +kernel
  have hmono (hfinite : (value (Scalar.abs x)).isFinite) : steps (1 - Scalar.abs x) ≤ steps 1 := by
    have hnonneg : steps 0 ≤ steps (Scalar.abs x) := by
      rw [steps_abs]
      exact Int.natCast_nonneg _
    rw [← hone]
    exact sub_mono rfl rfl hfinite rfl (Int.le_refl _) hnonneg
  cases hv : value x with
  | notANumber =>
    rw [hv] at habs
    exact absurd (by rw [value_one_sub, habs]; rfl) h
  | infinity s =>
    rw [hv] at habs
    have hsub : value (1 - Scalar.abs x) = .infinity .negative := by
      rw [value_one_sub, habs]
      exact unpack_pack (f := .infinity .negative) trivial
    have hnonneg : 0 ≤ steps 1 := units_nonneg (x := value 1) rfl
    rw [steps, hsub]
    exact Int.le_trans (Int.neg_nonpos_of_nonneg (Int.natCast_nonneg _)) hnonneg
  | zero s => exact hmono (by rw [habs, hv]; rfl)
  | finite s m e hm => exact hmono (by rw [habs, hv]; rfl)

theorem maximum_zero_le_one (x : Float) : Scalar.maximum (1 - Scalar.abs x) 0 ≤ 1 := by
  have h1 : (0 : Float) ≤ 1 := by decide +kernel
  rw [Scalar.maximum]
  split
  · exact h1
  · split
    · rename_i hx
      exact one_sub_abs_le_one (le_iff.mp hx).1
    · exact h1

theorem mul_comm (x y : Float) : x * y = y * x := by
  have hsign : ∀ s s' : Sign, s * s' = s' * s := fun s s' => by cases s <;> cases s' <;> rfl
  have hmul : UnpackedFloat.mul Format.binary64 (value x) (value y) =
      UnpackedFloat.mul Format.binary64 (value y) (value x) := by
    cases value x <;> cases value y <;>
      simp only [UnpackedFloat.mul, hsign, Nat.mul_comm, Int.add_comm]
  exact congrArg (fun f => Float.ofModel (Float.Model.pack f)) hmul

theorem isLt_mono {t : Tolerances Float} {x y m : Float} (h0 : 0 ≤ t.epsilon) (hm : m ≤ 1)
    (hx : 0 ≤ x) (hxy : x ≤ y) (hy : y ≤ 1) (h : t.IsLt y m) : t.IsLt x m := by
  obtain ⟨h0n, hxn, hx'⟩ := le_iff.mp hx
  obtain ⟨-, hyn, hxy'⟩ := le_iff.mp hxy
  obtain ⟨hmn, hone, hm'⟩ := le_iff.mp hm
  have h0y : 0 ≤ y := le_iff.mpr ⟨h0n, hyn, Int.le_trans hx' hxy'⟩
  have hyf := isFinite_of_mem h0y hy
  have hym : y < m := by
    refine lt_iff.mpr ⟨hyn, hmn, Int.not_le.mp fun hle => ?_⟩
    exact not_isLt_of_le h0 hyf (le_iff.mpr ⟨hmn, hyn, hle⟩) h
  obtain ⟨-, -, hym'⟩ := lt_iff.mp hym
  have hxm : x < m := lt_iff.mpr ⟨hxn, hmn, Int.lt_of_le_of_lt hxy' hym'⟩
  have hxf := isFinite_of_mem hx (le_iff.mpr ⟨hxn, hone, by omega⟩)
  have hmf := isFinite_of_mem (le_iff.mpr ⟨h0n, hmn, by omega⟩) hm
  obtain ⟨-, hen, hlt⟩ := lt_iff.mp h
  refine lt_iff.mpr ⟨?_, hen, ?_⟩
  · rw [IsNumber]
    rw [value_relativeDifference hx hxm hm]
    exact (steps_sub hxf hmf).1
  · refine Int.lt_of_le_of_lt ?_ hlt
    simp only [steps]
    rw [value_relativeDifference hx hxm hm, value_relativeDifference h0y hym hm]
    exact sub_mono hxf hyf hmf hmf hxy' (Int.le_refl _)

instance : GradedScalar Float where
  mul_comm := mul_comm
  zero_le_one := by decide +kernel
  one_le_one := by decide +kernel
  maximum_nonneg x := maximum_zero_nonneg _
  maximum_le_one := maximum_zero_le_one
  not_isLt_one h0 hm := not_isLt_of_le h0 rfl hm
  isLt_of_le h0 hm hx hxy hy h := isLt_mono h0 hm hx hxy hy h

end Binary64
end CutSelection
