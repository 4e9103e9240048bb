import Mathlib
import CutSelection.Proofs.ScoreOrder
import CutSelection.Proofs.Binary64.Products
import CutSelection.Proofs.Binary64.Quotients

/-!
Double precision numbers as ordered scalars. A number is finite if its exponent field is not the
largest one.
-/

namespace CutSelection
namespace Binary64

open Float.Model UnpackedFloat

theorem isFinite_decode (s : Sign) (e : BitVec 11) (m : BitVec 52) :
    (decode s e m).isFinite ↔ e.toNat < 2047 := by
  have he := e.isLt
  rw [decode]
  split
  · rename_i hi
    subst hi
    split <;> simp [UnpackedFloat.isFinite]
  · rename_i hi
    have hne : e.toNat ≠ 2047 := fun h => hi (BitVec.eq_of_toNat_eq h)
    refine iff_of_true ?_ (by omega)
    split
    · split <;> rfl
    · rfl

theorem toNat_unpackExponent (b : BitVec Format.binary64.numBits) :
    (unpackExponent b).toNat = b.toNat / 2 ^ 52 % 2 ^ 11 := by
  rw [unpackExponent, BitVec.toNat_cast, BitVec.extractLsb_toNat, Nat.shiftRight_eq_div_pow]
  rfl

theorem isFinite_iff (x : Float) : IsFinite x ↔ (value x).isFinite := by
  change IsFinite x ↔ (UnpackedFloat.unpack Format.binary64 x.toBits.toBitVec).isFinite
  rw [unpack_eq, isFinite_decode, toNat_unpackExponent]
  rfl

theorem isFinite_of_infinite {x : UnpackedFloat} (h : x = .notANumber ∨ ∃ s, x = .infinity s) :
    (Float.Model.pack x).unpack.isFinite = false := by
  have hx : Canonical x ∧ x.isFinite = false := by
    rcases h with rfl | ⟨s, rfl⟩ <;> exact ⟨trivial, rfl⟩
  rw [unpack_pack hx.1]
  rcases h with rfl | ⟨s, rfl⟩ <;> rfl

/-- Without a tolerance two numbers are told apart if they are finite and different. -/
theorem isGt_iff {t : Tolerances Float} (h0 : Scalar.IsZero t.epsilon) {x y : Float} :
    t.IsGt x y ↔ IsFinite x ∧ IsFinite y ∧ y < x := by
  obtain ⟨hen, h0n, hle⟩ := le_iff.mp h0.1
  have hge := (le_iff.mp h0.2).2.2
  have hzero : steps 0 = 0 := rfl
  rw [Tolerances.IsGt, lt_iff, isFinite_iff, isFinite_iff, lt_iff]
  constructor
  · rintro ⟨-, hnumber, hlt⟩
    obtain ⟨hx, hy⟩ := isFinite_of_isNumber_relativeDifference hnumber
    refine ⟨hx, hy, (isFinite_iff_steps.mp hy).1, (isFinite_iff_steps.mp hx).1, ?_⟩
    by_contra hnot
    have hround := roundSteps_mono (m := steps x - steps y) (n := 0) (by omega)
    have hclamp := clamp_mono hround
    rw [roundSteps_zero, clamp_zero, ← (steps_sub hx hy).2] at hclamp
    have := steps_relativeDifference_nonpos hclamp
    omega
  · rintro ⟨hx, hy, -, -, hlt⟩
    obtain ⟨hnumber, hpos⟩ := steps_relativeDifference_pos hx hy hlt
    exact ⟨hen, hnumber, by omega⟩

theorem isNumber_of_isFinite {x : Float} (h : IsFinite x) : IsNumber x :=
  (isFinite_iff_steps.mp ((isFinite_iff x).mp h)).1

theorem isFinite_of_le {x y z : Float} (hx : IsFinite x) (hz : IsFinite z) (hxy : x ≤ y)
    (hyz : y ≤ z) : IsFinite y := by
  rw [isFinite_iff, isFinite_iff_steps] at hx hz ⊢
  obtain ⟨-, hy, hle⟩ := le_iff.mp hxy
  have := (le_iff.mp hyz).2.2
  exact ⟨hy, by omega⟩

theorem isFinite_of_add {x y : Float} (h : IsFinite (x + y)) : IsFinite x ∧ IsFinite y := by
  rw [isFinite_iff] at h ⊢
  rw [isFinite_iff]
  by_contra hfinite
  have hadd : UnpackedFloat.add Format.binary64 (value x) (value y) = .notANumber ∨
      ∃ s, UnpackedFloat.add Format.binary64 (value x) (value y) = .infinity s := by
    rw [add_eq_sub_neg]
    refine sub_of_not_isFinite ?_
    rwa [isFinite_neg]
  have hpack := isFinite_of_infinite hadd
  change (value (x + y)).isFinite = false at hpack
  rw [h] at hpack
  cases hpack

theorem isFinite_of_mul {x y : Float} (h : IsFinite (x * y)) : IsFinite x ∧ IsFinite y := by
  rw [isFinite_iff] at h ⊢
  rw [isFinite_iff]
  by_contra hfinite
  have hmul : UnpackedFloat.mul Format.binary64 (value x) (value y) = .notANumber ∨
      ∃ s, UnpackedFloat.mul Format.binary64 (value x) (value y) = .infinity s := by
    cases hx : value x <;> cases hy : value y <;>
      simp [hx, hy, UnpackedFloat.isFinite] at hfinite <;> simp [UnpackedFloat.mul]
  have hpack := isFinite_of_infinite hmul
  change (value (x * y)).isFinite = false at hpack
  rw [h] at hpack
  cases hpack

theorem le_add {x y : Float} (hx : IsFinite x) (hy : IsFinite y) (h : 0 ≤ y) : x ≤ x + y := by
  rw [isFinite_iff] at hx hy
  obtain ⟨hnumber, hsteps⟩ := steps_add hx hy
  have hzero : steps 0 = 0 := rfl
  have hle := (le_iff.mp h).2.2
  have hround : roundSteps (steps x) = steps x := roundSteps_units (canonical_value x).1 hx
  have hmono := clamp_mono (roundSteps_mono (m := steps x) (n := steps x + steps y) (by omega))
  rw [hround, ← hsteps, clamp] at hmono
  obtain ⟨hxn, hbound⟩ := isFinite_iff_steps.mp hx
  exact le_iff.mpr ⟨hxn, hnumber, by omega⟩

theorem add_le_add_left {x y z : Float} (hx : IsFinite x) (hy : IsFinite y) (hz : IsFinite z)
    (h : y ≤ z) : x + y ≤ x + z := by
  rw [isFinite_iff] at hx hy hz
  obtain ⟨hy', hsy⟩ := steps_add hx hy
  obtain ⟨hz', hsz⟩ := steps_add hx hz
  refine le_iff.mpr ⟨hy', hz', ?_⟩
  rw [hsy, hsz]
  exact clamp_mono (roundSteps_mono (Int.add_le_add_left (le_iff.mp h).2.2 _))

theorem mul_nonneg {x y : Float} (hx : IsFinite x) (hy : IsFinite y) (hx0 : 0 ≤ x) (hy0 : 0 ≤ y) :
    0 ≤ x * y := by
  rw [isFinite_iff] at hx hy
  obtain ⟨hnumber, hsteps⟩ := steps_mul hx hy
  have hproduct := clamp_mono (roundProduct_mono
    (Int.mul_nonneg (le_iff.mp hx0).2.2 (le_iff.mp hy0).2.2))
  rw [roundProduct_zero, clamp_zero, ← hsteps] at hproduct
  exact le_iff.mpr ⟨(le_iff.mp hx0).1, hnumber, hproduct⟩

theorem mul_le_mul_left {x y z : Float} (hx : IsFinite x) (hy : IsFinite y) (hz : IsFinite z)
    (hx0 : 0 ≤ x) (h : y ≤ z) : x * y ≤ x * z := by
  rw [isFinite_iff] at hx hy hz
  obtain ⟨hy', hsy⟩ := steps_mul hx hy
  obtain ⟨hz', hsz⟩ := steps_mul hx hz
  refine le_iff.mpr ⟨hy', hz', ?_⟩
  rw [hsy, hsz]
  exact clamp_mono (roundProduct_mono
    (Int.mul_le_mul_of_nonneg_left (le_iff.mp h).2.2 (le_iff.mp hx0).2.2))

instance : OrderedScalar Float where
  IsFinite := IsFinite
  decidableIsFinite := inferInstance
  isFinite_zero := by decide +kernel
  isFinite_one := by decide +kernel
  lt_iff {x y} := by
    rw [lt_iff, le_iff, le_iff]
    constructor
    · rintro ⟨hx, hy, hlt⟩
      exact ⟨⟨hx, hy, by omega⟩, fun h => by omega⟩
    · rintro ⟨⟨hx, hy, -⟩, hnot⟩
      exact ⟨hx, hy, Int.not_le.mp fun hle => hnot ⟨hy, hx, hle⟩⟩
  le_trans {x y z} hxy hyz := by
    obtain ⟨hx, -, hle⟩ := le_iff.mp hxy
    obtain ⟨-, hz, hle'⟩ := le_iff.mp hyz
    exact le_iff.mpr ⟨hx, hz, Int.le_trans hle hle'⟩
  le_total {x y} hx hy := by
    have hxn := isNumber_of_isFinite hx
    have hyn := isNumber_of_isFinite hy
    exact (Int.le_total (steps x) (steps y)).imp (fun h => le_iff.mpr ⟨hxn, hyn, h⟩)
      fun h => le_iff.mpr ⟨hyn, hxn, h⟩
  isFinite_of_le := isFinite_of_le
  isFinite_of_add := isFinite_of_add
  isFinite_of_mul := isFinite_of_mul
  le_add := le_add
  add_le_add_left := add_le_add_left
  mul_nonneg := mul_nonneg
  mul_le_mul_left := mul_le_mul_left
  isGt_iff h0 := isGt_iff h0

end Binary64
end CutSelection
