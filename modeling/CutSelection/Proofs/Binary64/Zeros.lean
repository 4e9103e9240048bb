import Mathlib
import CutSelection.Proofs.SparseSums
import CutSelection.Proofs.Binary64.Ordered

/-!
Zeros in double precision. A product with a zero is a zero, of either sign, and adding one changes
no number but negative zero. A sum that starts elsewhere never gets there: subnormal numbers are
summed exactly, so no sum is rounded to zero, and one that cancels is positive.
-/

namespace CutSelection
namespace Binary64

open Float.Model UnpackedFloat

theorem nearest_ne_zero {n : Nat} (hn : n ≠ 0) : nearest n (excess n) ≠ 0 := by
  by_cases h : 0 < excess n
  · have := le_nearest h
    omega
  · rw [Nat.eq_zero_of_not_pos h, nearest_zero]
    exact hn

/-- No multiple of the smallest subnormal number is rounded to zero. -/
theorem round_ne_zero (s s' : Sign) {m : Nat} {e : Int} (hm : m ≠ 0) (he : -1074 ≤ e) :
    UnpackedFloat.round Format.binary64 s m e ≠ .zero s' := by
  have hn : m * 2 ^ (e + 1074).toNat ≠ 0 := Nat.mul_ne_zero hm (Nat.ne_of_gt (Nat.two_pow_pos _))
  rw [round_eq s hm he, assemble, dif_neg (nearest_ne_zero hn)]
  split <;> simp

theorem normalize_ne_negativeZero {e : Int} (he : -1074 ≤ e) (n : Int) :
    UnpackedFloat.normalize Format.binary64 n e .positive ≠ .zero .negative := by
  rw [UnpackedFloat.normalize]
  rcases Int.lt_trichotomy n 0 with hn | rfl | hn
  · rw [Int.compare_eq_lt.mpr hn]
    exact round_ne_zero _ _ (by omega) he
  · rw [Int.compare_eq_eq.mpr rfl]
    simp
  · rw [Int.compare_eq_gt.mpr hn]
    exact round_ne_zero _ _ (by omega) he

/-- Only two negative zeros add up to one. -/
theorem add_ne_negativeZero {x y : UnpackedFloat} (hx : Canonical x) (hy : Canonical y)
    (h : x ≠ .zero .negative) : UnpackedFloat.add Format.binary64 x y ≠ .zero .negative := by
  cases x with
  | notANumber => simp [UnpackedFloat.add]
  | infinity s =>
    cases y with
    | infinity s' => cases s <;> cases s' <;> simp [UnpackedFloat.add]
    | _ => simp [UnpackedFloat.add]
  | zero s =>
    cases s with
    | negative => exact absurd rfl h
    | positive =>
      cases y with
      | zero s' => cases s' <;> simp [UnpackedFloat.add]
      | _ => simp [UnpackedFloat.add]
  | finite s m e hm =>
    cases y with
    | finite s' n f hn =>
      have he := hx.2.1
      have hf := hy.2.1
      exact normalize_ne_negativeZero (by omega) _
    | _ => simp [UnpackedFloat.add]

theorem canonical_add {x y : UnpackedFloat} (hx : Canonical x) (hy : Canonical y) :
    Canonical (UnpackedFloat.add Format.binary64 x y) := by
  have hneg : Canonical y.neg := by cases y <;> exact hy
  rw [add_eq_sub_neg]
  by_cases hfinite : x.isFinite ∧ y.neg.isFinite
  · exact (sub_spec hx hneg hfinite.1 hfinite.2).1
  · rcases sub_of_not_isFinite hfinite with h | ⟨s, h⟩ <;> rw [h] <;> trivial

theorem value_add_eq_clip (x y : Float) :
    value (x + y) = clip (UnpackedFloat.add Format.binary64 (value x) (value y)) :=
  unpack_pack (canonical_add (canonical_value x).1 (canonical_value y).1)

theorem value_add_ne_negativeZero {x : Float} (h : value x ≠ .zero .negative) (y : Float) :
    value (x + y) ≠ .zero .negative := by
  rw [value_add_eq_clip, Ne, clip_eq_zero_iff]
  exact add_ne_negativeZero (canonical_value x).1 (canonical_value y).1 h

theorem units_eq_zero_iff {x : UnpackedFloat} (h : x ≠ .notANumber) :
    units x = 0 ↔ ∃ s, x = .zero s := by
  cases x with
  | notANumber => exact absurd rfl h
  | zero s => exact iff_of_true rfl ⟨s, rfl⟩
  | infinity s =>
    have hlimit := limit_pos
    have habs := natAbs_apply s limit
    refine iff_of_false (fun h0 => ?_) (by simp)
    rw [units] at h0
    omega
  | finite s m e hm =>
    have hpos := Nat.mul_pos hm (Nat.two_pow_pos (e + 1074).toNat)
    have habs := natAbs_apply s (m * 2 ^ (e + 1074).toNat)
    refine iff_of_false (fun h0 => ?_) (by simp)
    rw [units] at h0
    omega

theorem isZero_iff {x : Float} : Scalar.IsZero x ↔ ∃ s, value x = .zero s := by
  have hzero : steps 0 = 0 := rfl
  have hnumber : IsNumber 0 := isNumber_of_isFinite (by decide +kernel)
  constructor
  · rintro ⟨hle, hge⟩
    obtain ⟨hx, -, hle⟩ := le_iff.mp hle
    obtain ⟨-, -, hge⟩ := le_iff.mp hge
    exact (units_eq_zero_iff hx).mp (show steps x = 0 by omega)
  · intro h
    have hx : IsNumber x := by
      obtain ⟨s, hs⟩ := h
      simp [IsNumber, hs]
    have hsteps : steps x = 0 := (units_eq_zero_iff hx).mpr h
    exact ⟨le_iff.mpr ⟨hx, hnumber, by omega⟩, le_iff.mpr ⟨hnumber, hx, by omega⟩⟩

theorem isZero_mul {x z : Float} (hx : IsFinite x) (hz : Scalar.IsZero z) :
    Scalar.IsZero (x * z) := by
  rw [isFinite_iff] at hx
  obtain ⟨s, hs⟩ := isZero_iff.mp hz
  have hproduct : ∃ s', UnpackedFloat.mul Format.binary64 (value x) (value z) = .zero s' := by
    rw [hs]
    cases hv : value x with
    | notANumber | infinity s' =>
      rw [hv] at hx
      cases hx
    | zero s' | finite s' m e hm => exact ⟨_, rfl⟩
  obtain ⟨s', hs'⟩ := hproduct
  refine isZero_iff.mpr ⟨s', ?_⟩
  change (Float.Model.pack (UnpackedFloat.mul Format.binary64 (value x) (value z))).unpack = _
  rw [hs', unpack_pack (f := .zero s') trivial, clip_eq_zero_iff]

theorem add_eq_self {x z : Float} (hx : value x ≠ .zero .negative) (hz : Scalar.IsZero z) :
    x + z = x := by
  obtain ⟨s, hs⟩ := isZero_iff.mp hz
  have hadd : UnpackedFloat.add Format.binary64 (value x) (value z) = value x := by
    rw [hs]
    cases hv : value x with
    | zero s' =>
      rw [hv] at hx
      cases s' with
      | negative => exact absurd rfl hx
      | positive => cases s <;> rfl
    | _ => rfl
  change Float.ofModel
    (Float.Model.pack (UnpackedFloat.add Format.binary64 (value x) (value z))) = x
  rw [hadd, value, pack_unpack]

theorem absorbsZeros_iff {x : Float} : Scalar.AbsorbsZeros x ↔ value x ≠ .zero .negative := by
  refine ⟨fun h hx => ?_, fun hx z hz => add_eq_self hx hz⟩
  have hzero : Scalar.IsZero (0 : Float) := isZero_iff.mpr ⟨.positive, rfl⟩
  have hadd : value (x + 0) = .zero .positive := by
    rw [value_add_eq_clip, hx]
    rfl
  rw [h 0 hzero, hx] at hadd
  cases hadd

instance : SparseScalar Float where
  absorbsZeros_zero := absorbsZeros_iff.mpr (by simp [show value 0 = .zero .positive from rfl])
  absorbsZeros_add h := absorbsZeros_iff.mpr (value_add_ne_negativeZero (absorbsZeros_iff.mp h) _)
  isZero_mul := isZero_mul

end Binary64
end CutSelection
