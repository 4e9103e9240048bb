import Mathlib
import CutSelection.Proofs.Binary64.Packing

/-!
The order of double precision numbers is that of the multiples of the smallest subnormal number, and
a difference is rounded without changing the order.
-/

namespace CutSelection
namespace Binary64

open Float.Model UnpackedFloat

theorem finite_lt_finite {m n : Nat} {e f : Int} (hm : m < 2 ^ 53) (he : -1074 ≤ e)
    (hn : 2 ^ 52 ≤ n ∨ f = -1074) (h : e < f) :
    m * 2 ^ (e + 1074).toNat < n * 2 ^ (f + 1074).toNat := by
  calc m * 2 ^ (e + 1074).toNat < 2 ^ 53 * 2 ^ (e + 1074).toNat :=
        Nat.mul_lt_mul_of_pos_right hm (Nat.two_pow_pos _)
    _ = 2 ^ 52 * 2 ^ ((e + 1074).toNat + 1) := two_pow_mul_two_pow _
    _ ≤ n * 2 ^ (f + 1074).toNat :=
        Nat.mul_le_mul (hn.resolve_right (by omega)) (Nat.pow_le_pow_right Nat.two_pos (by omega))

theorem finite_lt_limit {m : Nat} {e : Int} (hm : m < 2 ^ 53) (he : -1074 ≤ e) (he' : e ≤ 971) :
    m * 2 ^ (e + 1074).toNat < limit :=
  finite_lt_finite hm he (.inl (Nat.le_refl _)) (by omega)

theorem limit_le_finite {m : Nat} {e : Int} (hm : 2 ^ 52 ≤ m) (he : 971 < e) :
    limit ≤ m * 2 ^ (e + 1074).toNat :=
  Nat.mul_le_mul hm (Nat.pow_le_pow_right Nat.two_pos (by omega))

/-- Finite numbers are ordered by their exponents first. -/
theorem compare_finite {m n : Nat} {e f : Int} (hm : m < 2 ^ 53) (he : -1074 ≤ e)
    (hm' : 2 ^ 52 ≤ m ∨ e = -1074) (hn : n < 2 ^ 53) (hf : -1074 ≤ f)
    (hn' : 2 ^ 52 ≤ n ∨ f = -1074) : (compare e f).then (compare m n) =
      compare (m * 2 ^ (e + 1074).toNat) (n * 2 ^ (f + 1074).toNat) := by
  rcases Int.lt_trichotomy e f with h | rfl | h
  · have hlt := finite_lt_finite hm he hn' h
    rw [Int.compare_eq_lt.mpr h, Nat.compare_eq_lt.mpr hlt]
    rfl
  · rw [Int.compare_eq_eq.mpr rfl]
    have hk := Nat.two_pow_pos (e + 1074).toNat
    rcases Nat.lt_trichotomy m n with h | rfl | h
    · exact (Nat.compare_eq_lt.mpr h).trans
        (Nat.compare_eq_lt.mpr (Nat.mul_lt_mul_of_pos_right h hk)).symm
    · rw [Nat.compare_eq_eq.mpr rfl, Nat.compare_eq_eq.mpr rfl]
      rfl
    · exact (Nat.compare_eq_gt.mpr h).trans
        (Nat.compare_eq_gt.mpr (Nat.mul_lt_mul_of_pos_right h hk)).symm
  · have hlt := finite_lt_finite hn hf hm' h
    rw [Int.compare_eq_gt.mpr h, Nat.compare_eq_gt.mpr hlt]
    rfl

theorem compare_natCast (m n : Nat) : compare (m : Int) n = compare m n := by
  rcases Nat.lt_trichotomy m n with h | rfl | h
  · rw [Nat.compare_eq_lt.mpr h, Int.compare_eq_lt.mpr (by omega)]
  · rw [Nat.compare_eq_eq.mpr rfl, Int.compare_eq_eq.mpr rfl]
  · rw [Nat.compare_eq_gt.mpr h, Int.compare_eq_gt.mpr (by omega)]

theorem compare_neg (m n : Int) : compare (-m) (-n) = (compare m n).swap := by
  rcases Int.lt_trichotomy m n with h | rfl | h
  · rw [Int.compare_eq_lt.mpr h, Int.compare_eq_gt.mpr (by omega)]
    rfl
  · rw [Int.compare_eq_eq.mpr rfl, Int.compare_eq_eq.mpr rfl]
    rfl
  · rw [Int.compare_eq_gt.mpr h, Int.compare_eq_lt.mpr (by omega)]
    rfl

theorem units_finite_bounds {s : Sign} {m : Nat} {e : Int} {hm : 0 < m}
    (h : Canonical (.finite s m e hm) ∧ InRange (.finite s m e hm)) :
    0 < m * 2 ^ (e + 1074).toNat ∧ m * 2 ^ (e + 1074).toNat < limit :=
  ⟨Nat.mul_pos hm (Nat.two_pow_pos _), finite_lt_limit h.1.1 h.1.2.1 h.2⟩

theorem units_lt_limit {x : UnpackedFloat} (hx : Canonical x ∧ InRange x) (hfinite : x.isFinite) :
    units x < limit := by
  have hlimit := limit_pos
  cases x with
  | zero s => exact Int.natCast_pos.mpr hlimit
  | finite s m e hm =>
    have hbounds := units_finite_bounds hx
    cases s <;> simp only [units, Sign.apply] <;> omega
  | _ => cases hfinite

/-- The order of two numbers in memory is the order of their multiples. -/
theorem compare_eq {x y : UnpackedFloat} (hx : Canonical x ∧ InRange x)
    (hy : Canonical y ∧ InRange y) (hxn : x ≠ .notANumber) (hyn : y ≠ .notANumber) :
    x.compare y = some (compare (units x) (units y)) := by
  have hlimit := limit_pos
  have hlt {a b : Int} (h : a < b) : some .lt = some (compare a b) :=
    congrArg some (Int.compare_eq_lt.mpr h).symm
  have heq (a : Int) : some .eq = some (compare a a) :=
    congrArg some (Int.compare_eq_eq.mpr rfl).symm
  have hgt {a b : Int} (h : b < a) : some .gt = some (compare a b) :=
    congrArg some (Int.compare_eq_gt.mpr h).symm
  cases x with
  | notANumber => exact absurd rfl hxn
  | infinity s =>
    cases y with
    | notANumber => exact absurd rfl hyn
    | infinity s' =>
      cases s <;> cases s' <;> simp only [UnpackedFloat.compare, units, Sign.apply] <;>
        first | exact heq _ | exact hlt (by omega) | exact hgt (by omega)
    | zero s' =>
      cases s <;> simp only [UnpackedFloat.compare, units, Sign.apply] <;>
        first | exact hlt (by omega) | exact hgt (by omega)
    | finite s' n f hn =>
      have hy := units_finite_bounds hy
      cases s <;> cases s' <;> simp only [UnpackedFloat.compare, units, Sign.apply] <;>
        first | exact hlt (by omega) | exact hgt (by omega)
  | zero s =>
    cases y with
    | notANumber => exact absurd rfl hyn
    | infinity s' =>
      cases s' <;> simp only [UnpackedFloat.compare, units, Sign.apply] <;>
        first | exact hlt (by omega) | exact hgt (by omega)
    | zero s' => exact heq 0
    | finite s' n f hn =>
      have hy := units_finite_bounds hy
      cases s' <;> simp only [UnpackedFloat.compare, units, Sign.apply] <;>
        first | exact hlt (by omega) | exact hgt (by omega)
  | finite s m e hm =>
    have hx' := units_finite_bounds hx
    cases y with
    | notANumber => exact absurd rfl hyn
    | infinity s' =>
      cases s <;> cases s' <;> simp only [UnpackedFloat.compare, units, Sign.apply] <;>
        first | exact hlt (by omega) | exact hgt (by omega)
    | zero s' =>
      cases s <;> simp only [UnpackedFloat.compare, units, Sign.apply] <;>
        first | exact hlt (by omega) | exact hgt (by omega)
    | finite s' n f hn =>
      have hy' := units_finite_bounds hy
      have hcompare := compare_finite hx.1.1 hx.1.2.1 hx.1.2.2 hy.1.1 hy.1.2.1 hy.1.2.2
      cases s <;> cases s' <;> simp only [UnpackedFloat.compare, units, Sign.apply]
      · rw [hcompare, compare_neg, compare_natCast]
      · exact hlt (by omega)
      · exact hgt (by omega)
      · rw [hcompare, compare_natCast]

theorem notANumber_compare (x : UnpackedFloat) : UnpackedFloat.notANumber.compare x = none := by
  cases x <;> rfl

theorem compare_notANumber (x : UnpackedFloat) : x.compare .notANumber = none := by
  cases x <;> rfl

def value (x : Float) : UnpackedFloat := x.toModel.unpack

def IsNumber (x : Float) : Prop := value x ≠ .notANumber

def steps (x : Float) : Int := units (value x)

theorem canonical_value (x : Float) : Canonical (value x) ∧ InRange (value x) :=
  canonical_unpack x.toModel

theorem le_iff {x y : Float} : x ≤ y ↔ IsNumber x ∧ IsNumber y ∧ steps x ≤ steps y := by
  refine (decide_eq_true_iff (p := (value x).le (value y) = true)).trans ?_
  rw [UnpackedFloat.le]
  by_cases hx : value x = .notANumber
  · simp [notANumber_compare, IsNumber, hx]
  · by_cases hy : value y = .notANumber
    · simp [compare_notANumber, IsNumber, hy]
    · rw [compare_eq (canonical_value x) (canonical_value y) hx hy]
      simp [IsNumber, hx, hy, steps, Int.isLE_compare]

theorem lt_iff {x y : Float} : x < y ↔ IsNumber x ∧ IsNumber y ∧ steps x < steps y := by
  refine (decide_eq_true_iff (p := (value x).lt (value y) = true)).trans ?_
  rw [UnpackedFloat.lt]
  by_cases hx : value x = .notANumber
  · simp [notANumber_compare, IsNumber, hx]
  · by_cases hy : value y = .notANumber
    · simp [compare_notANumber, IsNumber, hy]
    · rw [compare_eq (canonical_value x) (canonical_value y) hx hy]
      simp [IsNumber, hx, hy, steps, Int.compare_eq_lt]

theorem le_of_not_lt {x y : Float} (hx : IsNumber x) (hy : IsNumber y) (h : ¬x < y) : y ≤ x :=
  le_iff.mpr ⟨hy, hx, Int.not_lt.mp fun hlt => h (lt_iff.mpr ⟨hx, hy, hlt⟩)⟩

def roundSteps (n : Int) : Int :=
  if 0 ≤ n then roundUnits n.toNat else -roundUnits (-n).toNat

@[simp] theorem roundSteps_zero : roundSteps 0 = 0 := by simp [roundSteps, roundUnits, excess]

theorem roundSteps_mono {m n : Int} (h : m ≤ n) : roundSteps m ≤ roundSteps n := by
  have h1 := roundUnits_mono (Int.toNat_le_toNat h)
  have h2 := roundUnits_mono (Int.toNat_le_toNat (Int.neg_le_neg h))
  simp only [roundSteps]
  split <;> split <;> omega

theorem roundSteps_apply (s : Sign) (n : Nat) :
    roundSteps (s.apply n) = s.apply (roundUnits n : Nat) := by
  cases s with
  | positive => simp [roundSteps, Sign.apply]
  | negative =>
    by_cases hn : n = 0
    · simp [hn, Sign.apply, roundUnits, excess]
    · have hneg : ¬(0 : Int) ≤ -n := by omega
      rw [Sign.apply, roundSteps, if_neg hneg, Int.neg_neg, Int.toNat_natCast]
      rfl

/-- Rounding a multiple of a power of two, which is never below the smallest subnormal number. -/
theorem normalize_spec {e : Int} (he : -1074 ≤ e) (n : Int) (s : Sign) :
    let x := UnpackedFloat.normalize Format.binary64 n e s
    Canonical x ∧ x ≠ .notANumber ∧ units x = roundSteps (n * (2 ^ (e + 1074).toNat : Nat)) := by
  rw [UnpackedFloat.normalize]
  rcases Int.lt_trichotomy n 0 with hn | rfl | hn
  · have hn' : n = -((-n).toNat : Int) := by omega
    obtain ⟨hcanonical, hnumber, hunits⟩ := round_spec .negative (m := (-n).toNat) (by omega) he
    rw [Int.compare_eq_lt.mpr hn]
    refine ⟨hcanonical, hnumber, hunits.trans ?_⟩
    rw [← roundSteps_apply, Sign.apply, Int.natCast_mul, ← Int.neg_mul, ← hn']
  · rw [Int.compare_eq_eq.mpr rfl]
    exact ⟨trivial, by simp, by rw [Int.zero_mul, roundSteps_zero]; rfl⟩
  · have hn' : n = (n.toNat : Int) := by omega
    obtain ⟨hcanonical, hnumber, hunits⟩ := round_spec .positive (m := n.toNat) (by omega) he
    rw [Int.compare_eq_gt.mpr hn]
    refine ⟨hcanonical, hnumber, hunits.trans ?_⟩
    rw [← roundSteps_apply, Sign.apply, Int.natCast_mul, ← hn']

theorem roundSteps_units {x : UnpackedFloat} (hx : Canonical x) (hfin : x.isFinite) :
    roundSteps (units x) = units x := by
  cases x with
  | zero s => exact roundSteps_zero
  | finite s m e hm => rw [units, roundSteps_apply, roundUnits_of_fits hx.1]
  | _ => cases hfin

theorem apply_neg (s : Sign) (n : Int) : (-s).apply n = -s.apply n := by
  cases s with
  | positive => rfl
  | negative => exact (Int.neg_neg n).symm

theorem apply_shiftLeft (s : Sign) (m : Nat) {e f : Int} (hf : -1074 ≤ f) (h : f ≤ e) :
    s.apply (m <<< (e - f).toNat : Nat) * (2 ^ (f + 1074).toNat : Nat) =
      s.apply (m * 2 ^ (e + 1074).toNat : Nat) := by
  have hk : (e + 1074).toNat = (e - f).toNat + (f + 1074).toNat := by omega
  have hmul : m <<< (e - f).toNat * 2 ^ (f + 1074).toNat = m * 2 ^ (e + 1074).toNat := by
    rw [Nat.shiftLeft_eq, hk, Nat.pow_add, Nat.mul_assoc]
  cases s with
  | positive => rw [Sign.apply, Sign.apply, ← Int.natCast_mul, hmul]
  | negative => rw [Sign.apply, Sign.apply, Int.neg_mul, ← Int.natCast_mul, hmul]

theorem sub_spec {x y : UnpackedFloat} (hx : Canonical x) (hy : Canonical y) (hxf : x.isFinite)
    (hyf : y.isFinite) :
    let z := UnpackedFloat.sub Format.binary64 x y
    Canonical z ∧ z ≠ .notANumber ∧ units z = roundSteps (units x - units y) := by
  cases x with
  | infinity s => cases hxf
  | notANumber => cases hxf
  | zero s =>
    cases y with
    | infinity s' => cases hyf
    | notANumber => cases hyf
    | zero s' =>
      have hzero : roundSteps (units (.zero s) - units (.zero s')) = 0 := roundSteps_zero
      obtain ⟨s'', h⟩ : ∃ s'',
          UnpackedFloat.sub Format.binary64 (.zero s) (.zero s') = .zero s'' := by
        cases s <;> cases s' <;> exact ⟨_, rfl⟩
      rw [h]
      exact ⟨trivial, by simp, hzero.symm⟩
    | finite s' n f hn =>
      have hneg : Canonical (.finite (-s') n f hn) := hy
      have hunits : units (.zero s) - units (.finite s' n f hn) = units (.finite (-s') n f hn) := by
        change 0 - s'.apply _ = (-s').apply _
        rw [apply_neg, Int.zero_sub]
      rw [hunits, roundSteps_units hneg rfl]
      exact ⟨hneg, by simp [UnpackedFloat.sub], rfl⟩
  | finite s m e hm =>
    cases y with
    | infinity s' => cases hyf
    | notANumber => cases hyf
    | zero s' =>
      have hunits : units (.finite s m e hm) - units (.zero s') = units (.finite s m e hm) :=
        Int.sub_zero _
      rw [hunits, roundSteps_units hx rfl]
      exact ⟨hx, by simp [UnpackedFloat.sub], rfl⟩
    | finite s' n f hn =>
      have he : -1074 ≤ min e f := by
        have h1 := hx.2.1
        have h2 := hy.2.1
        omega
      have hspec := normalize_spec he (s.apply (m <<< (e - min e f).toNat : Nat) -
        s'.apply (n <<< (f - min e f).toNat : Nat)) .positive
      rw [Int.sub_mul, apply_shiftLeft s m he (Int.min_le_left _ _),
        apply_shiftLeft s' n he (Int.min_le_right _ _)] at hspec
      exact hspec

def clamp (n : Int) : Int := max (-(limit : Int)) (min (limit : Int) n)

theorem clamp_mono {m n : Int} (h : m ≤ n) : clamp m ≤ clamp n := by
  simp only [clamp]
  omega

@[simp] theorem clamp_zero : clamp 0 = 0 := by
  rw [clamp]
  omega

theorem units_clip {x : UnpackedFloat} (hx : Canonical x) : units (clip x) = clamp (units x) := by
  have hlimit := limit_pos
  cases x with
  | notANumber => exact clamp_zero.symm
  | zero s => exact clamp_zero.symm
  | infinity s => cases s <;> simp only [clip, units, Sign.apply, clamp] <;> omega
  | finite s m e hm =>
    by_cases he : e ≤ 971
    · have hrange : InRange (.finite s m e hm) := he
      have hbounds := units_finite_bounds ⟨hx, hrange⟩
      rw [clip_of_inRange hrange]
      cases s <;> simp only [units, Sign.apply, clamp] <;> omega
    · have hle := limit_le_finite (hx.2.2.resolve_right (by omega)) (Int.not_le.mp he)
      cases s <;> simp only [clip, he, if_false, units, Sign.apply, clamp] <;> omega

theorem clip_ne_notANumber {x : UnpackedFloat} (hx : x ≠ .notANumber) : clip x ≠ .notANumber := by
  cases x with
  | notANumber => exact absurd rfl hx
  | finite s m e hm => by_cases he : e ≤ 971 <;> simp [clip, he]
  | _ => simp [clip]

theorem steps_sub {x y : Float} (hx : (value x).isFinite) (hy : (value y).isFinite) :
    IsNumber (x - y) ∧ steps (x - y) = clamp (roundSteps (steps x - steps y)) := by
  obtain ⟨hcanonical, hnumber, hunits⟩ :=
    sub_spec (canonical_value x).1 (canonical_value y).1 hx hy
  have hvalue : value (x - y) = clip (UnpackedFloat.sub Format.binary64 (value x) (value y)) :=
    unpack_pack hcanonical
  refine ⟨fun h => clip_ne_notANumber hnumber (hvalue.symm.trans h), ?_⟩
  rw [steps, hvalue, units_clip hcanonical, hunits]
  rfl

theorem sub_mono {x y z w : Float} (hx : (value x).isFinite) (hy : (value y).isFinite)
    (hz : (value z).isFinite) (hw : (value w).isFinite) (hxy : steps x ≤ steps y)
    (hwz : steps w ≤ steps z) : steps (x - z) ≤ steps (y - w) := by
  rw [(steps_sub hx hz).2, (steps_sub hy hw).2]
  exact clamp_mono (roundSteps_mono (Int.sub_le_sub hxy hwz))

end Binary64
end CutSelection
