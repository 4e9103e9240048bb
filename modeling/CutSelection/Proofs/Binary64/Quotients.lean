import Mathlib
import CutSelection.Proofs.Binary64.Graded

/-!
A comparison without a tolerance in double precision. The difference of two numbers is large enough,
compared with the larger magnitude, not to vanish when it is divided by it, and a quotient has the
sign of its numerator.
-/

namespace CutSelection
namespace Binary64

open Float.Model UnpackedFloat

theorem decode_neg (s : Sign) (e : BitVec 11) (m : BitVec 52) :
    decode (-s) e m = (decode s e m).neg := by
  rw [decode, decode]
  split
  · split <;> rfl
  · split
    · split <;> rfl
    · rfl

/-- Only the sign bit is changed, also if the number is not rounded. -/
theorem unpack_pack_neg (x : UnpackedFloat) :
    (Float.Model.pack x.neg).unpack = (Float.Model.pack x).unpack.neg := by
  change UnpackedFloat.unpack Format.binary64 (UnpackedFloat.pack Format.binary64 x.neg) =
    (UnpackedFloat.unpack Format.binary64 (UnpackedFloat.pack Format.binary64 x)).neg
  cases x with
  | notANumber => rfl
  | zero s => cases s <;> rfl
  | infinity s => cases s <;> rfl
  | finite s m e hm =>
    rw [UnpackedFloat.neg, UnpackedFloat.pack, UnpackedFloat.pack]
    dsimp only
    split
    · cases s <;> rfl
    · split <;> rw [unpack_packComponents, unpack_packComponents, decode_neg]

theorem neg_div (x y : UnpackedFloat) : UnpackedFloat.div Format.binary64 x.neg y =
    (UnpackedFloat.div Format.binary64 x y).neg := by
  have hsign : ∀ s s' : Sign, -s / s' = -(s / s') := fun s s' => by cases s <;> cases s' <;> rfl
  cases x with
  | finite s m e hm =>
    cases y with
    | finite s' n f hn =>
      simp only [UnpackedFloat.neg, UnpackedFloat.div, hsign, roundWithAccuracy]
      split <;> rfl
    | _ => simp only [UnpackedFloat.neg, UnpackedFloat.div, hsign]
  | _ => cases y <;> simp only [UnpackedFloat.neg, UnpackedFloat.div, hsign]

theorem units_neg (x : UnpackedFloat) : units x.neg = -units x := by
  cases x with
  | notANumber => rfl
  | zero s => rfl
  | infinity s => exact apply_neg s _
  | finite s m e hm => exact apply_neg s _

def scale (x y : Float) : Float := Scalar.maximum (Scalar.maximum (Scalar.abs x) (Scalar.abs y)) 1

theorem divisor_scale (x y : Float) : Divisor (value (scale x y)) :=
  divisor_maximum (divisor_maximum (divisor_abs x) (divisor_abs y)) rfl

theorem value_relativeDifference_eq (x y : Float) : value (relativeDifference x y) =
    (Float.Model.pack (UnpackedFloat.div Format.binary64 (value (x - y))
      (value (scale x y)))).unpack := rfl

theorem steps_relativeDifference_nonpos {x y : Float} (h : steps (x - y) ≤ 0) :
    steps (relativeDifference x y) ≤ 0 := by
  have hneg : Unsigned (value (x - y)).neg := by
    refine unsigned_of_units_nonneg ?_
    rw [units_neg]
    exact Int.neg_nonneg_of_nonpos h
  have hunsigned := unsigned_unpack_pack (unsigned_div hneg (divisor_scale x y))
  rw [neg_div, unpack_pack_neg, ← value_relativeDifference_eq] at hunsigned
  have hnonneg := units_nonneg hunsigned
  rw [units_neg] at hnonneg
  exact Int.nonpos_of_neg_nonneg hnonneg

theorem mantissa_shiftRight (em : ExtendedMantissa) (k : Nat) :
    (em >>> k).mantissa = em.mantissa / 2 ^ k := by
  change (k.repeat ExtendedMantissa.shiftRightOne em).mantissa = _
  induction k with
  | zero => simp [Nat.repeat]
  | succ k ih =>
    rw [Nat.repeat, ExtendedMantissa.shiftRightOne, ih, Nat.div_div_eq_div_mul, Nat.pow_succ]

theorem mantissa_ofMantissaAndAccuracy (m : Nat) (accuracy : Accuracy) :
    (ExtendedMantissa.ofMantissaAndAccuracy m accuracy).mantissa = m := by
  cases accuracy with
  | exact => rfl
  | inexact o => cases o <;> rfl

theorem roundedMantissa_bounds (em : ExtendedMantissa) :
    em.mantissa ≤ em.roundedMantissa ∧ em.roundedMantissa ≤ em.mantissa + 1 := by
  rw [roundedMantissa_eq, roundQuarters, quarters]
  have hr := Bool.toNat_le em.roundBit
  have hs := Bool.toNat_le em.stickyBit
  split
  · omega
  · split <;> omega

/-- A number that is not below the smallest subnormal one keeps a digit. -/
theorem roundWithAccuracy_eq_finite (s : Sign) {m : Nat} {e : Int} (hm : m ≠ 0)
    (h : -1074 ≤ m.log2 + e) (he : e ≤ max (m.log2 + e - 52) (-1074)) (accuracy : Accuracy) :
    ∃ n f hn, roundWithAccuracy Format.binary64 s m e accuracy = .finite s n f hn ∧
      Canonical (.finite s n f hn) := by
  generalize ht : max (m.log2 + e - 52 : Int) (-1074) = t at he
  obtain ⟨hlow, hhigh⟩ := roundedMantissa_bounds
    (ExtendedMantissa.ofMantissaAndAccuracy m accuracy >>> (t - e).toNat)
  have hround := roundWithAccuracy_eq_assemble s ht he accuracy
  rw [mantissa_shiftRight, mantissa_ofMantissaAndAccuracy] at hlow hhigh
  generalize (ExtendedMantissa.ofMantissaAndAccuracy m accuracy >>> (t - e).toNat).roundedMantissa =
    r at hlow hhigh hround
  have hlt : m / 2 ^ (t - e).toNat < 2 ^ 53 := by
    refine (Nat.div_lt_iff_lt_mul (Nat.two_pow_pos _)).mpr ?_
    rw [← Nat.pow_add]
    exact (Nat.log2_lt hm).mp (by omega)
  have hpos : 0 < m / 2 ^ (t - e).toNat :=
    Nat.div_pos ((Nat.le_log2 hm).mp (by omega)) (Nat.two_pow_pos _)
  have hnormal : 2 ^ 52 ≤ r ∨ t = -1074 := by
    by_cases hmin : t = -1074
    · exact .inr hmin
    · refine .inl (Nat.le_trans ((Nat.le_div_iff_mul_le (Nat.two_pow_pos _)).mpr ?_) hlow)
      rw [← Nat.pow_add]
      exact (Nat.le_log2 hm).mp (by omega)
  have hcanonical := canonical_assemble s (r := r) (e := t) (by omega) (by omega) hnormal
  rw [hround (by omega)]
  rw [assemble, dif_neg (by omega)] at hcanonical ⊢
  split at hcanonical <;> rename_i hr
  · rw [if_pos hr]
    exact ⟨_, _, _, rfl, hcanonical⟩
  · rw [if_neg hr]
    exact ⟨_, _, _, rfl, hcanonical⟩

theorem log2_div {m n : Nat} (hn : n ≠ 0) (h : n.log2 < m.log2) :
    m / n ≠ 0 ∧ m.log2 - n.log2 - 1 ≤ (m / n).log2 := by
  have hm : m ≠ 0 := by
    rintro rfl
    simp at h
  have hle : 2 ^ (m.log2 - n.log2 - 1) ≤ m / n := by
    refine (Nat.le_div_iff_mul_le (Nat.pos_of_ne_zero hn)).mpr ?_
    calc 2 ^ (m.log2 - n.log2 - 1) * n ≤ 2 ^ (m.log2 - n.log2 - 1) * 2 ^ (n.log2 + 1) :=
          Nat.mul_le_mul_left _ (Nat.le_of_lt Nat.lt_log2_self)
      _ = 2 ^ m.log2 := by
          rw [← Nat.pow_add]
          congr 1
          omega
      _ ≤ m := Nat.log2_self_le hm
  have hpos := Nat.lt_of_lt_of_le (Nat.two_pow_pos _) hle
  exact ⟨Nat.ne_of_gt hpos, (Nat.le_log2 (Nat.ne_of_gt hpos)).mpr hle⟩

/-- A quotient does not underflow if the denominator is not much larger than the numerator. -/
theorem div_eq_finite (s : Sign) {m n : Nat} {e f : Int} (hm : 0 < m) (hn : 0 < n)
    (h : (n.log2 + f : Int) ≤ m.log2 + e + 53) : ∃ m' e' hm',
      UnpackedFloat.div Format.binary64 (.finite s m e hm) (.finite .positive n f hn) =
        .finite s m' e' hm' ∧ Canonical (.finite s m' e' hm') := by
  have hsign : s / .positive = s := by cases s <;> rfl
  rw [UnpackedFloat.div, divCore]
  dsimp only
  generalize ht : min (e - f) (Format.binary64.targetExponent
    (totalExponent m e - totalExponent n f)) = t
  simp only [Format.targetExponent, totalExponent, Format.mantissaBits, Format.minExponent] at ht
  have hlog := log2_mul_two_pow (Nat.ne_of_gt hm) (e - f - t).toNat
  obtain ⟨hne, hle⟩ := log2_div (m := m * 2 ^ (e - f - t).toNat) (Nat.ne_of_gt hn) (by omega)
  rw [hsign, Nat.shiftLeft_eq]
  exact roundWithAccuracy_eq_finite s hne (by omega) (by omega) _

/-- The numbers below a normal one keep at least half of its last digit away from it. -/
theorem spacing {z : UnpackedFloat} (hz : Canonical z) (hfinite : z.isFinite) {n : Nat} {f : Int}
    (hn : 2 ^ 52 ≤ n) (hf : -1074 < f) (h : (units z).natAbs < n * 2 ^ (f + 1074).toNat) :
    (units z).natAbs + 2 ^ (f + 1073).toNat ≤ n * 2 ^ (f + 1074).toNat := by
  have hpow : n * 2 ^ (f + 1074).toNat = 2 * n * 2 ^ (f + 1073).toNat := by
    rw [show (f + 1074).toNat = (f + 1073).toNat + 1 by omega, Nat.pow_succ]
    ac_rfl
  rw [hpow] at h ⊢
  cases z with
  | infinity s => cases hfinite
  | notANumber => cases hfinite
  | zero s =>
    rw [show (units (.zero s)).natAbs = 0 from rfl, Nat.zero_add]
    exact Nat.le_mul_of_pos_left _ (by omega)
  | finite s m e hm =>
    rw [units, natAbs_apply] at h ⊢
    by_cases he : f - 1 ≤ e
    · -- both are multiples of half of the last digit
      have hm' : m * 2 ^ (e + 1074).toNat = m * 2 ^ (e - (f - 1)).toNat * 2 ^ (f + 1073).toNat := by
        rw [show (e + 1074).toNat = (e - (f - 1)).toNat + (f + 1073).toNat by omega, Nat.pow_add]
        ac_rfl
      rw [hm'] at h ⊢
      rw [← Nat.succ_mul]
      exact Nat.mul_le_mul_right _ (Nat.lt_of_mul_lt_mul_right h)
    · have hle : m * 2 ^ (e + 1074).toNat ≤ 2 ^ 52 * 2 ^ (f + 1073).toNat := by
        calc m * 2 ^ (e + 1074).toNat ≤ 2 ^ 53 * 2 ^ (e + 1074).toNat :=
              Nat.mul_le_mul_right _ (Nat.le_of_lt hz.1)
          _ = 2 ^ 52 * 2 ^ ((e + 1074).toNat + 1) := two_pow_mul_two_pow _
          _ ≤ 2 ^ 52 * 2 ^ (f + 1073).toNat :=
              Nat.mul_le_mul_left _ (Nat.pow_le_pow_right Nat.two_pos (by have := hz.2.1; omega))
      calc m * 2 ^ (e + 1074).toNat + 2 ^ (f + 1073).toNat
          ≤ 2 ^ 52 * 2 ^ (f + 1073).toNat + 2 ^ (f + 1073).toNat := Nat.add_le_add_right hle _
        _ = (2 ^ 52 + 1) * 2 ^ (f + 1073).toNat := (Nat.succ_mul _ _).symm
        _ ≤ 2 * n * 2 ^ (f + 1073).toNat := Nat.mul_le_mul_right _ (by omega)

/-- Two different numbers are at least half of the last digit of the larger magnitude apart. -/
theorem spacing_le_sub {x y : UnpackedFloat} (hx : Canonical x) (hy : Canonical y)
    (hxf : x.isFinite) (hyf : y.isFinite) (hlt : units y < units x) {n : Nat} {f : Int}
    (hn : 2 ^ 52 ≤ n) (hf : -1074 < f)
    (h : max (units x).natAbs (units y).natAbs = n * 2 ^ (f + 1074).toNat) :
    (2 ^ (f + 1073).toNat : Nat) ≤ units x - units y := by
  have hunit : 2 ^ (f + 1073).toNat ≤ n * 2 ^ (f + 1074).toNat :=
    Nat.le_trans (Nat.pow_le_pow_right Nat.two_pos (by omega))
      (Nat.le_mul_of_pos_left _ (by omega))
  by_cases hpos : 0 < units y
  · have := spacing hy hyf hn hf (by omega)
    omega
  · by_cases hneg : units x < 0
    · have := spacing hx hxf hn hf (by omega)
      omega
    · omega

theorem natAbs_steps_le (x : Float) : (steps x).natAbs ≤ limit := by
  have hlimit := limit_pos
  have hx := canonical_value x
  rw [steps]
  cases hv : value x with
  | notANumber => exact Nat.zero_le _
  | zero s => exact Nat.zero_le _
  | infinity s => rw [units, natAbs_apply]
  | finite s m e hm =>
    rw [hv] at hx
    rw [units, natAbs_apply]
    exact Nat.le_of_lt (units_finite_bounds hx).2

theorem isFinite_iff_steps {x : Float} :
    (value x).isFinite ↔ IsNumber x ∧ (steps x).natAbs < limit := by
  have hlimit := limit_pos
  have hx := canonical_value x
  rw [IsNumber, steps]
  cases hv : value x with
  | notANumber => exact iff_of_false (by simp [UnpackedFloat.isFinite]) fun h => h.1 rfl
  | infinity s =>
    rw [units, natAbs_apply]
    exact iff_of_false (by simp [UnpackedFloat.isFinite]) fun h => Nat.lt_irrefl _ h.2
  | zero s => exact iff_of_true rfl ⟨by simp, hlimit⟩
  | finite s m e hm =>
    rw [hv] at hx
    rw [units, natAbs_apply]
    exact iff_of_true rfl ⟨by simp, (units_finite_bounds hx).2⟩

theorem isNumber_abs {x : Float} (h : IsNumber x) : IsNumber (Scalar.abs x) := by
  rw [IsNumber, value_abs]
  cases hv : value x with
  | notANumber => exact absurd hv h
  | _ => simp [UnpackedFloat.abs]

theorem maximum_spec {x y : Float} (hx : IsNumber x) (hy : IsNumber y) :
    IsNumber (Scalar.maximum x y) ∧ steps (Scalar.maximum x y) = max (steps x) (steps y) := by
  rw [Scalar.maximum]
  by_cases h : x < y
  · have hlt := (lt_iff.mp h).2.2
    rw [if_pos h]
    exact ⟨hy, by omega⟩
  · have hle := (le_iff.mp (le_of_not_lt hx hy h)).2.2
    rw [if_neg h, if_pos (le_iff.mpr ⟨hx, hx, Int.le_refl _⟩)]
    exact ⟨hx, by omega⟩

theorem steps_scale {x y : Float} (hx : IsNumber x) (hy : IsNumber y) :
    steps (scale x y) = max ((max (steps x).natAbs (steps y).natAbs : Nat) : Int) (steps 1) := by
  obtain ⟨hnumber, hsteps⟩ := maximum_spec (isNumber_abs hx) (isNumber_abs hy)
  rw [scale, (maximum_spec hnumber isNumber_one).2, hsteps, steps_abs, steps_abs]
  omega

theorem eq_of_units_pos {x : UnpackedFloat} (h : 0 < units x) :
    x = .infinity .positive ∨ ∃ m e hm, x = .finite .positive m e hm := by
  cases x with
  | notANumber => exact absurd h (Int.lt_irrefl 0)
  | zero s => exact absurd h (Int.lt_irrefl 0)
  | infinity s =>
    cases s with
    | positive => exact .inl rfl
    | negative =>
      simp only [units, Sign.apply] at h
      omega
  | finite s m e hm =>
    cases s with
    | positive => exact .inr ⟨m, e, hm, rfl⟩
    | negative =>
      simp only [units, Sign.apply] at h
      omega

theorem natCast_lt_steps_one {m : Nat} (hm : m < 2 ^ 53) : (m : Int) < steps 1 := by
  have h := finite_lt_finite (e := -1074) (f := -52) hm (Int.le_refl _) (.inl (Nat.le_refl _))
    (by decide)
  rw [show (-1074 + 1074 : Int).toNat = 0 from rfl, Nat.pow_zero, Nat.mul_one] at h
  rw [steps, value_one, units, Sign.apply]
  generalize 2 ^ 52 * 2 ^ (-52 + 1074 : Int).toNat = one at h ⊢
  exact Int.ofNat_lt.mpr h

theorem value_of_one_le {x : Float} (hx : (value x).isFinite) (h : steps 1 ≤ steps x) :
    ∃ n f hn, value x = .finite .positive n f hn ∧ 2 ^ 52 ≤ n ∧ -1074 < f ∧
      steps x = (n * 2 ^ (f + 1074).toNat : Nat) := by
  have hcanonical := (canonical_value x).1
  have hpos : 0 < steps x := Int.lt_of_lt_of_le (natCast_lt_steps_one (Nat.two_pow_pos _)) h
  rw [steps] at hpos
  rcases eq_of_units_pos hpos with hv | ⟨n, f, hn, hv⟩
  · rw [hv] at hx
    cases hx
  have hsteps : steps x = (n * 2 ^ (f + 1074).toNat : Nat) := by
    rw [steps, hv]
    rfl
  rw [hv] at hcanonical
  obtain ⟨hlt, hmin, hnormal⟩ := hcanonical
  have hf : f ≠ -1074 := by
    rintro rfl
    rw [show (-1074 + 1074 : Int).toNat = 0 from rfl, Nat.pow_zero, Nat.mul_one] at hsteps
    have := natCast_lt_steps_one hlt
    omega
  exact ⟨n, f, hn, hv, hnormal.resolve_right hf, by omega, hsteps⟩

/-- A difference is divided by one or by the larger magnitude, which is then a normal number. -/
theorem value_scale {x y : Float} (hx : (value x).isFinite) (hy : (value y).isFinite) :
    value (scale x y) = value 1 ∨ ∃ n f hn, value (scale x y) = .finite .positive n f hn ∧
      2 ^ 52 ≤ n ∧ -1074 < f ∧
        max (steps x).natAbs (steps y).natAbs = n * 2 ^ (f + 1074).toNat := by
  obtain ⟨hxn, hx⟩ := isFinite_iff_steps.mp hx
  obtain ⟨hyn, hy⟩ := isFinite_iff_steps.mp hy
  obtain ⟨hnumber, hsteps⟩ := maximum_spec (isNumber_abs hxn) (isNumber_abs hyn)
  rw [steps_abs, steps_abs] at hsteps
  rw [scale, Scalar.maximum]
  generalize Scalar.maximum (Scalar.abs x) (Scalar.abs y) = a at hnumber hsteps
  by_cases h : a < 1
  · exact .inl (by rw [if_pos h])
  rw [if_neg h, if_pos (le_iff.mpr ⟨hnumber, hnumber, Int.le_refl _⟩)]
  have hone := (le_iff.mp (le_of_not_lt hnumber isNumber_one h)).2.2
  obtain ⟨n, f, hn, hv, hnormal, hf, heq⟩ :=
    value_of_one_le (isFinite_iff_steps.mpr ⟨hnumber, by omega⟩) hone
  exact .inr ⟨n, f, hn, hv, hnormal, hf, by omega⟩

theorem roundSteps_of_pow (k : Nat) : roundSteps (2 ^ k : Nat) = (2 ^ k : Nat) := by
  have h := roundUnits_of_fits (m := 1) (by decide) k
  rw [Nat.one_mul] at h
  rw [roundSteps, if_pos (Int.natCast_nonneg _), Int.toNat_natCast, h]

theorem steps_sub_pos {x y : Float} (hx : (value x).isFinite) (hy : (value y).isFinite)
    (h : steps y < steps x) : 0 < steps (x - y) := by
  have hlimit := limit_pos
  have hround := roundSteps_mono (m := (2 ^ 0 : Nat)) (n := steps x - steps y) (by simp; omega)
  rw [roundSteps_of_pow, Nat.pow_zero] at hround
  rw [(steps_sub hx hy).2, clamp]
  omega

theorem two_pow_le_of_sub {x y : Float} (hx : (value x).isFinite) (hy : (value y).isFinite)
    (h : steps y < steps x) {n : Nat} {f : Int} (hn : 2 ^ 52 ≤ n) (hf : -1074 < f)
    (hmax : max (steps x).natAbs (steps y).natAbs = n * 2 ^ (f + 1074).toNat) {m : Nat} {e : Int}
    {hm : 0 < m} (hv : value (x - y) = .finite .positive m e hm) :
    2 ^ (f + 1073).toNat ≤ m * 2 ^ (e + 1074).toNat := by
  have hspacing : (2 ^ (f + 1073).toNat : Nat) ≤ steps x - steps y :=
    spacing_le_sub (canonical_value x).1 (canonical_value y).1 hx hy h hn hf hmax
  have hround := roundSteps_mono hspacing
  rw [roundSteps_of_pow] at hround
  have hbounds := canonical_value (x - y)
  rw [hv] at hbounds
  have hlt := (units_finite_bounds hbounds).2
  have hsteps : units (value (x - y)) = clamp (roundSteps (steps x - steps y)) :=
    (steps_sub hx hy).2
  -- the difference has not been cut off
  rw [hv, clamp] at hsteps
  simp only [units, Sign.apply] at hsteps
  omega

/-- A difference between finite numbers is not lost when it is divided. -/
theorem steps_relativeDifference_pos {x y : Float} (hx : (value x).isFinite)
    (hy : (value y).isFinite) (h : steps y < steps x) :
    IsNumber (relativeDifference x y) ∧ 0 < steps (relativeDifference x y) := by
  have hlimit := limit_pos
  have hpos := steps_sub_pos hx hy h
  have hcanonical := canonical_value (x - y)
  rw [IsNumber, steps, value_relativeDifference_eq]
  rcases value_scale hx hy with hscale | ⟨n, f, hn, hscale, hn52, hf, hmax⟩
  · rw [hscale, value_one, div_one hcanonical.1, unpack_pack_of_inRange hcanonical]
    exact ⟨(steps_sub hx hy).1, hpos⟩
  rw [hscale]
  rcases eq_of_units_pos hpos with hv | ⟨m, e, hm, hv⟩
  · have hdiv : UnpackedFloat.div Format.binary64 (.infinity .positive)
        (.finite .positive n f hn) = .infinity .positive := rfl
    rw [hv, hdiv, unpack_pack (f := .infinity .positive) trivial]
    exact ⟨by simp [clip], by simp only [clip, units, Sign.apply]; omega⟩
  · have hle := two_pow_le_of_sub hx hy h hn52 hf hmax hv
    have hn53 : n.log2 < 53 := by
      have hdenominator := canonical_value (scale x y)
      rw [hscale] at hdenominator
      exact (Nat.log2_lt (Nat.ne_of_gt hn)).mpr hdenominator.1.1
    rw [hv] at hcanonical
    have hmin := hcanonical.1.2.1
    have hlog := (Nat.le_log2 (Nat.ne_of_gt (units_finite_bounds hcanonical).1)).mpr hle
    rw [log2_mul_two_pow (Nat.ne_of_gt hm)] at hlog
    obtain ⟨m', e', hm', hdiv, hquotient⟩ := div_eq_finite .positive (e := e) (f := f) hm hn
      (by omega)
    rw [hv, hdiv, unpack_pack hquotient]
    refine ⟨clip_ne_notANumber (by simp), ?_⟩
    rw [units_clip hquotient, clamp]
    have := Nat.mul_pos hm' (Nat.two_pow_pos (e' + 1074).toNat)
    simp only [units, Sign.apply]
    omega

theorem value_eq_infinity {x : Float} (h : steps x = limit) : value x = .infinity .positive := by
  have hpos : 0 < steps x := h ▸ Int.natCast_pos.mpr limit_pos
  rcases eq_of_units_pos hpos with hv | ⟨m, e, hm, hv⟩
  · exact hv
  · have hbounds := canonical_value x
    rw [hv] at hbounds
    have hlt := (units_finite_bounds hbounds).2
    rw [steps, hv, units, Sign.apply] at h
    omega

theorem value_scale_of_not_isFinite {x y : Float} (hx : IsNumber x) (hy : IsNumber y)
    (h : ¬((value x).isFinite ∧ (value y).isFinite)) : value (scale x y) = .infinity .positive := by
  refine value_eq_infinity ?_
  rw [isFinite_iff_steps, isFinite_iff_steps] at h
  have hxl := natAbs_steps_le x
  have hyl := natAbs_steps_le y
  have hone := natAbs_steps_le 1
  rw [steps_scale hx hy]
  by_cases hlt : (steps x).natAbs < limit
  · have hylt : ¬(steps y).natAbs < limit := fun hlt' => h ⟨⟨hx, hlt⟩, hy, hlt'⟩
    omega
  · omega

theorem sub_of_not_isFinite {x y : UnpackedFloat} (h : ¬(x.isFinite ∧ y.isFinite)) :
    UnpackedFloat.sub Format.binary64 x y = .notANumber ∨
      ∃ s, UnpackedFloat.sub Format.binary64 x y = .infinity s := by
  cases x <;> cases y <;> simp [UnpackedFloat.isFinite] at h <;>
    simp only [UnpackedFloat.sub, reduceCtorEq, UnpackedFloat.infinity.injEq, exists_eq', false_or,
      true_or]
  split <;> simp

/-- A difference with an infinity is not comparable with the infinity that it is divided by. -/
theorem isFinite_of_isNumber_relativeDifference {x y : Float}
    (h : IsNumber (relativeDifference x y)) : (value x).isFinite ∧ (value y).isFinite := by
  have hnan : (Float.Model.pack .notANumber).unpack = .notANumber :=
    unpack_pack (f := .notANumber) trivial
  have hvalue : value (x - y) =
    (Float.Model.pack (UnpackedFloat.sub Format.binary64 (value x) (value y))).unpack := rfl
  have hquotient := value_relativeDifference_eq x y
  have hsub : value (x - y) ≠ .notANumber := fun hv => h (by
    rw [hquotient, hv]
    cases value (scale x y) <;> exact hnan)
  have hxn : IsNumber x := fun hx => hsub (by
    rw [hvalue, hx]
    cases value y <;> exact hnan)
  have hyn : IsNumber y := fun hy => hsub (by
    rw [hvalue, hy]
    cases value x <;> exact hnan)
  by_contra hfinite
  obtain ⟨s, hs⟩ := (sub_of_not_isFinite hfinite).resolve_left fun hs =>
    hsub (by rw [hvalue, hs, hnan])
  have hinfinite : value (x - y) = .infinity s := by
    rw [hvalue, hs]
    exact unpack_pack (f := .infinity s) trivial
  refine h ?_
  rw [hquotient, hinfinite, value_scale_of_not_isFinite hxn hyn hfinite]
  exact hnan

end Binary64
end CutSelection
