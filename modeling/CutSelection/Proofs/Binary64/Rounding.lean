import Mathlib
import CutSelection.Binary64

/-!
Rounding to double precision, in natural numbers. A significand and its two residual bits make up a
number of quarters, and a shift to the right is a function on such numbers that keeps their order.
So rounding keeps the order of any two multiples of the smallest subnormal number.
-/

namespace CutSelection
namespace Binary64

open Float.Model UnpackedFloat

/-- A mantissa with its residual bits: the second one stands for all that is left. -/
def quarters (em : ExtendedMantissa) : Nat :=
  4 * em.mantissa + 2 * em.roundBit.toNat + em.stickyBit.toNat

def halve (c : Nat) : Nat := 2 * (c / 4) + min (c % 4) 1

/-- To the nearest integer, and to the even one from halfway. -/
def roundQuarters (c : Nat) : Nat :=
  if c % 4 < 2 then c / 4 else if c % 4 = 2 then c / 4 + c / 4 % 2 else c / 4 + 1

def nearest (n k : Nat) : Nat := roundQuarters (k.repeat halve (4 * n))

theorem quarters_shiftRightOne (em : ExtendedMantissa) :
    quarters em.shiftRightOne = halve (quarters em) := by
  have h2 : em.mantissa % 2 = 0 ∨ em.mantissa % 2 = 1 := by omega
  rcases em with ⟨m, r, s⟩
  rcases h2 with h2 | h2 <;> cases r <;> cases s <;>
    simp [quarters, halve, ExtendedMantissa.shiftRightOne] at * <;> simp [h2] <;> omega

theorem quarters_shiftRight (em : ExtendedMantissa) (k : Nat) :
    quarters (em >>> k) = k.repeat halve (quarters em) := by
  change quarters (k.repeat ExtendedMantissa.shiftRightOne em) = _
  induction k with
  | zero => rfl
  | succ k ih => rw [Nat.repeat, Nat.repeat, quarters_shiftRightOne, ih]

theorem roundedMantissa_eq (em : ExtendedMantissa) :
    em.roundedMantissa = roundQuarters (quarters em) := by
  rcases em with ⟨m, r, s⟩
  rw [roundQuarters, quarters]
  cases r <;> cases s <;>
    simp only [ExtendedMantissa.roundedMantissa, ExtendedMantissa.accuracy,
      Accuracy.roundToNearestEven, Bool.toNat_false, Bool.toNat_true] <;>
    split <;> (try split) <;> omega

theorem roundedMantissa_exact (m k : Nat) :
    (ExtendedMantissa.ofMantissaAndAccuracy m .exact >>> k).roundedMantissa = nearest m k := by
  rw [roundedMantissa_eq, quarters_shiftRight]
  rfl

theorem halve_mono {c d : Nat} (h : c ≤ d) : halve c ≤ halve d := by
  simp only [halve]
  omega

theorem roundQuarters_mono {c d : Nat} (h : c ≤ d) : roundQuarters c ≤ roundQuarters d := by
  simp only [roundQuarters]
  split <;> split <;> (try split) <;> (try split) <;> omega

theorem nearest_mono {m n : Nat} (h : m ≤ n) (k : Nat) : nearest m k ≤ nearest n k := by
  refine roundQuarters_mono ?_
  induction k with
  | zero => exact Nat.mul_le_mul_left 4 h
  | succ k ih => exact halve_mono ih

/-- Trailing zeros are shifted out without a trace. -/
theorem nearest_mul_two_pow (m j k : Nat) : nearest (m * 2 ^ j) (j + k) = nearest m k := by
  have hj : ∀ m, j.repeat halve (4 * (m * 2 ^ j)) = 4 * m := by
    induction j with
    | zero => simp [Nat.repeat]
    | succ j ih =>
      intro m
      have hm : m * 2 ^ (j + 1) = 2 * m * 2 ^ j := by rw [Nat.pow_succ]; ac_rfl
      rw [Nat.repeat, hm, ih]
      rw [halve]
      omega
  rw [nearest]
  congr 1
  induction k with
  | zero => exact hj m
  | succ k ih => rw [← Nat.add_assoc, Nat.repeat, Nat.repeat, ih]

@[simp] theorem nearest_zero (n : Nat) : nearest n 0 = n := by
  simp [nearest, roundQuarters, Nat.repeat]

theorem nearest_mul_two_pow_self (m k : Nat) : nearest (m * 2 ^ k) k = m := by
  simpa using nearest_mul_two_pow m k 0

def excess (n : Nat) : Nat := n.log2 - 52

def roundUnits (n : Nat) : Nat := nearest n (excess n) * 2 ^ excess n

theorem lt_of_excess (n : Nat) : n < 2 ^ 53 * 2 ^ excess n := by
  by_cases hn : n = 0
  · simp [hn]
  · rw [← Nat.pow_add, ← Nat.log2_lt hn]
    rw [excess]
    omega

theorem le_of_excess_pos {n : Nat} (h : 0 < excess n) : 2 ^ 52 * 2 ^ excess n ≤ n := by
  rw [excess] at h ⊢
  have hn : n ≠ 0 := by
    rintro rfl
    simp at h
  rw [← Nat.pow_add, ← Nat.le_log2 hn]
  omega

theorem excess_mono {m n : Nat} (h : m ≤ n) : excess m ≤ excess n := by
  by_cases hm : m = 0
  · simp [hm, excess]
  · have hlog : m.log2 ≤ n.log2 :=
      (Nat.le_log2 (by omega)).mpr (Nat.le_trans (Nat.log2_self_le hm) h)
    simp only [excess]
    omega

theorem nearest_le (n : Nat) : nearest n (excess n) ≤ 2 ^ 53 := by
  have h := nearest_mono (Nat.le_of_lt (lt_of_excess n)) (excess n)
  rwa [nearest_mul_two_pow_self] at h

theorem le_nearest {n : Nat} (he : 0 < excess n) : 2 ^ 52 ≤ nearest n (excess n) := by
  have h := nearest_mono (le_of_excess_pos he) (excess n)
  rwa [nearest_mul_two_pow_self] at h

theorem two_pow_mul_two_pow (k : Nat) : 2 ^ 53 * 2 ^ k = 2 ^ 52 * 2 ^ (k + 1) := by
  rw [← Nat.pow_add, ← Nat.pow_add]
  congr 1
  omega

theorem roundUnits_mono {m n : Nat} (h : m ≤ n) : roundUnits m ≤ roundUnits n := by
  rw [roundUnits]
  by_cases he : excess m = excess n
  · rw [he]
    exact Nat.mul_le_mul_right _ (nearest_mono h _)
  · have hlt : excess m < excess n := Nat.lt_of_le_of_ne (excess_mono h) he
    -- a power of two lies between the two numbers
    calc nearest m (excess m) * 2 ^ excess m ≤ 2 ^ 53 * 2 ^ excess m :=
          Nat.mul_le_mul_right _ (nearest_le m)
      _ = 2 ^ 52 * 2 ^ (excess m + 1) := two_pow_mul_two_pow _
      _ ≤ 2 ^ 52 * 2 ^ excess n :=
          Nat.mul_le_mul_left _ (Nat.pow_le_pow_right Nat.two_pos hlt)
      _ ≤ nearest n (excess n) * 2 ^ excess n := Nat.mul_le_mul_right _ (le_nearest (by omega))

theorem log2_mul_two_pow {m : Nat} (hm : m ≠ 0) (k : Nat) : (m * 2 ^ k).log2 = m.log2 + k := by
  induction k with
  | zero => simp
  | succ k ih =>
    have hk : m * 2 ^ (k + 1) = 2 * (m * 2 ^ k) := by rw [Nat.pow_succ]; ac_rfl
    have h0 : m * 2 ^ k ≠ 0 := Nat.mul_ne_zero hm (Nat.pos_iff_ne_zero.mp (Nat.two_pow_pos k))
    rw [hk, Nat.log2_two_mul h0, ih]
    rfl

theorem roundUnits_of_fits {m : Nat} (hm : m < 2 ^ 53) (k : Nat) :
    roundUnits (m * 2 ^ k) = m * 2 ^ k := by
  by_cases h0 : m = 0
  · simp [h0, roundUnits, excess]
  · have hlog := (Nat.log2_lt h0 (k := 53)).mpr hm
    have hk : excess (m * 2 ^ k) ≤ k := by
      rw [excess]
      rw [log2_mul_two_pow h0]
      omega
    have hsplit : m * 2 ^ k = m * 2 ^ (k - excess (m * 2 ^ k)) * 2 ^ excess (m * 2 ^ k) := by
      rw [Nat.mul_assoc, ← Nat.pow_add, Nat.sub_add_cancel hk]
    rw [roundUnits]
    generalize excess (m * 2 ^ k) = j at hsplit ⊢
    rw [hsplit, nearest_mul_two_pow_self]

/-- Numbers as they are stored: the exponent is the smallest one for which the significand fits. -/
def Canonical : UnpackedFloat → Prop
  | .finite _ m e _ => m < 2 ^ 53 ∧ -1074 ≤ e ∧ (2 ^ 52 ≤ m ∨ e = -1074)
  | _ => True

/-- The smallest power of two that is too large, as a multiple of the smallest subnormal number. -/
def limit : Nat := 2 ^ 52 * 2 ^ (972 + 1074 : Int).toNat

theorem limit_pos : 0 < limit := Nat.mul_pos (Nat.two_pow_pos _) (Nat.two_pow_pos _)

/-- A number as a multiple of the smallest subnormal one, where infinity comes next to the largest
finite number. -/
def units : UnpackedFloat → Int
  | .finite s m e _ => s.apply (m * 2 ^ (e + 1074).toNat : Nat)
  | .infinity s => s.apply limit
  | _ => 0

/-- A number with a rounded significand, which may need one more bit. -/
def assemble (s : Sign) (r : Nat) (e : Int) : UnpackedFloat :=
  if h : r = 0 then .zero s
  else if r = 2 ^ 53 then .finite s (2 ^ 52) (e + 1) (Nat.two_pow_pos _)
  else .finite s r e (Nat.pos_of_ne_zero h)

theorem canonical_assemble (s : Sign) {r : Nat} {e : Int} (hr : r ≤ 2 ^ 53) (he : -1074 ≤ e)
    (hn : 2 ^ 52 ≤ r ∨ e = -1074) : Canonical (assemble s r e) := by
  rw [assemble]
  split
  · trivial
  · split
    · exact ⟨by decide, by omega, .inl (Nat.le_refl _)⟩
    · exact ⟨by omega, he, hn⟩

theorem assemble_ne_notANumber (s : Sign) (r : Nat) (e : Int) :
    assemble s r e ≠ .notANumber := by
  rw [assemble]
  split
  · simp
  · split <;> simp

theorem units_assemble (s : Sign) (r : Nat) {e : Int} (he : -1074 ≤ e) :
    units (assemble s r e) = s.apply (r * 2 ^ (e + 1074).toNat : Nat) := by
  rw [assemble]
  split
  · rename_i h
    subst h
    cases s <;> simp [units, Sign.apply]
  · split
    · rename_i h
      subst h
      have hk : (e + 1 + 1074).toNat = (e + 1074).toNat + 1 := by omega
      simp only [units, hk]
      congr 2
      rw [Nat.pow_succ]
      omega
    · rfl

theorem targetExponent_eq (m : Nat) (e : Int) :
    Format.binary64.targetExponent (totalExponent m e) = max (m.log2 + e - 52) (-1074) := by
  simp only [Format.targetExponent, totalExponent, Format.mantissaBits, Format.minExponent]
  omega

theorem shiftToTargetExponent_eq {m : Nat} {e t : Int} (ht : max (m.log2 + e - 52) (-1074) = t)
    (he : e ≤ t) (accuracy : Accuracy) : shiftToTargetExponent Format.binary64 m e accuracy =
      (ExtendedMantissa.ofMantissaAndAccuracy m accuracy >>> (t - e).toNat, t) := by
  simp only [shiftToTargetExponent, shiftToExponent, targetExponent_eq, ht]
  congr 1
  omega

theorem shiftToTargetExponent_of_fits {m : Nat} {e : Int}
    (h : max (m.log2 + e - 52) (-1074) ≤ e) : shiftToTargetExponent Format.binary64 m e .exact =
      (ExtendedMantissa.ofMantissaAndAccuracy m .exact, e) := by
  have hk : (max (m.log2 + e - 52) (-1074) - e).toNat = 0 := by omega
  simp only [shiftToTargetExponent, shiftToExponent, targetExponent_eq, hk, Int.natCast_zero,
    Int.add_zero]
  rfl

/-- Rounding shifts once to the right, and once more if the significand got too long. -/
theorem roundWithAccuracy_eq_assemble (s : Sign) {m : Nat} {e t : Int}
    (ht : max (m.log2 + e - 52) (-1074) = t) (he : e ≤ t) (accuracy : Accuracy)
    (hr : (ExtendedMantissa.ofMantissaAndAccuracy m accuracy >>> (t - e).toNat).roundedMantissa ≤
      2 ^ 53) :
    roundWithAccuracy Format.binary64 s m e accuracy = assemble s
      (ExtendedMantissa.ofMantissaAndAccuracy m accuracy >>> (t - e).toNat).roundedMantissa t := by
  rw [roundWithAccuracy, assemble]
  rw [shiftToTargetExponent_eq ht he]
  dsimp only
  generalize (ExtendedMantissa.ofMantissaAndAccuracy m accuracy >>> (t - e).toNat).roundedMantissa =
    r at hr ⊢
  by_cases hr' : r = 2 ^ 53
  · have hlog : r.log2 = 53 := by rw [hr', Nat.log2_two_pow]
    have hk : (t + 1 - t).toNat = 1 := by omega
    rw [shiftToTargetExponent_eq (t := t + 1) (by omega) (by omega), hk]
    subst hr'
    rfl
  · have hlog : r.log2 ≤ 52 := by
      by_cases h0 : r = 0
      · simp [h0]
      · have hlt := (Nat.log2_lt h0 (k := 53)).mpr (by omega)
        omega
    rw [shiftToTargetExponent_of_fits (by omega)]
    simp only [hr', if_false]
    rfl

theorem roundWithAccuracy_eq (s : Sign) {m : Nat} {e t : Int}
    (ht : max (m.log2 + e - 52) (-1074) = t) (he : e ≤ t) (hr : nearest m (t - e).toNat ≤ 2 ^ 53) :
    roundWithAccuracy Format.binary64 s m e .exact = assemble s (nearest m (t - e).toNat) t := by
  rw [← roundedMantissa_exact] at hr ⊢
  exact roundWithAccuracy_eq_assemble s ht he .exact hr

/-- A number is rounded as a multiple of the smallest subnormal one. -/
theorem round_eq (s : Sign) {m : Nat} {e : Int} (hm : m ≠ 0) (he : -1074 ≤ e) :
    let n := m * 2 ^ (e + 1074).toNat
    UnpackedFloat.round Format.binary64 s m e =
      assemble s (nearest n (excess n)) (excess n - 1074) := by
  intro n
  have hn : n.log2 = m.log2 + (e + 1074).toNat := log2_mul_two_pow hm _
  have ht : max (m.log2 + e - 52) (-1074) = (excess n : Int) - 1074 := by
    rw [excess]
    omega
  rw [UnpackedFloat.round, decreaseExponent]
  rw [targetExponent_eq, ht]
  dsimp only
  by_cases hle : e ≤ excess n - 1074
  · generalize hk : (excess n - 1074 - e).toNat = k
    have hj : (e - (excess n - 1074)).toNat = 0 := by omega
    have hexcess : excess n = (e + 1074).toNat + k := by omega
    have hnear : nearest n (excess n) = nearest m k := by
      rw [hexcess]
      exact nearest_mul_two_pow m _ k
    have hr := nearest_le n
    rw [hnear, ← hk] at hr
    rw [hj, Nat.shiftLeft_zero, Int.natCast_zero, Int.sub_zero, roundWithAccuracy_eq s ht hle hr,
      hnear, hk]
  · -- the significand has room at its end
    generalize hj : (e - (excess n - 1074)).toNat = j
    have he' : e - j = excess n - 1074 := by omega
    have hn' : n = m * 2 ^ j * 2 ^ excess n := by
      rw [Nat.mul_assoc, ← Nat.pow_add, show j + excess n = (e + 1074).toNat by omega]
    have hnear : nearest n (excess n) = m * 2 ^ j := by
      have hself := nearest_mul_two_pow_self (m * 2 ^ j) (excess n)
      rwa [← hn'] at hself
    have hr := nearest_le n
    have hlog : (m * 2 ^ j).log2 = m.log2 + j := log2_mul_two_pow hm j
    have ht' : max ((m * 2 ^ j).log2 + (e - j) - 52) (-1074) = e - j := by omega
    have hk : (e - j - (e - j)).toNat = 0 := by omega
    rw [Nat.shiftLeft_eq, roundWithAccuracy_eq s ht' (Int.le_refl _), hk, nearest_zero, hnear, he']
    rwa [hk, nearest_zero, ← hnear]

theorem round_spec (s : Sign) {m : Nat} {e : Int} (hm : m ≠ 0) (he : -1074 ≤ e) :
    let x := UnpackedFloat.round Format.binary64 s m e
    Canonical x ∧ x ≠ .notANumber ∧
      units x = s.apply (roundUnits (m * 2 ^ (e + 1074).toNat) : Nat) := by
  rw [round_eq s hm he]
  refine ⟨canonical_assemble s (nearest_le _) (by omega) ?_, assemble_ne_notANumber _ _ _, ?_⟩
  · by_cases h : 0 < excess (m * 2 ^ (e + 1074).toNat)
    · exact .inl (le_nearest h)
    · exact .inr (by omega)
  · rw [units_assemble s _ (by omega), roundUnits]
    congr 4
    omega

end Binary64
end CutSelection
