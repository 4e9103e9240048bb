import Mathlib
import CutSelection.Proofs.Binary64.Graded

/-!
Sums and products in double precision keep the order. A sum is the difference with the negated
number. A product of two multiples of the smallest subnormal number is a multiple of its square, and
is rounded to a multiple of the number itself at the least.
-/

namespace CutSelection
namespace Binary64

open Float.Model UnpackedFloat

theorem add_eq_sub_neg (x y : UnpackedFloat) :
    UnpackedFloat.add Format.binary64 x y = UnpackedFloat.sub Format.binary64 x y.neg := by
  have hneg : ∀ s : Sign, -(-s) = s := fun s => by cases s <;> rfl
  cases x with
  | finite s m e hm =>
    cases y with
    | finite s' n f hn =>
      simp only [UnpackedFloat.add, UnpackedFloat.sub, UnpackedFloat.neg, apply_neg]
      rw [Int.sub_neg]
    | _ => simp only [UnpackedFloat.add, UnpackedFloat.sub, UnpackedFloat.neg, hneg]
  | _ => cases y <;> simp only [UnpackedFloat.add, UnpackedFloat.sub, UnpackedFloat.neg, hneg]

theorem isFinite_neg (x : UnpackedFloat) : x.neg.isFinite = x.isFinite := by cases x <;> rfl

theorem value_add (x y : Float) : value (x + y) = value (x - -y) := by
  have hneg := value_neg y
  change (Float.Model.pack (UnpackedFloat.add Format.binary64 (value x) (value y))).unpack =
    (Float.Model.pack (UnpackedFloat.sub Format.binary64 (value x) (value (-y)))).unpack
  rw [add_eq_sub_neg, hneg]

theorem steps_add {x y : Float} (hx : (value x).isFinite) (hy : (value y).isFinite) :
    IsNumber (x + y) ∧ steps (x + y) = clamp (roundSteps (steps x + steps y)) := by
  have hy' : (value (-y)).isFinite := by rw [value_neg, isFinite_neg, hy]
  obtain ⟨hn, hs⟩ := steps_sub hx hy'
  rw [IsNumber, value_add, ← IsNumber, steps, value_add, ← steps]
  refine ⟨hn, ?_⟩
  rw [hs, steps_neg, Int.sub_neg]

/-- A multiple of the smallest subnormal number over `2 ^ k`, rounded to a multiple of that number
at the least. -/
def roundFine (k n : Nat) : Nat := nearest n (max (excess n) k) * 2 ^ (max (excess n) k - k)

theorem nearest_le_of_excess_le {n k : Nat} (h : excess n ≤ k) : nearest n k ≤ 2 ^ 53 := by
  have hn : n ≤ 2 ^ 53 * 2 ^ k := Nat.le_trans (Nat.le_of_lt (lt_of_excess n))
    (Nat.mul_le_mul_left _ (Nat.pow_le_pow_right Nat.two_pos h))
  have hnear := nearest_mono hn k
  rwa [nearest_mul_two_pow_self] at hnear

theorem roundFine_mono (k : Nat) {m n : Nat} (h : m ≤ n) : roundFine k m ≤ roundFine k n := by
  have hexcess := excess_mono h
  rw [roundFine]
  by_cases he : max (excess m) k = max (excess n) k
  · rw [he]
    exact Nat.mul_le_mul_right _ (nearest_mono h _)
  · have hn : max (excess n) k = excess n := by omega
    have hlt : max (excess m) k < excess n := by omega
    calc nearest m (max (excess m) k) * 2 ^ (max (excess m) k - k)
        ≤ 2 ^ 53 * 2 ^ (max (excess m) k - k) :=
          Nat.mul_le_mul_right _ (nearest_le_of_excess_le (Nat.le_max_left _ _))
      _ = 2 ^ 52 * 2 ^ (max (excess m) k - k + 1) := two_pow_mul_two_pow _
      _ ≤ 2 ^ 52 * 2 ^ (excess n - k) :=
          Nat.mul_le_mul_left _ (Nat.pow_le_pow_right Nat.two_pos (by omega))
      _ ≤ nearest n (excess n) * 2 ^ (excess n - k) :=
          Nat.mul_le_mul_right _ (le_nearest (by omega))
      _ = roundFine k n := by rw [roundFine, hn]

/-- What a product of two multiples of the smallest subnormal number is rounded to. -/
def roundProduct (n : Int) : Int :=
  if 0 ≤ n then roundFine 1074 n.toNat else -roundFine 1074 (-n).toNat

theorem roundProduct_mono {m n : Int} (h : m ≤ n) : roundProduct m ≤ roundProduct n := by
  have h1 := roundFine_mono 1074 (Int.toNat_le_toNat h)
  have h2 := roundFine_mono 1074 (Int.toNat_le_toNat (Int.neg_le_neg h))
  simp only [roundProduct]
  split <;> split <;> omega

@[simp] theorem roundFine_zero (k : Nat) : roundFine k 0 = 0 := by
  have h := nearest_mul_two_pow_self 0 (max (excess 0) k)
  rw [Nat.zero_mul] at h
  rw [roundFine, h, Nat.zero_mul]

@[simp] theorem roundProduct_zero : roundProduct 0 = 0 := by
  rw [roundProduct, if_pos (Int.le_refl 0), Int.toNat_zero, roundFine_zero]
  rfl

theorem roundProduct_apply (s : Sign) (n : Nat) :
    roundProduct (s.apply n) = s.apply (roundFine 1074 n : Nat) := by
  cases s with
  | positive =>
    rw [Sign.apply, roundProduct, if_pos (Int.natCast_nonneg n), Int.toNat_natCast]
    rfl
  | negative =>
    by_cases hn : n = 0
    · simp [hn, Sign.apply]
    · have hneg : ¬(0 : Int) ≤ -n := by omega
      rw [Sign.apply, roundProduct, if_neg hneg, Int.neg_neg, Int.toNat_natCast]
      rfl

theorem apply_mul_apply (s s' : Sign) (m n : Nat) :
    s.apply m * s'.apply n = (s * s').apply (m * n : Nat) := by
  cases s <;> cases s' <;> simp [Sign.apply]

theorem product_exponent_le {s s' : Sign} {m n : Nat} {e f : Int} {hm : 0 < m} {hn : 0 < n}
    (hx : Canonical (.finite s m e hm)) (hy : Canonical (.finite s' n f hn)) :
    e + f ≤ max ((m * n).log2 + (e + f) - 52) (-1074) := by
  obtain ⟨-, he, hm52⟩ := hx
  obtain ⟨-, hf, hn52⟩ := hy
  have hlog : 2 ^ 52 ≤ m * n → 52 ≤ (m * n).log2 :=
    (Nat.le_log2 (Nat.ne_of_gt (Nat.mul_pos hm hn))).mpr
  rcases hm52 with hm52 | rfl
  · have := hlog (Nat.le_trans hm52 (Nat.le_mul_of_pos_right m hn))
    omega
  · rcases hn52 with hn52 | rfl
    · have := hlog (Nat.le_trans hn52 (Nat.le_mul_of_pos_left n hm))
      omega
    · omega

theorem units_mul_units (s s' : Sign) {m n : Nat} {e f : Int} (hm : 0 < m) (hn : 0 < n)
    (he : -1074 ≤ e) (hf : -1074 ≤ f) :
    units (.finite s m e hm) * units (.finite s' n f hn) =
      (s * s').apply (m * n * 2 ^ (e + f + 2148).toNat : Nat) := by
  have hpow : (e + f + 2148).toNat = (e + 1074).toNat + (f + 1074).toNat := by omega
  simp only [units]
  rw [apply_mul_apply, hpow, Nat.pow_add]
  congr 2
  ac_rfl

theorem roundWithAccuracy_spec (s : Sign) {m : Nat} {e : Int} (hm : m ≠ 0) (he : -2148 ≤ e)
    (hexp : e ≤ max (m.log2 + e - 52) (-1074)) :
    let z := roundWithAccuracy Format.binary64 s m e .exact
    Canonical z ∧ z ≠ .notANumber ∧
      units z = s.apply (roundFine 1074 (m * 2 ^ (e + 2148).toNat) : Nat) := by
  generalize hN : m * 2 ^ (e + 2148).toNat = N
  have hlog : N.log2 = m.log2 + (e + 2148).toNat := by rw [← hN, log2_mul_two_pow hm]
  generalize ht : max (m.log2 + e - 52 : Int) (-1074) = t at hexp
  have hmax : max (excess N) 1074 = (e + 2148).toNat + (t - e).toNat := by
    rw [excess, hlog]
    omega
  have hnear : nearest m (t - e).toNat = nearest N (max (excess N) 1074) := by
    rw [hmax, ← hN, nearest_mul_two_pow]
  have hle : nearest m (t - e).toNat ≤ 2 ^ 53 :=
    hnear ▸ nearest_le_of_excess_le (Nat.le_max_left _ _)
  have hnormal : 2 ^ 52 ≤ nearest m (t - e).toNat ∨ t = -1074 := by
    by_cases hex : 1074 < excess N
    · left
      rw [hnear, max_eq_left hex.le]
      exact le_nearest (by omega)
    · right
      omega
  have hk : (t + 1074).toNat = max (excess N) 1074 - 1074 := by omega
  rw [roundWithAccuracy_eq _ ht hexp hle]
  refine ⟨canonical_assemble _ hle (by omega) hnormal, assemble_ne_notANumber _ _ _, ?_⟩
  rw [units_assemble _ _ (by omega), hnear, hk]
  rfl

/-- A product of finite numbers is rounded, and nothing else. -/
theorem mul_spec {x y : UnpackedFloat} (hx : Canonical x) (hy : Canonical y) (hxf : x.isFinite)
    (hyf : y.isFinite) :
    let z := UnpackedFloat.mul Format.binary64 x y
    Canonical z ∧ z ≠ .notANumber ∧ units z = roundProduct (units x * units y) := by
  cases x with
  | infinity s => cases hxf
  | notANumber => cases hxf
  | zero s =>
    have hzero : roundProduct (units (.zero s) * units y) = 0 := by
      rw [show units (.zero s) = 0 from rfl, Int.zero_mul, roundProduct_zero]
    rw [hzero]
    cases y with
    | infinity s' => cases hyf
    | notANumber => cases hyf
    | zero s' => exact ⟨trivial, by simp [UnpackedFloat.mul], rfl⟩
    | finite s' n f hn => exact ⟨trivial, by simp [UnpackedFloat.mul], rfl⟩
  | finite s m e hm =>
    cases y with
    | infinity s' => cases hyf
    | notANumber => cases hyf
    | zero s' =>
      have hzero : roundProduct (units (.finite s m e hm) * units (.zero s')) = 0 := by
        rw [show units (.zero s') = 0 from rfl, Int.mul_zero, roundProduct_zero]
      rw [hzero]
      exact ⟨trivial, by simp [UnpackedFloat.mul], rfl⟩
    | finite s' n f hn =>
      have he := hx.2.1
      have hf := hy.2.1
      rw [units_mul_units s s' hm hn he hf, roundProduct_apply]
      exact roundWithAccuracy_spec (s * s') (Nat.ne_of_gt (Nat.mul_pos hm hn)) (by omega)
        (product_exponent_le hx hy)

theorem steps_mul {x y : Float} (hx : (value x).isFinite) (hy : (value y).isFinite) :
    IsNumber (x * y) ∧ steps (x * y) = clamp (roundProduct (steps x * steps y)) := by
  obtain ⟨hcanonical, hnumber, hunits⟩ :=
    mul_spec (canonical_value x).1 (canonical_value y).1 hx hy
  have hvalue : value (x * y) = clip (UnpackedFloat.mul Format.binary64 (value x) (value y)) :=
    unpack_pack hcanonical
  refine ⟨fun h => clip_ne_notANumber hnumber (hvalue.symm.trans h), ?_⟩
  rw [steps, hvalue, units_clip hcanonical, hunits]
  rfl

end Binary64
end CutSelection
