import Mathlib
import CutSelection.Proofs.Exact

/-!
Vectors over the reals as points of Euclidean space. A sum over entries is one over all coordinates,
so that inner products and norms are those of the space, however the entries of two vectors overlap.
Orthogonality is then a matter of the angle between two directions.
-/

namespace CutSelection
namespace SparseVector

/-- The value at an index, zero where there is no entry. -/
def coordinate (v : SparseVector ℝ) (i : Nat) : ℝ := (v.entries.lookup i).getD 0

noncomputable def toEuclidean (v : SparseVector ℝ) (n : Nat) : EuclideanSpace ℝ (Fin n) :=
  WithLp.toLp _ fun i => v.coordinate i

variable {v w : SparseVector ℝ} {n : Nat}

@[simp] theorem toEuclidean_apply (v : SparseVector ℝ) (i : Fin n) :
    v.toEuclidean n i = v.coordinate i := rfl

theorem coordinate_of_mem {e : Entry ℝ} (he : e ∈ v.entries) : v.coordinate e.1 = e.2 := by
  rw [coordinate, (lookup_eq_some_iff v.sorted).mpr he, Option.getD_some]

theorem coordinate_of_forall_ne {i : Nat} (h : ∀ e ∈ v.entries, i ≠ e.1) : v.coordinate i = 0 := by
  rw [coordinate, lookup_of_forall_ne h, Option.getD_none]

theorem coordinate_of_length_le {i : Nat} (h : v.length ≤ i) : v.coordinate i = 0 :=
  coordinate_of_forall_ne fun _ he => Nat.ne_of_gt ((v.lt_length he).trans_le h)

theorem lt_of_length_le (hn : v.length ≤ n) : ∀ e ∈ v.entries, e.1 < n := fun _ he =>
  (v.lt_length he).trans_le hn

theorem coordinate_eq_zero_iff : v.coordinate = 0 ↔ v.entries = [] := by
  constructor
  · intro h
    refine List.eq_nil_iff_forall_not_mem.mpr fun e he => v.not_isZero he ?_
    rw [Scalar.isZero_iff, ← coordinate_of_mem he, h, Pi.zero_apply]
  · intro h
    funext i
    exact coordinate_of_forall_ne (by simp [h])

theorem sum_map_entries {entries : List (Entry ℝ)} (hs : entries.Pairwise fun e f => e.1 < f.1)
    (hn : ∀ e ∈ entries, e.1 < n) (term : Nat → ℝ → ℝ) (h0 : ∀ i, term i 0 = 0) :
    (entries.map fun e => term e.1 e.2).sum =
      ∑ i : Fin n, term i ((entries.lookup (i : Nat)).getD 0) := by
  induction entries with
  | nil => simp [h0]
  | cons e entries ih =>
    rw [List.pairwise_cons] at hs
    rw [List.forall_mem_cons] at hn
    -- The other entries have no value at the first index.
    have hsplit : ∀ i : Fin n, term i (((e :: entries).lookup (i : Nat)).getD 0) =
        (if i = ⟨e.1, hn.1⟩ then term e.1 e.2 else 0) +
          term i ((entries.lookup (i : Nat)).getD 0) := by
      intro i
      by_cases hi : (i : Nat) = e.1
      · have hrest : entries.lookup (i : Nat) = none :=
          lookup_of_forall_ne fun f hf => hi ▸ Nat.ne_of_lt (hs.1 f hf)
        rw [lookup_cons_of_eq hi, hrest, if_pos (Fin.ext hi)]
        simp [h0, hi]
      · rw [lookup_cons_of_ne hi, if_neg fun h => hi (congrArg Fin.val h), zero_add]
    rw [List.map_cons, List.sum_cons, ih hs.2 hn.2, Finset.sum_congr rfl fun i _ => hsplit i,
      Finset.sum_add_distrib, Finset.sum_ite_eq' Finset.univ, if_pos (Finset.mem_univ _)]

theorem sum_entries (hn : ∀ e ∈ v.entries, e.1 < n) (term : Nat → ℝ → ℝ)
    (h0 : ∀ i, term i 0 = 0) :
    Scalar.sum (v.entries.map fun e => term e.1 e.2) = ∑ i : Fin n, term i (v.coordinate i) := by
  rw [Scalar.sum_eq, sum_map_entries v.sorted hn term h0]
  rfl

theorem inner_toEuclidean (x : EuclideanSpace ℝ (Fin n)) :
    inner ℝ (v.toEuclidean n) x = ∑ i : Fin n, v.coordinate i * x i := by
  rw [PiLp.inner_apply]
  exact Finset.sum_congr rfl fun i _ => mul_comm _ _

theorem norm_eq (hn : ∀ e ∈ v.entries, e.1 < n) : v.norm = ‖v.toEuclidean n‖ := by
  rw [norm, squaredNorm, sum_entries hn (fun _ a => a * a) (by simp), EuclideanSpace.norm_eq]
  simp [sq, Scalar.sqrt]

theorem innerProductWithDense_eq_inner (hn : ∀ e ∈ v.entries, e.1 < n)
    (x : EuclideanSpace ℝ (Fin n)) :
    v.innerProductWithDense (List.ofFn x) = .ok (inner ℝ (v.toEuclidean n) x) := by
  have hvalue : ∀ e ∈ v.entries, (List.ofFn x)[e.1]? = some ((List.ofFn x).getD e.1 0) := by
    intro e he
    simp [hn e he]
  rw [innerProductWithDense_eq (fun i => (List.ofFn x).getD i 0) hvalue,
    sum_entries hn (fun i a => a * (List.ofFn x).getD i 0) (by simp), inner_toEuclidean]
  simp

/-- What the merge of the entries passes over is a product with zero. -/
theorem innerProduct_eq_sum (hn : ∀ e ∈ v.entries, e.1 < n) :
    v.innerProduct w = ∑ i ∈ Finset.range n, v.coordinate i * w.coordinate i := by
  rw [innerProduct_eq, Finset.sum_range,
    ← sum_entries hn (fun i a => a * w.coordinate i) (by simp)]
  refine sum_filterMap (fun e _ a ha => ?_) fun e _ hnone => ?_
  · obtain ⟨b, hb, rfl⟩ := Option.map_eq_some_iff.mp ha
    rw [coordinate, hb, Option.getD_some]
  · rw [coordinate, Option.map_eq_none_iff.mp hnone]
    simp

theorem innerProduct_eq_inner (hn : ∀ e ∈ v.entries, e.1 < n) :
    v.innerProduct w = inner ℝ (v.toEuclidean n) (w.toEuclidean n) := by
  rw [innerProduct_eq_sum hn, Finset.sum_range, inner_toEuclidean]
  rfl

theorem toEuclidean_eq_smul_iff (hv : v.length ≤ n) (hw : w.length ≤ n) {r : ℝ} :
    w.toEuclidean n = r • v.toEuclidean n ↔ w.coordinate = r • v.coordinate := by
  constructor
  · intro h
    funext i
    by_cases hi : i < n
    · simpa using congrArg (fun x : EuclideanSpace ℝ (Fin n) => x ⟨i, hi⟩) h
    · have hi' : n ≤ i := not_lt.mp hi
      simp [coordinate_of_length_le (hv.trans hi'), coordinate_of_length_le (hw.trans hi')]
  · intro h
    ext i
    simp [h]

theorem toEuclidean_eq_zero_iff (hv : v.length ≤ n) : v.toEuclidean n = 0 ↔ v.coordinate = 0 := by
  have h := @toEuclidean_eq_smul_iff v v n hv hv 0
  rwa [zero_smul, zero_smul] at h

theorem norm_eq_zero_iff : v.norm = 0 ↔ v.entries = [] := by
  rw [norm_eq (lt_of_length_le le_rfl), norm_eq_zero, toEuclidean_eq_zero_iff le_rfl,
    coordinate_eq_zero_iff]

end SparseVector

namespace Cut

open SparseVector

/-- The cosine of the angle between two cuts, zero if one of them has no direction. -/
noncomputable def cosine (a b : Cut ℝ) : ℝ :=
  a.coefficients.innerProduct b.coefficients / (a.coefficients.norm * b.coefficients.norm)

variable {a b : Cut ℝ} {n : Nat}

theorem cosine_eq (ha : a.coefficients.length ≤ n) (hb : b.coefficients.length ≤ n) :
    a.cosine b = inner ℝ (a.coefficients.toEuclidean n) (b.coefficients.toEuclidean n) /
      (‖a.coefficients.toEuclidean n‖ * ‖b.coefficients.toEuclidean n‖) := by
  rw [cosine, innerProduct_eq_inner (lt_of_length_le ha), norm_eq (lt_of_length_le ha),
    norm_eq (lt_of_length_le hb)]

theorem abs_cosine_le_one (a b : Cut ℝ) : |a.cosine b| ≤ 1 := by
  rw [cosine_eq (le_max_left _ b.coefficients.length) (le_max_right a.coefficients.length _)]
  exact abs_real_inner_div_norm_mul_norm_le_one _ _

/-- The clamp at zero has nothing to do. -/
theorem orthogonality_eq (a b : Cut ℝ) : a.orthogonality b = 1 - |a.cosine b| := by
  have hle := abs_cosine_le_one a b
  rw [orthogonality]
  split
  · rename_i h
    have hnonneg : 0 ≤ a.coefficients.norm * b.coefficients.norm :=
      mul_nonneg (Real.sqrt_nonneg _) (Real.sqrt_nonneg _)
    rw [cosine, le_antisymm h hnonneg, div_zero, abs_zero, sub_zero]
  · rw [Scalar.maximum_eq, Scalar.abs_eq, ← cosine, max_eq_left (sub_nonneg.mpr hle)]

/-- Cuts are parallel if one vector of coefficients is a multiple of the other and neither of them
is zero. -/
theorem abs_cosine_eq_one_iff : |a.cosine b| = 1 ↔
    a.coefficients.coordinate ≠ 0 ∧ b.coefficients.coordinate ≠ 0 ∧
      ∃ r : ℝ, b.coefficients.coordinate = r • a.coefficients.coordinate := by
  have ha := le_max_left a.coefficients.length b.coefficients.length
  have hb := le_max_right a.coefficients.length b.coefficients.length
  rw [cosine_eq ha hb, abs_real_inner_div_norm_mul_norm_eq_one_iff, Ne, toEuclidean_eq_zero_iff ha]
  simp only [toEuclidean_eq_smul_iff ha hb]
  constructor
  · rintro ⟨h0, r, hr, h⟩
    refine ⟨h0, ?_, r, h⟩
    rw [h]
    exact smul_ne_zero hr h0
  · rintro ⟨h0, h0', r, h⟩
    refine ⟨h0, r, ?_, h⟩
    rintro rfl
    exact h0' (by rw [h, zero_smul])

theorem cosine_eq_zero_iff : a.cosine b = 0 ↔
    a.coefficients.entries = [] ∨ b.coefficients.entries = [] ∨
      ∑ i ∈ Finset.range a.coefficients.length,
        a.coefficients.coordinate i * b.coefficients.coordinate i = 0 := by
  rw [cosine, innerProduct_eq_sum (lt_of_length_le le_rfl), div_eq_zero_iff, mul_eq_zero,
    norm_eq_zero_iff, norm_eq_zero_iff]
  tauto

/-- Orthogonality measures directions, in exact arithmetic. It is symmetric, and lies between zero and
one before it is clamped. It is zero exactly for cuts that are parallel, and one exactly for cuts at
a right angle and for those without coefficients. -/
theorem orthogonality_measures_direction (a b : Cut ℝ) :
    a.orthogonality b = b.orthogonality a ∧
    a.orthogonality b = 1 - |a.cosine b| ∧ 0 ≤ 1 - |a.cosine b| ∧ 1 - |a.cosine b| ≤ 1 ∧
    (a.orthogonality b = 0 ↔
      a.coefficients.coordinate ≠ 0 ∧ b.coefficients.coordinate ≠ 0 ∧
        ((∃ r : ℝ, b.coefficients.coordinate = r • a.coefficients.coordinate) ∨
          ∃ r : ℝ, a.coefficients.coordinate = r • b.coefficients.coordinate)) ∧
    (a.orthogonality b = 1 ↔
      a.coefficients.entries = [] ∨ b.coefficients.entries = [] ∨
        ∑ i ∈ Finset.range a.coefficients.length,
          a.coefficients.coordinate i * b.coefficients.coordinate i = 0) := by
  have hle := abs_cosine_le_one a b
  have hnonneg := abs_nonneg (a.cosine b)
  refine ⟨orthogonality_comm a b, orthogonality_eq a b, by linarith, by linarith, ?_, ?_⟩
  · have hzero : ∀ a b : Cut ℝ, a.orthogonality b = 0 ↔ |a.cosine b| = 1 := by
      intro a b
      rw [orthogonality_eq, sub_eq_zero, eq_comm]
    constructor
    · intro h
      obtain ⟨ha, hb, hr⟩ := abs_cosine_eq_one_iff.mp ((hzero a b).mp h)
      exact ⟨ha, hb, .inl hr⟩
    · rintro ⟨ha, hb, hr | hr⟩
      · exact (hzero a b).mpr (abs_cosine_eq_one_iff.mpr ⟨ha, hb, hr⟩)
      · rw [orthogonality_comm]
        exact (hzero b a).mpr (abs_cosine_eq_one_iff.mpr ⟨hb, ha, hr⟩)
  · rw [orthogonality_eq, sub_eq_self, abs_eq_zero, cosine_eq_zero_iff]

end Cut
end CutSelection
