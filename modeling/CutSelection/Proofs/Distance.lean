import Mathlib
import CutSelection.Proofs.Box
import CutSelection.Proofs.Euclidean

/-!
Efficacy as a distance. A violation is how far the activity has to move to where both sides hold,
and the shortest way there for a point is along the coefficients.
-/

namespace CutSelection

section Space

variable {E : Type} [NormedAddCommGroup E] [InnerProductSpace ℝ E] {a x y : E} {t : ℝ}

theorem abs_inner_sub_div_norm_le (ha : a ≠ 0) :
    |inner ℝ a y - inner ℝ a x| / ‖a‖ ≤ dist x y := by
  rw [div_le_iff₀ (norm_pos_iff.mpr ha), ← inner_sub_right, dist_comm, dist_eq_norm, mul_comm]
  exact abs_real_inner_le_norm a (y - x)

theorem exists_inner_eq_add (ha : a ≠ 0) (x : E) (t : ℝ) :
    ∃ y, inner ℝ a y = inner ℝ a x + t ∧ dist x y = |t| / ‖a‖ := by
  have hn : ‖a‖ ≠ 0 := norm_ne_zero_iff.mpr ha
  refine ⟨x + (t / ‖a‖ ^ 2) • a, ?_, ?_⟩
  · rw [inner_add_right, real_inner_smul_right, real_inner_self_eq_norm_sq]
    field_simp
  · rw [dist_self_add_right, norm_smul, Real.norm_eq_abs, abs_div, abs_of_nonneg (sq_nonneg ‖a‖)]
    field_simp

end Space

namespace Cut

variable {cut : Cut ℝ} {v w : ℝ} {n : Nat}

theorem violation_le_iff {b : ℝ} : cut.violation v ≤ b ↔
    0 ≤ b ∧ (∀ lhs ∈ cut.lhs, lhs - v ≤ b) ∧ ∀ rhs ∈ cut.rhs, v - rhs ≤ b := by
  rw [violation]
  cases cut.lhs <;> cases cut.rhs <;> simp [and_assoc]

theorem violation_cases (cut : Cut ℝ) (v : ℝ) : cut.violation v = 0 ∨
    (∃ lhs ∈ cut.lhs, cut.violation v = lhs - v) ∨ ∃ rhs ∈ cut.rhs, cut.violation v = v - rhs := by
  rw [violation]
  cases cut.lhs <;> cases cut.rhs <;> simp [max_def] <;> grind

theorem violation_nonneg (cut : Cut ℝ) (v : ℝ) : 0 ≤ cut.violation v :=
  (violation_le_iff.mp le_rfl).1

theorem violation_le (hw : cut.Allows w) : cut.violation v ≤ |w - v| := by
  obtain ⟨hl, hr⟩ := allows_iff.mp hw
  refine violation_le_iff.mpr ⟨abs_nonneg _, fun lhs h => ?_, fun rhs h => ?_⟩
  · exact (sub_le_sub_right (hl lhs h) v).trans (le_abs_self _)
  · exact (sub_le_sub_left (hr rhs h) v).trans (abs_sub_comm w v ▸ le_abs_self _)

/-- A side that is missed most is allowed itself, unless the sides cross. -/
theorem exists_allows (hsides : ∀ lhs ∈ cut.lhs, ∀ rhs ∈ cut.rhs, lhs ≤ rhs) (v : ℝ) :
    ∃ w, cut.Allows w ∧ |w - v| = cut.violation v := by
  have hnonneg := cut.violation_nonneg v
  rcases cut.violation_cases v with h | ⟨lhs, hl, h⟩ | ⟨rhs, hr, h⟩
  · obtain ⟨-, hmissed⟩ := violation_le_iff.mp h.le
    refine ⟨v, allows_iff.mpr ⟨fun lhs hl => ?_, fun rhs hr => ?_⟩, by rw [h, sub_self, abs_zero]⟩
    · exact sub_nonpos.mp (hmissed.1 lhs hl)
    · exact sub_nonpos.mp (hmissed.2 rhs hr)
  · refine ⟨lhs, allows_iff.mpr ⟨fun lhs' hl' => ?_, hsides lhs hl⟩, ?_⟩
    · rw [Option.mem_unique hl' hl]
    · rw [h, abs_of_nonneg (h ▸ hnonneg)]
  · refine ⟨rhs, allows_iff.mpr ⟨fun lhs hl => hsides lhs hl rhs hr, fun rhs' hr' => ?_⟩, ?_⟩
    · rw [Option.mem_unique hr' hr]
    · rw [h, abs_sub_comm, abs_of_nonneg (h ▸ hnonneg)]

/-- The points at which both sides hold, as far as they are finite. -/
def solutions (cut : Cut ℝ) (n : Nat) : Set (EuclideanSpace ℝ (Fin n)) :=
  {y | cut.Allows (∑ i : Fin n, cut.coefficients.coordinate i * y i + cut.constant)}

theorem mem_solutions_iff {y : EuclideanSpace ℝ (Fin n)} : y ∈ cut.solutions n ↔
    cut.Allows (inner ℝ (cut.coefficients.toEuclidean n) y + cut.constant) := by
  rw [SparseVector.inner_toEuclidean]
  rfl

/-- The shortest way from a point to the solutions is along the coefficients. -/
theorem isLeast_distance (ha : cut.coefficients.toEuclidean n ≠ 0)
    (hsides : ∀ lhs ∈ cut.lhs, ∀ rhs ∈ cut.rhs, lhs ≤ rhs) (x : EuclideanSpace ℝ (Fin n)) :
    IsLeast {r | ∃ y ∈ cut.solutions n, dist x y = r}
      (cut.violation (inner ℝ (cut.coefficients.toEuclidean n) x + cut.constant) /
        ‖cut.coefficients.toEuclidean n‖) := by
  set v := inner ℝ (cut.coefficients.toEuclidean n) x + cut.constant with hv
  constructor
  · obtain ⟨w, hw, hdist⟩ := exists_allows hsides v
    obtain ⟨y, hy, hxy⟩ := exists_inner_eq_add ha x (w - v)
    have hw' : inner ℝ (cut.coefficients.toEuclidean n) y + cut.constant = w := by
      rw [hy, hv]
      ring
    exact ⟨y, mem_solutions_iff.mpr (hw' ▸ hw), by rw [hxy, hdist]⟩
  · rintro r ⟨y, hy, rfl⟩
    have hle := violation_le (v := v) (mem_solutions_iff.mp hy)
    rw [hv, add_sub_add_right_eq_sub] at hle
    calc cut.violation v / ‖cut.coefficients.toEuclidean n‖
        ≤ |inner ℝ (cut.coefficients.toEuclidean n) y -
            inner ℝ (cut.coefficients.toEuclidean n) x| / ‖cut.coefficients.toEuclidean n‖ :=
          div_le_div_of_nonneg_right hle (norm_nonneg _)
      _ ≤ dist x y := abs_inner_sub_div_norm_le ha

variable {x : EuclideanSpace ℝ (Fin n)} {epsilon : ℝ}

theorem efficacy_eq (hn : ∀ e ∈ cut.coefficients.entries, e.1 < n)
    (hnorm : epsilon ≤ cut.coefficients.norm) :
    cut.efficacy (List.ofFn x) .euclidean epsilon =
      .ok (cut.violation (inner ℝ (cut.coefficients.toEuclidean n) x + cut.constant) /
        ‖cut.coefficients.toEuclidean n‖) := by
  rw [SparseVector.norm_eq hn] at hnorm
  rw [efficacy, activity, SparseVector.innerProductWithDense_eq_inner hn]
  simp only [Functor.map, Except.map, SparseVector.normBy, SparseVector.norm_eq hn,
    Scalar.maximum_eq, max_eq_left hnorm]

/-- Efficacy is a distance, in exact arithmetic and with the Euclidean norm. No point at which both
sides hold, as far as they are finite, is nearer than the efficacy, and one is just as near. So the
efficacy is zero exactly at the points that satisfy the cut. -/
theorem efficacy_isLeast_distance (hn : ∀ e ∈ cut.coefficients.entries, e.1 < n)
    (hsides : ∀ lhs ∈ cut.lhs, ∀ rhs ∈ cut.rhs, lhs ≤ rhs) (hepsilon : 0 < epsilon)
    (hnorm : epsilon ≤ cut.coefficients.norm) :
    ∃ d, cut.efficacy (List.ofFn x) .euclidean epsilon = .ok d ∧
      IsLeast {r | ∃ y ∈ cut.solutions n, dist x y = r} d ∧ (d = 0 ↔ x ∈ cut.solutions n) := by
  have hpos : 0 < ‖cut.coefficients.toEuclidean n‖ := by
    rw [← SparseVector.norm_eq hn]
    exact hepsilon.trans_le hnorm
  have hleast := isLeast_distance (norm_pos_iff.mp hpos) hsides x
  refine ⟨_, efficacy_eq hn hnorm, hleast, fun h0 => ?_, fun hx => ?_⟩
  · obtain ⟨y, hy, hxy⟩ := hleast.1
    rwa [dist_eq_zero.mp (hxy.trans h0)]
  · have hle := hleast.2 ⟨x, hx, dist_self x⟩
    exact le_antisymm hle (div_nonneg (cut.violation_nonneg _) hpos.le)

noncomputable def between (coefficients : List ℝ) (constant lhs rhs : ℝ) : Cut ℝ :=
  ⟨"between", .ofDense coefficients, constant, some lhs, some rhs, false⟩

/-- The origin misses the left side by five, and the norm is five. -/
theorem efficacy_isLeast_distance_between :
    (between [3, 0, 4] 5 10 20).efficacy [0, 0, 0] .euclidean 1 = .ok 1 ∧
      IsLeast {r | ∃ y ∈ (between [3, 0, 4] 5 10 20).solutions 3, dist 0 y = r} 1 := by
  set cut := between [3, 0, 4] 5 10 20 with hcut
  have hentries : cut.coefficients.entries = [(0, 3), (2, 4)] := by
    simp [hcut, between, SparseVector.ofDense, SparseVector.nonzeros]
  have hnorm : cut.coefficients.norm = 5 := by
    have h : (3 * 3 + 4 * 4 : ℝ) = 5 ^ 2 := by norm_num
    simp [SparseVector.norm, SparseVector.squaredNorm, hentries, Scalar.sqrt, h]
  have hactivity : cut.activity [0, 0, 0] = .ok 5 := by
    simp [activity, SparseVector.innerProductWithDense, hentries, Functor.map, Except.map]
    simp [hcut, between]
  have hviolation : cut.violation 5 = 5 := by
    simp [hcut, between, violation]
    norm_num
  have hefficacy : cut.efficacy [0, 0, 0] .euclidean 1 = .ok 1 := by
    rw [efficacy, hactivity]
    norm_num [SparseVector.normBy, hnorm, hviolation, Functor.map, Except.map]
  obtain ⟨d, hd, hleast, -⟩ := @efficacy_isLeast_distance cut 3 0 1 (by simp [hentries])
    (by norm_num [hcut, between]) one_pos (by norm_num [hnorm])
  obtain rfl : 1 = d := by simpa [hefficacy] using hd
  exact ⟨hefficacy, hleast⟩

end Cut
end CutSelection
