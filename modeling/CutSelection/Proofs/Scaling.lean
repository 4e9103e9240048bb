import CutSelection.BoundChange
import CutSelection.Redundancy
import CutSelection.Proofs.Box
import CutSelection.Proofs.Ranking.Relabelling

/-!
Cuts multiplied by positive factors. In exact arithmetic the factor cancels in all values that a cut
is selected by: in its efficacy, in its angles to other cuts and in the bounds that it asks for. The
redundancy filter compares two sides that are both multiplied.
-/

namespace CutSelection

open Scalar

/-- What a cut can be multiplied by without its sides changing places. -/
abbrev Factor : Type := {f : ℝ // 0 < f}

namespace Factor

variable (f : Factor)

theorem ne_zero : (f : ℝ) ≠ 0 := ne_of_gt f.2

noncomputable def entry (e : Entry ℝ) : Entry ℝ := (e.1, f * e.2)

theorem abs_entry (e : Entry ℝ) : Scalar.abs (f.entry e).2 = f * Scalar.abs e.2 := by
  rw [abs_eq, abs_eq, entry, abs_mul, abs_of_pos f.2]

theorem mul_maximum (x y : ℝ) : maximum (f * x) (f * y) = f * maximum x y := by
  rw [maximum_eq, maximum_eq, mul_max_of_nonneg x y f.2.le]

theorem mul_foldl_maximum (start : ℝ) (values : List ℝ) :
    (values.map fun x => (f : ℝ) * x).foldl maximum (f * start) =
      f * values.foldl maximum start := by
  induction values generalizing start with
  | nil => rfl
  | cons x values ih => rw [List.map_cons, List.foldl_cons, List.foldl_cons, mul_maximum, ih]

theorem mul_sum (values : List ℝ) : sum (values.map fun x => (f : ℝ) * x) = f * sum values := by
  rw [sum_eq, sum_eq, List.sum_map_mul_left, List.map_id']

theorem through_mul (direction : Direction) (a : ℝ) :
    direction.through ((f : ℝ) * a) = direction.through a := by
  simp only [Direction.through, mul_pos_iff_of_pos_left f.2]

end Factor

namespace SparseVector

variable (v w : SparseVector ℝ) (f h : Factor)

theorem wellFormed_scale : WellFormed (v.entries.map f.entry) v.length := by
  refine ⟨List.pairwise_map.mpr v.sorted, fun e he => ?_, fun e he => ?_⟩
  · obtain ⟨d, hd, rfl⟩ := List.mem_map.mp he
    exact (v.lt_length hd : d.1 < v.length)
  · obtain ⟨d, hd, rfl⟩ := List.mem_map.mp he
    have hne := v.not_isZero hd
    rw [isZero_iff] at hne ⊢
    exact mul_ne_zero f.ne_zero hne

noncomputable def scale : SparseVector ℝ := ⟨v.entries.map f.entry, v.length, v.wellFormed_scale f⟩

theorem common_scale (left right : List (Entry ℝ)) :
    common (left.map f.entry) (right.map h.entry) =
      (common left right).map fun p => ((f : ℝ) * p.1, (h : ℝ) * p.2) := by
  induction left generalizing right with
  | nil => rfl
  | cons e left ih =>
    have hskip : (right.map h.entry).dropWhile (fun d => decide (d.1 < (f.entry e).1)) =
        (right.dropWhile fun d => decide (d.1 < e.1)).map h.entry := List.dropWhile_map ..
    rw [List.map_cons, common, common, hskip]
    cases right.dropWhile fun d => decide (d.1 < e.1) with
    | nil => rfl
    | cons d right =>
      have hsame : (f.entry e).1 = (h.entry d).1 ↔ e.1 = d.1 := .rfl
      rw [List.map_cons]
      by_cases hd : e.1 = d.1
      · simp only [if_pos (hsame.mpr hd), if_pos hd, ih]
        rfl
      · simp only [if_neg (hsame.not.mpr hd), if_neg hd]
        exact ih (d :: right)

theorem innerProduct_scale :
    (v.scale f).innerProduct (w.scale h) = (f : ℝ) * h * v.innerProduct w := by
  have hproducts : ((common v.entries w.entries).map fun p => ((f : ℝ) * p.1, (h : ℝ) * p.2)).map
      (fun p => p.1 * p.2) =
        (common v.entries w.entries).map fun p => (f : ℝ) * h * (p.1 * p.2) := by
    rw [List.map_map]
    exact List.map_congr_left fun p _ => mul_mul_mul_comm _ _ _ _
  rw [innerProduct, innerProduct, scale, scale, common_scale, hproducts, sum_eq, sum_eq,
    List.sum_map_mul_left]

theorem norm_scale : (v.scale f).norm = f * v.norm := by
  have hsquares : (v.scale f).squaredNorm = (f : ℝ) ^ 2 * v.squaredNorm := by
    rw [squaredNorm, squaredNorm, scale, sum_eq, sum_eq, ← List.sum_map_mul_left, List.map_map]
    refine congrArg List.sum (List.map_congr_left fun e _ => ?_)
    rw [Function.comp_apply, Factor.entry]
    ring
  rw [norm, norm, hsquares]
  exact (Real.sqrt_mul (sq_nonneg _) _).trans (by rw [Real.sqrt_sq f.2.le]; rfl)

theorem magnitudes_scale : (v.scale f).entries.map (fun e => Scalar.abs e.2) =
    (v.entries.map fun e => Scalar.abs e.2).map fun x => (f : ℝ) * x := by
  rw [scale, List.map_map, List.map_map]
  exact List.map_congr_left fun e _ => f.abs_entry e

theorem maxNorm_scale : (v.scale f).maxNorm = f * v.maxNorm := by
  have h := f.mul_foldl_maximum 0 (v.entries.map fun e => Scalar.abs e.2)
  rwa [mul_zero, ← magnitudes_scale] at h

theorem sumNorm_scale : (v.scale f).sumNorm = f * v.sumNorm := by
  rw [sumNorm, magnitudes_scale, f.mul_sum, sumNorm]

/-- The number of entries does not grow with the vector, all other norms do. -/
theorem normBy_scale {norm : Norm} (hn : norm ≠ .discrete) :
    (v.scale f).normBy norm = f * v.normBy norm := by
  cases norm with
  | euclidean => exact v.norm_scale f
  | maximum => exact v.maxNorm_scale f
  | sum => exact v.sumNorm_scale f
  | discrete => exact absurd rfl hn

theorem products_scale (point : List ℝ) (entries : List (Entry ℝ)) :
    (entries.map f.entry).mapM (fun e => point[e.1]?.map (e.2 * ·)) =
      (entries.mapM fun e => point[e.1]?.map (e.2 * ·)).map
        (List.map fun x => (f : ℝ) * x) := by
  induction entries with
  | nil => rfl
  | cons e entries ih =>
    rw [List.map_cons, List.mapM_cons, List.mapM_cons, ih]
    have hindex : (f.entry e).1 = e.1 := rfl
    rw [hindex]
    cases point[e.1]? with
    | none => rfl
    | some x =>
      cases entries.mapM fun e => point[e.1]?.map (e.2 * ·) with
      | none => rfl
      | some products =>
        exact congrArg (fun y => some (y :: _)) (mul_assoc _ _ _)

theorem innerProductWithDense_scale (point : List ℝ) :
    (v.scale f).innerProductWithDense point =
      (fun x => (f : ℝ) * x) <$> v.innerProductWithDense point := by
  rw [innerProductWithDense, innerProductWithDense, scale, products_scale]
  cases v.entries.mapM fun e => point[e.1]?.map (e.2 * ·) with
  | none => rfl
  | some products => exact congrArg Except.ok (f.mul_sum products)

end SparseVector

namespace Cut

variable (cut other : Cut ℝ) (f h : Factor)

noncomputable def scale : Cut ℝ where
  name := cut.name
  coefficients := cut.coefficients.scale f
  constant := f * cut.constant
  lhs := cut.lhs.map fun x => (f : ℝ) * x
  rhs := cut.rhs.map fun x => (f : ℝ) * x
  modifiable := cut.modifiable

theorem hasFiniteSide_scale : (cut.scale f).HasFiniteSide ↔ cut.HasFiniteSide := by
  simp only [HasFiniteSide, scale, Option.isSome_map]

theorem side_scale (side : Direction) :
    (cut.scale f).side side = (cut.side side).map fun x => (f : ℝ) * x := by cases side <;> rfl

theorem orthogonality_scale : (cut.scale f).orthogonality (other.scale h) =
    cut.orthogonality other := by
  have hpos : 0 < (f : ℝ) * h := mul_pos f.2 h.2
  have hnorms : (cut.scale f).coefficients.norm * (other.scale h).coefficients.norm =
      (f : ℝ) * h * (cut.coefficients.norm * other.coefficients.norm) := by
    rw [scale, scale, SparseVector.norm_scale, SparseVector.norm_scale, mul_mul_mul_comm]
  have hinner : (cut.scale f).coefficients.innerProduct (other.scale h).coefficients =
      (f : ℝ) * h * cut.coefficients.innerProduct other.coefficients :=
    SparseVector.innerProduct_scale ..
  have hdirection : (f : ℝ) * h * (cut.coefficients.norm * other.coefficients.norm) ≤ 0 ↔
      cut.coefficients.norm * other.coefficients.norm ≤ 0 := by
    rw [← not_lt, ← not_lt, mul_pos_iff_of_pos_left hpos]
  simp only [orthogonality, hnorms, hinner, mul_div_mul_left _ _ hpos.ne']
  exact if_congr hdirection rfl rfl

theorem activity_scale (point : List ℝ) :
    (cut.scale f).activity point = (fun x => (f : ℝ) * x) <$> cut.activity point := by
  rw [activity, activity, scale, SparseVector.innerProductWithDense_scale]
  cases cut.coefficients.innerProductWithDense point with
  | error _ => rfl
  | ok x => exact congrArg Except.ok (mul_add _ _ _).symm

theorem violation_scale (activity : ℝ) :
    (cut.scale f).violation (f * activity) = f * cut.violation activity := by
  have hmisses : ([(cut.scale f).lhs.map (· - (f : ℝ) * activity),
      (cut.scale f).rhs.map ((f : ℝ) * activity - ·)].filterMap id) =
      ([cut.lhs.map (· - activity), cut.rhs.map (activity - ·)].filterMap id).map
        fun x => (f : ℝ) * x := by
    cases hl : cut.lhs <;> cases hr : cut.rhs <;> simp [scale, hl, hr, mul_sub]
  have h := f.mul_foldl_maximum 0
    ([cut.lhs.map (· - activity), cut.rhs.map (activity - ·)].filterMap id)
  rwa [mul_zero, ← hmisses] at h

/-- Violation and norm grow alike, as long as the norm counts and not what it is taken to be at
least. -/
theorem efficacy_scale (point : List ℝ) {norm : Norm} {epsilon : ℝ} (hn : norm ≠ .discrete)
    (hc : epsilon ≤ cut.coefficients.normBy norm)
    (hs : epsilon ≤ (cut.scale f).coefficients.normBy norm) :
    (cut.scale f).efficacy point norm epsilon = cut.efficacy point norm epsilon := by
  have hnorm : (cut.scale f).coefficients.normBy norm = f * cut.coefficients.normBy norm :=
    SparseVector.normBy_scale _ f hn
  rw [efficacy, efficacy, maximum_eq, maximum_eq, max_eq_left hc, max_eq_left hs, hnorm,
    activity_scale]
  cases cut.activity point with
  | error _ => rfl
  | ok activity =>
    have hratio : (cut.scale f).violation (f * activity) / (f * cut.coefficients.normBy norm) =
        cut.violation activity / cut.coefficients.normBy norm := by
      rw [violation_scale, mul_div_mul_left _ _ f.ne_zero]
    exact congrArg Except.ok hratio

theorem boundSum_scale (domains : Domains ℝ) (direction : Direction) (total : ℝ)
    (entries : List (Entry ℝ)) :
    boundSum domains direction (f * total) (entries.map f.entry) =
      Option.map (fun x => (f : ℝ) * x) <$> boundSum domains direction total entries := by
  induction entries generalizing total with
  | nil => rfl
  | cons e entries ih =>
    have hindex : (f.entry e).1 = e.1 := rfl
    have hthrough : direction.through (f.entry e).2 = direction.through e.2 :=
      f.through_mul direction e.2
    rw [List.map_cons, boundSum, boundSum, hindex, hthrough]
    cases domains.get e.1 with
    | error _ => rfl
    | ok domain =>
      simp only [bind, Except.bind]
      cases domain.bound (direction.through e.2) with
      | none => rfl
      | some bound =>
        have hnext : (f : ℝ) * total + (f.entry e).2 * bound = f * (total + e.2 * bound) := by
          rw [Factor.entry]
          ring
        simp only [hnext, ih]

theorem activityBound_scale (domains : Domains ℝ) (direction : Direction) :
    (cut.scale f).activityBound domains direction =
      Option.map (fun x => (f : ℝ) * x) <$> cut.activityBound domains direction := by
  have hstart : (f : ℝ) * -0 = -0 := by rw [neg_zero, mul_zero]
  have h := boundSum_scale f domains direction (-0) cut.coefficients.entries
  rwa [hstart] at h

section

variable {t : Tolerances ℝ} (ht : t.feasibility = 0) (domains : Domains ℝ)

include ht

theorem isFeasibleLe_mul (x y : ℝ) :
    t.IsFeasibleLe ((f : ℝ) * x) ((f : ℝ) * y) ↔ t.IsFeasibleLe x y := by
  rw [Tolerances.isFeasibleLe_iff_le ht, Tolerances.isFeasibleLe_iff_le ht,
    mul_le_mul_iff_right₀ f.2]

theorem lowerSideIsRedundant_scale :
    (cut.scale f).lowerSideIsRedundant domains t = cut.lowerSideIsRedundant domains t := by
  rw [lowerSideIsRedundant, lowerSideIsRedundant, minActivity, minActivity, activityBound_scale]
  cases hl : cut.lhs with
  | none => simp only [scale, hl, Option.map_none]
  | some lhs =>
    simp only [scale, hl, Option.map_some]
    cases cut.activityBound domains .lower with
    | error _ => rfl
    | ok least =>
      cases least with
      | none => rfl
      | some least =>
        simp only [Functor.map, Except.map, Option.map_some, bind, Except.bind, ← mul_sub,
          isFeasibleLe_mul f ht]

theorem upperSideIsRedundant_scale :
    (cut.scale f).upperSideIsRedundant domains t = cut.upperSideIsRedundant domains t := by
  rw [upperSideIsRedundant, upperSideIsRedundant, maxActivity, maxActivity, activityBound_scale]
  cases hr : cut.rhs with
  | none => simp only [scale, hr, Option.map_none]
  | some rhs =>
    simp only [scale, hr, Option.map_some]
    cases cut.activityBound domains .upper with
    | error _ => rfl
    | ok greatest =>
      cases greatest with
      | none => rfl
      | some greatest =>
        simp only [Functor.map, Except.map, Option.map_some, bind, Except.bind, ← mul_sub,
          isFeasibleLe_mul f ht]

/-- Without a tolerance, which would be relative to the size of the sides. -/
theorem isRedundant_scale : (cut.scale f).isRedundant domains t = cut.isRedundant domains t := by
  rw [isRedundant, isRedundant, lowerSideIsRedundant_scale cut f ht,
    upperSideIsRedundant_scale cut f ht]
  rfl

end

theorem singleEntry_scale : (cut.scale f).singleEntry = cut.singleEntry.map f.entry := by
  have hentries : (cut.scale f).coefficients.entries = cut.coefficients.entries.map f.entry := rfl
  have hmodifiable : (cut.scale f).modifiable = cut.modifiable := rfl
  rw [singleEntry, singleEntry, hentries, hmodifiable]
  cases cut.coefficients.entries with
  | nil => rfl
  | cons e entries =>
    cases entries with
    | nil => cases cut.modifiable <;> rfl
    | cons _ _ => rfl

theorem sideChange_scale (e : Entry ℝ) (domain : Domain ℝ) (t : Tolerances ℝ) (side : Direction) :
    (cut.scale f).sideChange (f.entry e) domain t side = cut.sideChange e domain t side := by
  have hthrough : side.through (f.entry e).2 = side.through e.2 := f.through_mul side e.2
  rw [sideChange, sideChange, side_scale, hthrough]
  cases cut.side side with
  | none => rfl
  | some limit =>
    have hvalue : ((f : ℝ) * limit - (cut.scale f).constant) / (f.entry e).2 =
        (limit - cut.constant) / e.2 := by
      rw [scale, ← mul_sub]
      exact mul_div_mul_left _ _ f.ne_zero
    simp only [Option.map_some, bind, Option.bind, hvalue]
    rfl

theorem boundChanges_scale (e : Entry ℝ) (domains : Domains ℝ) (t : Tolerances ℝ) :
    (cut.scale f).boundChanges (f.entry e) domains t = cut.boundChanges e domains t := by
  have hzero : IsZero (f.entry e).2 ↔ IsZero e.2 := by
    rw [isZero_iff, isZero_iff, Factor.entry, mul_eq_zero_iff_left f.ne_zero]
  have hchanges (domain : Domain ℝ) :
      (cut.scale f).sideChange (f.entry e) domain t = cut.sideChange e domain t :=
    funext (cut.sideChange_scale f e domain t)
  simp only [boundChanges, hchanges]
  exact if_congr hzero rfl rfl

end Cut

noncomputable def scaling (factor : Nat → Factor) : Relabelling ℝ where
  row r := ⟨r.scale (factor r.number), r.number⟩
  name_row _ := rfl
  number_row _ := rfl
  length_row _ := rfl
  orthogonality_row r q := r.orthogonality_scale q.toCut _ _

end CutSelection
