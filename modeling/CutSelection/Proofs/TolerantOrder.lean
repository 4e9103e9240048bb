import Mathlib
import CutSelection.Proofs.Ranking.Order

/-!
The tolerant order of scores in exact arithmetic. A difference is measured against another magnitude
for each pair, and it may shrink, relative to that, when two scores are moved apart. Being better is
still a strict order at every tolerance and a part of the exact order, and up to a tolerance of one
two scores that are moved apart stay in it.
-/

namespace CutSelection

namespace Tolerances

variable {t : Tolerances ℝ} {x y z : ℝ}

/-- The outer two of three values are not measured more coarsely than the inner pairs together. -/
theorem scale_le_add (x y z : ℝ) : scale x z ≤ scale x y + scale y z := by
  have hxy := scale_pos x y
  have hyz := scale_pos y z
  refine max_le (max_le ?_ ?_) ?_
  · linarith [abs_left_le_scale x y]
  · linarith [abs_right_le_scale y z]
  · linarith [one_le_scale x y]

theorem isGt_trans (h0 : 0 ≤ t.epsilon) (h : t.IsGt x y) (h' : t.IsGt y z) : t.IsGt x z := by
  rw [isGt_iff] at *
  calc t.epsilon * scale x z
      ≤ t.epsilon * (scale x y + scale y z) := mul_le_mul_of_nonneg_left (scale_le_add x y z) h0
    _ = t.epsilon * scale x y + t.epsilon * scale y z := mul_add _ _ _
    _ < (x - y) + (y - z) := add_lt_add h h'
    _ = x - z := sub_add_sub_cancel _ _ _

end Tolerances

theorem Scalar.order?_eq_compare (a b : ℝ) : order? a b = some (compare a b) := by
  rcases lt_trichotomy a b with h | rfl | h
  · rw [order?, if_pos h, compare_lt_iff_lt.mpr h]
  · simp [order?, Same]
  · rw [order?, if_neg h.not_gt, if_pos h, compare_gt_iff_gt.mpr h]

namespace Score

section Tags

variable {K : Type} [Scalar K]

/-- The score is not below the other one in the exact order. -/
def AtLeast (s r : Score K) : Prop := s.order? r = some .gt ∨ s.order? r = some .eq

instance (s r : Score K) : Decidable (s.AtLeast r) := inferInstanceAs (Decidable (_ ∨ _))

theorem order?_of_tag_ne {s r : Score K} (h : s.tag ≠ r.tag) :
    s.order? r = some (compare s.tag r.tag) := by
  cases s <;> cases r <;> simp [order?, tag] at h ⊢

end Tags

variable {t : Tolerances ℝ} {s r q : Score ℝ}

theorem rank_lt_of_tag_lt (h : s.tag < r.tag) : s.rank < r.rank := by
  cases s <;> cases r <;> simp [tag, rank] at h ⊢

/-- The exact order is total: it is that of the scale with forced cuts above and marked cuts below
all others. -/
theorem order?_eq_compare (s r : Score ℝ) : s.order? r = some (compare s.rank r.rank) := by
  rcases lt_trichotomy s.tag r.tag with h | h | h
  · rw [order?_of_tag_ne h.ne, compare_lt_iff_lt.mpr h, compare_lt_iff_lt.mpr (rank_lt_of_tag_lt h)]
  · cases s <;> cases r <;> simp [tag] at h
    case forced.forced => simp [order?]
    case finite.finite a b =>
      rw [order?, Scalar.order?_eq_compare, ← cmp_eq_compare, ← cmp_eq_compare, rank, rank,
        EReal.coe_strictMono.cmp_map_eq]
    case pendingEviction.pendingEviction => simp [order?]
  · rw [order?_of_tag_ne h.ne', compare_gt_iff_gt.mpr h, compare_gt_iff_gt.mpr (rank_lt_of_tag_lt h)]

theorem order?_eq_gt_iff : s.order? r = some .gt ↔ r.rank < s.rank := by
  rw [order?_eq_compare, Option.some_inj, compare_gt_iff_gt]

theorem atLeast_iff : s.AtLeast r ↔ r.rank ≤ s.rank := by
  rw [AtLeast, order?_eq_compare, Option.some_inj, Option.some_inj, compare_gt_iff_gt,
    compare_eq_iff_eq, le_iff_lt_or_eq, eq_comm]

@[simp] theorem finite_atLeast_finite (a b : ℝ) : (finite a).AtLeast (finite b) ↔ b ≤ a := by
  rw [atLeast_iff, rank, rank, EReal.coe_le_coe_iff]

theorem atMost_iff : s.AtMost r ↔ s.rank ≤ r.rank := by
  rw [AtMost, order?_eq_compare, Option.some_inj, Option.some_inj, compare_lt_iff_lt,
    compare_eq_iff_eq, le_iff_lt_or_eq]

theorem not_isBetterThan_self (h0 : 0 ≤ t.epsilon) (s : Score ℝ) : ¬s.IsBetterThan s t := fun h =>
  lt_irrefl _ (rank_lt_of_isBetterThan h0 h)

theorem IsBetterThan.asymm (h0 : 0 ≤ t.epsilon) (h : s.IsBetterThan r t) : ¬r.IsBetterThan s t :=
  fun h' => lt_asymm (rank_lt_of_isBetterThan h0 h) (rank_lt_of_isBetterThan h0 h')

theorem IsBetterThan.trans (h0 : 0 ≤ t.epsilon) (h : s.IsBetterThan r t)
    (h' : r.IsBetterThan q t) : s.IsBetterThan q t := by
  -- A score between two others is neither forced nor marked, so that it has a value.
  cases r with
  | forced => simp at h
  | pendingEviction => simp at h'
  | finite b =>
    cases s with
    | forced => cases q <;> simp at h' ⊢
    | pendingEviction => simp at h
    | finite a =>
      cases q with
      | forced => simp at h'
      | pendingEviction => simp
      | finite c => exact Tolerances.isGt_trans h0 h h'

/-- Being better by more than a tolerance is a strict order of all scores, and a part of the exact
one. Up to a tolerance of one, a score that is better than another one stays so when it is raised
and the other one is lowered. -/
theorem strictly_ordered_up_to_tolerance (h0 : 0 ≤ t.epsilon) :
    (∀ s : Score ℝ, ¬s.IsBetterThan s t) ∧
      (∀ s r : Score ℝ, s.IsBetterThan r t → ¬r.IsBetterThan s t) ∧
      (∀ s r q : Score ℝ, s.IsBetterThan r t → r.IsBetterThan q t → s.IsBetterThan q t) ∧
      (∀ s r : Score ℝ, s.IsBetterThan r t → s.order? r = some .gt) ∧
      (t.epsilon ≤ 1 → ∀ s r s' r' : Score ℝ, s.IsBetterThan r t → s'.AtLeast s → r'.AtMost r →
        s'.IsBetterThan r' t) := by
  refine ⟨not_isBetterThan_self h0, fun s r => IsBetterThan.asymm h0,
    fun s r q => IsBetterThan.trans h0, fun s r h => ?_, fun h1 s r s' r' h hs hr => ?_⟩
  · exact order?_eq_gt_iff.mpr (rank_lt_of_isBetterThan h0 h)
  · exact isBetterThan_mono h0 h1 h (atLeast_iff.mp hs) (atMost_iff.mp hr)

/-- One exceeds minus one by twice their magnitude. A hundred exceeds minus two by little more than
its own magnitude, which is still above the tolerance. -/
theorem strictly_ordered_nine_tenths :
    let t := (Settings.sample (9 / 10)).tolerances
    (0 ≤ t.epsilon ∧ t.epsilon ≤ 1) ∧
      ((finite 1).IsBetterThan (finite (-1 : ℝ)) t ∧
        (finite (-1)).IsBetterThan (finite (-100 : ℝ)) t) ∧
      ((finite (100 : ℝ)).AtLeast (finite 1) ∧ (finite (-2 : ℝ)).AtMost (finite (-1))) ∧
      ¬(finite 1).IsBetterThan (finite (1 : ℝ)) t ∧ ¬(finite (-1)).IsBetterThan (finite (1 : ℝ)) t ∧
      (finite 1).IsBetterThan (finite (-100 : ℝ)) t ∧
      (finite (1 : ℝ)).order? (finite (-1)) = some .gt ∧
      (finite 100).IsBetterThan (finite (-2 : ℝ)) t := by
  intro t
  have h0 : 0 ≤ t.epsilon := by norm_num [t, Settings.sample]
  have h1 : t.epsilon ≤ 1 := by norm_num [t, Settings.sample]
  obtain ⟨hirrefl, hasymm, htrans, horder, hmono⟩ := strictly_ordered_up_to_tolerance h0
  have hopposite : (finite 1).IsBetterThan (finite (-1 : ℝ)) t := by
    norm_num [Tolerances.isGt_iff, Tolerances.scale, t, Settings.sample]
  have hnegative : (finite (-1)).IsBetterThan (finite (-100 : ℝ)) t := by
    norm_num [Tolerances.isGt_iff, Tolerances.scale, t, Settings.sample]
  have hraised : (finite (100 : ℝ)).AtLeast (finite 1) := by norm_num
  have hlowered : (finite (-2 : ℝ)).AtMost (finite (-1)) := by norm_num
  exact ⟨⟨h0, h1⟩, ⟨hopposite, hnegative⟩, ⟨hraised, hlowered⟩, hirrefl _, hasymm _ _ hopposite,
    htrans _ _ _ hopposite hnegative, horder _ _ hopposite,
    hmono h1 _ _ _ _ hopposite hraised hlowered⟩

end Score
end CutSelection
