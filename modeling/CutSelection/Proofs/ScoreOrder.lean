import CutSelection.RankedCut
import CutSelection.Proofs.Orthogonality

/-!
The exact order of scores, and what it relies on in the scalars: finite values are totally ordered,
sums and products of finite values keep the order even if they overflow, and a comparison without a
tolerance sees every difference between finite values. Exact arithmetic has these properties, and so
has floating point.
-/

namespace CutSelection

open Scalar

/-- Scalars whose finite values can be added, multiplied and compared without losing their order. A
value that is not finite compares as better than no other one, and as worse than none. -/
class OrderedScalar (K : Type) [Scalar K] extends GradedScalar K where
  IsFinite : K → Prop
  decidableIsFinite : DecidablePred IsFinite
  isFinite_zero : IsFinite 0
  isFinite_one : IsFinite 1
  lt_iff {a b : K} : a < b ↔ a ≤ b ∧ ¬b ≤ a
  le_trans {a b c : K} : a ≤ b → b ≤ c → a ≤ c
  le_total {a b : K} : IsFinite a → IsFinite b → a ≤ b ∨ b ≤ a
  isFinite_of_le {a b c : K} : IsFinite a → IsFinite c → a ≤ b → b ≤ c → IsFinite b
  isFinite_of_add {a b : K} : IsFinite (a + b) → IsFinite a ∧ IsFinite b
  isFinite_of_mul {a b : K} : IsFinite (a * b) → IsFinite a ∧ IsFinite b
  le_add {a b : K} : IsFinite a → IsFinite b → 0 ≤ b → a ≤ a + b
  add_le_add_left {a b c : K} : IsFinite a → IsFinite b → IsFinite c → b ≤ c → a + b ≤ a + c
  mul_nonneg {a b : K} : IsFinite a → IsFinite b → 0 ≤ a → 0 ≤ b → 0 ≤ a * b
  mul_le_mul_left {a b c : K} : IsFinite a → IsFinite b → IsFinite c → 0 ≤ a → b ≤ c →
    a * b ≤ a * c
  isGt_iff {t : Tolerances K} {a b : K} : IsZero t.epsilon →
    (t.IsGt a b ↔ IsFinite a ∧ IsFinite b ∧ b < a)

instance {K : Type} [Scalar K] [OrderedScalar K] (a : K) : Decidable (OrderedScalar.IsFinite a) :=
  OrderedScalar.decidableIsFinite a

theorem OrderedScalar.le_refl {K : Type} [Scalar K] [OrderedScalar K] {a : K} (h : IsFinite a) :
    a ≤ a := (le_total h h).elim id id

theorem OrderedScalar.le_of_not_lt {K : Type} [Scalar K] [OrderedScalar K] {a b : K}
    (ha : IsFinite a) (hb : IsFinite b) (h : ¬b < a) : a ≤ b :=
  Decidable.byContradiction fun hle =>
    h (lt_iff.mpr ⟨(le_total ha hb).resolve_left hle, hle⟩)

namespace Score

variable {K : Type} [Scalar K]

def AtMost (s r : Score K) : Prop := s.order? r = some .lt ∨ s.order? r = some .eq

instance (s r : Score K) : Decidable (s.AtMost r) := inferInstanceAs (Decidable (_ ∨ _))

@[simp] theorem atMost_forced (s : Score K) : s.AtMost forced := by
  cases s <;> simp [AtMost, order?, tag, Nat.compare_eq_lt]

@[simp] theorem pendingEviction_atMost (s : Score K) : pendingEviction.AtMost s := by
  cases s <;> simp [AtMost, order?, tag, Nat.compare_eq_lt]

@[simp] theorem forced_atMost_iff (s : Score K) : forced.AtMost s ↔ s = forced := by
  cases s <;> simp [AtMost, order?, tag, Nat.compare_eq_lt]

@[simp] theorem atMost_pendingEviction_iff (s : Score K) :
    s.AtMost pendingEviction ↔ s = pendingEviction := by
  cases s <;> simp [AtMost, order?, tag, Nat.compare_eq_lt]

variable [OrderedScalar K]

/-- Forced cuts and marked cuts have no value that could overflow. -/
def IsFinite : Score K → Prop
  | .finite v => OrderedScalar.IsFinite v
  | _ => True

instance : DecidablePred (IsFinite (K := K))
  | .finite v => inferInstanceAs (Decidable (OrderedScalar.IsFinite v))
  | .forced => .isTrue trivial
  | .pendingEviction => .isTrue trivial

@[simp] theorem isFinite_finite (v : K) : (finite v).IsFinite ↔ OrderedScalar.IsFinite v := Iff.rfl

@[simp] theorem isFinite_forced : (forced : Score K).IsFinite := trivial

@[simp] theorem isFinite_pendingEviction : (pendingEviction : Score K).IsFinite := trivial

@[simp] theorem finite_atMost_finite (a b : K) : (finite a).AtMost (finite b) ↔ a ≤ b := by
  simp only [AtMost, order?, Scalar.order?, Scalar.Same, OrderedScalar.lt_iff]
  by_cases h : a ≤ b <;> by_cases h' : b ≤ a <;> simp [h, h']

theorem AtMost.trans {s r q : Score K} (h : s.AtMost r) (h' : r.AtMost q) : s.AtMost q := by
  cases r with
  | forced => simp_all
  | pendingEviction => simp_all
  | finite b =>
    cases s <;> cases q <;> simp_all
    exact OrderedScalar.le_trans h h'

theorem atMost_refl {s : Score K} (h : s.IsFinite) : s.AtMost s := by
  cases s with
  | forced => simp
  | pendingEviction => simp
  | finite v => exact (finite_atMost_finite v v).mpr (OrderedScalar.le_refl h)

theorem atMost_total {s r : Score K} (hs : s.IsFinite) (hr : r.IsFinite) :
    s.AtMost r ∨ r.AtMost s := by
  cases s <;> cases r <;> simp
  exact OrderedScalar.le_total hs hr

section Exact

variable {t : Tolerances K} (h0 : IsZero t.epsilon) {s r : Score K}

include h0

theorem not_atMost_of_isBetterThan (h : s.IsBetterThan r t) : ¬s.AtMost r := by
  cases s <;> cases r <;> simp [IsBetterThan, tag] at h <;> simp
  exact (OrderedScalar.lt_iff.mp ((OrderedScalar.isGt_iff h0).mp h).2.2).2

theorem atMost_of_isBetterThan (h : s.IsBetterThan r t) : r.AtMost s := by
  cases s <;> cases r <;> simp [IsBetterThan, tag] at h <;> simp
  exact (OrderedScalar.lt_iff.mp ((OrderedScalar.isGt_iff h0).mp h).2.2).1

theorem atMost_of_not_isBetterThan (hs : s.IsFinite) (hr : r.IsFinite)
    (h : ¬s.IsBetterThan r t) : s.AtMost r := by
  cases s <;> cases r <;> simp [IsBetterThan, tag] at h <;> simp
  rename_i a b
  by_cases hab : a ≤ b
  · exact hab
  · have hba := (OrderedScalar.le_total hs hr).resolve_left hab
    exact absurd ((OrderedScalar.isGt_iff h0).mpr ⟨hs, hr, OrderedScalar.lt_iff.mpr ⟨hba, hab⟩⟩) h

theorem isBetterThan_iff (hs : s.IsFinite) (hr : r.IsFinite) :
    s.IsBetterThan r t ↔ ¬s.AtMost r :=
  ⟨not_atMost_of_isBetterThan h0, fun h => Decidable.byContradiction fun hn =>
    h (atMost_of_not_isBetterThan h0 hs hr hn)⟩

/-- A score stays better when it is raised and the other one is lowered, unless one overflows. -/
theorem IsBetterThan.mono {s' r' : Score K} (h : s.IsBetterThan r t) (hs : s.AtMost s')
    (hsf : s.IsFinite → s'.IsFinite) (hr : r'.AtMost r) (hrf : r.IsFinite → r'.IsFinite) :
    s'.IsBetterThan r' t := by
  cases s with
  | forced =>
    obtain rfl : s' = .forced := by simpa using hs
    cases r <;> cases r' <;> simp_all [IsBetterThan, tag]
  | pendingEviction => simp at h
  | finite a =>
    cases r with
    | forced => simp at h
    | pendingEviction =>
      obtain rfl : r' = .pendingEviction := by simpa using hr
      cases s' <;> simp_all
    | finite b =>
      obtain ⟨ha, hb, hlt⟩ := (OrderedScalar.isGt_iff h0).mp h
      cases s' with
      | forced => cases r' <;> simp_all [IsBetterThan, tag]
      | pendingEviction => simp at hs
      | finite a' =>
        cases r' with
        | forced => simp at hr
        | pendingEviction => simp
        | finite b' =>
          rw [finite_atMost_finite] at hs hr
          obtain ⟨hba, hnot⟩ := OrderedScalar.lt_iff.mp hlt
          refine (OrderedScalar.isGt_iff h0).mpr ⟨hsf ha, hrf hb, OrderedScalar.lt_iff.mpr ⟨?_, ?_⟩⟩
          · exact OrderedScalar.le_trans hr (OrderedScalar.le_trans hba hs)
          · exact fun hle => hnot (OrderedScalar.le_trans hs (OrderedScalar.le_trans hle hr))

end Exact

end Score

namespace Settings

open OrderedScalar

variable {K : Type} [Scalar K] [OrderedScalar K] {g : Settings K} {scorefactor efficacy a b : K}

/-- A cut whose best score is finite has a score for every orthogonality, and the score rises with
it. It may overflow only downwards. -/
theorem score_mono (hw : 0 ≤ g.orthogonalityWeight) (hs : 0 ≤ scorefactor)
    (h1 : IsFinite (g.score scorefactor efficacy 1)) (ha : 0 ≤ a) (hab : a ≤ b) (hb : b ≤ 1) :
    g.score scorefactor efficacy a ≤ g.score scorefactor efficacy b := by
  obtain ⟨hsf, hsum⟩ := isFinite_of_mul h1
  obtain ⟨hef, hproduct⟩ := isFinite_of_add hsum
  obtain ⟨hwf, -⟩ := isFinite_of_mul hproduct
  have hunit : ∀ x : K, 0 ≤ x → x ≤ 1 → IsFinite x := fun x h0 h1 =>
    isFinite_of_le isFinite_zero isFinite_one h0 h1
  have hweight : ∀ x : K, 0 ≤ x → x ≤ 1 → IsFinite (g.orthogonalityWeight * x) := fun x h0 h1 =>
    isFinite_of_le isFinite_zero hproduct (mul_nonneg hwf (hunit x h0 h1) hw h0)
      (mul_le_mul_left hwf (hunit x h0 h1) isFinite_one hw h1)
  have hvalue : ∀ x : K, 0 ≤ x → x ≤ 1 → IsFinite (efficacy + g.orthogonalityWeight * x) :=
    fun x h0 h1 => isFinite_of_le hef hsum
      (le_add hef (hweight x h0 h1) (mul_nonneg hwf (hunit x h0 h1) hw h0))
      (add_le_add_left hef (hweight x h0 h1) hproduct
        (mul_le_mul_left hwf (hunit x h0 h1) isFinite_one hw h1))
  have ha1 := le_trans hab hb
  have hb0 := le_trans ha hab
  exact mul_le_mul_left hsf (hvalue a ha ha1) (hvalue b hb0 hb) hs
    (add_le_add_left hef (hweight a ha ha1) (hweight b hb0 hb)
      (mul_le_mul_left hwf (hunit a ha ha1) (hunit b hb0 hb) hw hab))

theorem isFinite_score (hw : 0 ≤ g.orthogonalityWeight) (hs : 0 ≤ scorefactor)
    (h1 : IsFinite (g.score scorefactor efficacy 1)) (ha : 0 ≤ a) (hab : a ≤ b) (hb : b ≤ 1)
    (h : IsFinite (g.score scorefactor efficacy a)) : IsFinite (g.score scorefactor efficacy b) :=
  isFinite_of_le h h1 (score_mono hw hs h1 ha hab hb)
    (score_mono hw hs h1 (le_trans ha hab) hb GradedScalar.one_le_one)

end Settings
end CutSelection
