import CutSelection.Cut

/-!
What orthogonality relies on in the scalars: products commute, orthogonalities lie between zero and
one, and comparing them with a threshold of at most one is monotone. Exact arithmetic has these
properties, and so has floating point, whatever the coefficients are.
-/

namespace CutSelection

open Scalar

/-- Scalars whose values between zero and one can be compared with a threshold. -/
class GradedScalar (K : Type) [Scalar K] : Prop where
  mul_comm (a b : K) : a * b = b * a
  zero_le_one : (0 : K) ≤ 1
  one_le_one : (1 : K) ≤ 1
  /-- A cosine that is not a number counts as one. -/
  maximum_nonneg (a : K) : 0 ≤ maximum (1 - abs a) 0
  maximum_le_one (a : K) : maximum (1 - abs a) 0 ≤ 1
  not_isLt_one {t : Tolerances K} {m : K} : 0 ≤ t.epsilon → m ≤ 1 → ¬t.IsLt 1 m
  isLt_of_le {t : Tolerances K} {a b m : K} : 0 ≤ t.epsilon → m ≤ 1 → 0 ≤ a → a ≤ b → b ≤ 1 →
    t.IsLt b m → t.IsLt a m

namespace SparseVector

variable {K : Type}

@[simp] theorem common_nil_right (left : List (Entry K)) : common left [] = [] := by
  cases left <;> rfl

theorem common_cons_cons (e f : Entry K) (left right : List (Entry K)) :
    common (e :: left) (f :: right) =
      if e.1 < f.1 then common left (f :: right)
      else if f.1 < e.1 then common (e :: left) right
      else (e.2, f.2) :: common left right := by
  rcases Nat.lt_trichotomy e.1 f.1 with h | h | h
  · have hf : ¬f.1 < e.1 := by omega
    simp [common, h, hf, Nat.ne_of_lt h]
  · simp [common, h]
  · have he : ¬e.1 < f.1 := by omega
    simp [common, h, he]

theorem common_swap (left right : List (Entry K)) :
    common right left = (common left right).map Prod.swap := by
  induction left generalizing right with
  | nil => simp [common]
  | cons e left ihl =>
    induction right with
    | nil => simp [common]
    | cons f right ihr =>
      rw [common_cons_cons, common_cons_cons]
      rcases Nat.lt_trichotomy e.1 f.1 with h | h | h
      · rw [if_neg (by omega), if_pos h, if_pos h, ihl]
      · rw [if_neg (by omega), if_neg (by omega), if_neg (by omega), if_neg (by omega), ihl]
        rfl
      · rw [if_pos h, if_neg (by omega), if_pos h, ihr]

variable [Scalar K] [GradedScalar K]

theorem innerProduct_comm (v w : SparseVector K) : v.innerProduct w = w.innerProduct v := by
  rw [innerProduct, innerProduct, common_swap v.entries w.entries, List.map_map]
  congr 2
  funext p
  exact GradedScalar.mul_comm _ _

end SparseVector

namespace Cut

variable {K : Type} [Scalar K] [GradedScalar K]

theorem orthogonality_comm (a b : Cut K) : a.orthogonality b = b.orthogonality a := by
  simp only [orthogonality]
  rw [GradedScalar.mul_comm a.coefficients.norm, SparseVector.innerProduct_comm]

theorem orthogonality_nonneg (a b : Cut K) : 0 ≤ a.orthogonality b := by
  unfold orthogonality
  dsimp only
  split
  · exact GradedScalar.zero_le_one
  · exact GradedScalar.maximum_nonneg _

theorem orthogonality_le_one (a b : Cut K) : a.orthogonality b ≤ 1 := by
  unfold orthogonality
  dsimp only
  split
  · exact GradedScalar.one_le_one
  · exact GradedScalar.maximum_le_one _

end Cut
end CutSelection
