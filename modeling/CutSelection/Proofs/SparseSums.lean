import Mathlib.Data.List.Basic
import CutSelection.Proofs.ScoreOrder

/-!
Sums over the entries of sparse vectors. A vector that is merged with another one is looked up at
each of its own indices; a term that is zero may as well be left out of a sum, in floating point too
as long as the sum so far is no negative zero.
-/

namespace CutSelection

open Scalar

/-- Adding a zero, of either sign if there are two, does not change the value. -/
def Scalar.AbsorbsZeros {K : Type} [Scalar K] (a : K) : Prop := ∀ z : K, IsZero z → a + z = a

/-- Scalars whose sums do not depend on terms that are zero. A product with a value that is not
finite need not be zero. -/
class SparseScalar (K : Type) [Scalar K] extends OrderedScalar K where
  absorbsZeros_zero : AbsorbsZeros (0 : K)
  absorbsZeros_add {a b : K} : AbsorbsZeros a → AbsorbsZeros (a + b)
  isZero_mul {a b : K} : IsFinite a → IsZero b → IsZero (a * b)

namespace SparseVector

section Lookup

variable {K : Type} {e : Entry K} {entries left right : List (Entry K)} {i : Nat} {a : K}

theorem lookup_cons_of_eq (h : i = e.1) : (e :: entries).lookup i = some e.2 := by
  obtain ⟨j, b⟩ := e
  simp [h]

theorem lookup_cons_of_ne (h : i ≠ e.1) : (e :: entries).lookup i = entries.lookup i := by
  obtain ⟨j, b⟩ := e
  have hj : (i == j) = false := beq_false_of_ne h
  rw [List.lookup_cons, hj]

theorem lookup_of_forall_ne (h : ∀ e ∈ entries, i ≠ e.1) : entries.lookup i = none :=
  List.lookup_eq_none_iff.mpr fun e he => bne_iff_ne.mpr (h e he)

theorem lookup_eq_some_iff (h : entries.Pairwise fun e f => e.1 < f.1) :
    entries.lookup i = some a ↔ (i, a) ∈ entries := by
  induction entries with
  | nil => simp
  | cons e entries ih =>
    rw [List.pairwise_cons] at h
    rw [List.mem_cons]
    by_cases hi : i = e.1
    · have hrest : (i, a) ∉ entries := fun hm => Nat.ne_of_gt (h.1 (i, a) hm) hi
      rw [lookup_cons_of_eq hi, or_iff_left hrest, Prod.ext_iff, and_iff_right hi,
        Option.some_inj, eq_comm]
    · have hne : (i, a) ≠ e := fun he => hi (congrArg Prod.fst he)
      rw [lookup_cons_of_ne hi, ih h.2]
      simp [hne]

/-- The merge finds what looking up each index of the left vector in the right one finds. -/
theorem common_eq_filterMap (hl : left.Pairwise fun e f => e.1 < f.1)
    (hr : right.Pairwise fun e f => e.1 < f.1) :
    common left right = left.filterMap fun e => (right.lookup e.1).map fun b => (e.2, b) := by
  induction left generalizing right with
  | nil => rfl
  | cons e left ihl =>
    rw [List.pairwise_cons] at hl
    induction right with
    | nil => simp
    | cons f right ihr =>
      have hr' := List.pairwise_cons.mp hr
      rw [common_cons_cons]
      rcases Nat.lt_trichotomy e.1 f.1 with h | h | h
      · have hnone : (f :: right).lookup e.1 = none :=
          lookup_of_forall_ne <| List.forall_mem_cons.mpr
            ⟨Nat.ne_of_lt h, fun g hg => Nat.ne_of_lt (Nat.lt_trans h (hr'.1 g hg))⟩
        rw [if_pos h, ihl hl.2 hr, List.filterMap_cons, hnone]
        rfl
      · rw [if_neg (by omega), if_neg (by omega), ihl hl.2 hr'.2, List.filterMap_cons,
          lookup_cons_of_eq h]
        refine congrArg _ (List.filterMap_congr fun g hg => ?_)
        rw [lookup_cons_of_ne (Nat.ne_of_gt (h ▸ hl.1 g hg))]
      · have hlt : ∀ g ∈ e :: left, f.1 < g.1 :=
          List.forall_mem_cons.mpr ⟨h, fun g hg => Nat.lt_trans h (hl.1 g hg)⟩
        rw [if_neg (by omega), if_pos h, ihr hr'.2]
        refine List.filterMap_congr fun g hg => ?_
        rw [lookup_cons_of_ne (Nat.ne_of_gt (hlt g hg))]

end Lookup

variable {K : Type} [Scalar K]

theorem innerProduct_eq (v w : SparseVector K) : v.innerProduct w =
    sum (v.entries.filterMap fun e => (w.entries.lookup e.1).map fun b => e.2 * b) := by
  rw [innerProduct, common_eq_filterMap v.sorted w.sorted, List.map_filterMap]
  simp only [Option.map_map]
  rfl

theorem innerProductWithDense_eq {v : SparseVector K} {point : List K} (value : Nat → K)
    (h : ∀ e ∈ v.entries, point[e.1]? = some (value e.1)) :
    v.innerProductWithDense point = .ok (sum (v.entries.map fun e => e.2 * value e.1)) := by
  have hproducts : ∀ entries : List (Entry K), (∀ e ∈ entries, point[e.1]? = some (value e.1)) →
      entries.mapM (fun e => point[e.1]?.map (e.2 * ·)) =
        some (entries.map fun e => e.2 * value e.1) := by
    intro entries
    induction entries with
    | nil => simp
    | cons e entries ih =>
      intro h
      rw [List.forall_mem_cons] at h
      rw [List.mapM_cons, ih h.2, h.1]
      rfl
  rw [innerProductWithDense, hproducts v.entries h]

variable [SparseScalar K]

theorem sum_filterMap {entries : List (Entry K)} {kept : Entry K → Option K} {term : Entry K → K}
    (hkept : ∀ e ∈ entries, ∀ a ∈ kept e, term e = a)
    (hleft : ∀ e ∈ entries, kept e = none → IsZero (term e)) :
    sum (entries.filterMap kept) = sum (entries.map term) := by
  have hfold : ∀ start : K, AbsorbsZeros start →
      (entries.filterMap kept).foldl (· + ·) start = (entries.map term).foldl (· + ·) start := by
    induction entries with
    | nil => exact fun _ _ => rfl
    | cons e entries ih =>
      intro start hstart
      rw [List.forall_mem_cons] at hkept hleft
      rw [List.map_cons, List.foldl_cons, List.filterMap_cons]
      cases hk : kept e with
      | none =>
        rw [hstart _ (hleft.1 hk)]
        exact ih hkept.2 hleft.2 start hstart
      | some a =>
        rw [List.foldl_cons, hkept.1 a hk]
        exact ih hkept.2 hleft.2 _ (SparseScalar.absorbsZeros_add hstart)
  exact hfold 0 SparseScalar.absorbsZeros_zero

end SparseVector
end CutSelection
