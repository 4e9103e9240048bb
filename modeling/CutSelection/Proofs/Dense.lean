import CutSelection.Proofs.Binary64.Zeros

/-!
Sparse vectors made from dense ones. Nothing but the zeros is lost, and the inner product that
merges indices is the one that scans the dense values: the products with a zero that the scan adds
and the merge skips make no difference.
-/

namespace CutSelection
namespace SparseVector

open Scalar

variable {K : Type} [Scalar K]

theorem length_le_of_wellFormed {entries : List (Entry K)} {length : Nat}
    (h : WellFormed entries length) : entries.length ≤ length := by
  have hnodup : (entries.map Prod.fst).Nodup :=
    List.pairwise_map.mpr (h.1.imp fun hlt => Nat.ne_of_lt hlt)
  have hsubset : entries.map Prod.fst ⊆ List.range length := by
    intro i hi
    obtain ⟨e, he, rfl⟩ := List.mem_map.mp hi
    exact List.mem_range.mpr (h.2.1 e he)
  simpa using (List.subperm_of_subset hnodup hsubset).length_le

theorem lookup_nonzeros (values : List K) (i : Nat) :
    (nonzeros values).lookup i = values[i]?.filter fun a => ¬IsZero a := by
  ext a
  rw [lookup_eq_some_iff (nonzeros_wellFormed values).1, mem_nonzeros, Option.filter_eq_some_iff]
  simp

theorem lookup_ofDense {values : List K} {i : Nat} (h : i < values.length) :
    (ofDense values).entries.lookup i = if IsZero values[i] then none else some values[i] := by
  rw [ofDense, lookup_nonzeros, List.getElem?_eq_getElem h, Option.filter_some]
  by_cases hz : IsZero values[i] <;> simp [hz]

theorem innerProductWithDense_ofDense [SparseScalar K] {v : SparseVector K} {values : List K}
    (hlength : v.length ≤ values.length) (hfinite : ∀ e ∈ v.entries, OrderedScalar.IsFinite e.2) :
    v.innerProductWithDense values = .ok (v.innerProduct (ofDense values)) := by
  have hlt : ∀ e ∈ v.entries, e.1 < values.length := fun e he =>
    (v.lt_length he).trans_le hlength
  have hvalue : ∀ e ∈ v.entries, values[e.1]? = some (values.getD e.1 0) := by
    intro e he
    rw [List.getD_eq_getElem _ _ (hlt e he), List.getElem?_eq_getElem (hlt e he)]
  rw [innerProductWithDense_eq (fun i => values.getD i 0) hvalue, innerProduct_eq]
  refine congrArg _ (sum_filterMap (fun e he a ha => ?_) fun e he hnone => ?_).symm
  · rw [lookup_ofDense (hlt e he)] at ha
    rw [List.getD_eq_getElem _ _ (hlt e he)]
    split at ha <;> cases ha
    rfl
  · rw [lookup_ofDense (hlt e he)] at hnone
    rw [List.getD_eq_getElem _ _ (hlt e he)]
    split at hnone
    · exact SparseScalar.isZero_mul (hfinite e he) ‹_›
    · cases hnone

/-- Sparse and dense agree, in exact arithmetic and in floating point. Collecting a dense list meets
every condition on sparse vectors and stores each value but the zeros. Merging the result with a
sparse vector that is no longer gives, from either side, what scanning the dense list gives. -/
theorem sparse_agrees_with_dense [SparseScalar K] (values : List K) :
    (WellFormed (nonzeros values) values.length ∧ (nonzeros values).length ≤ values.length ∧
      ofEntries (nonzeros values) values.length = .ok (ofDense values)) ∧
    (ofDense values).length = values.length ∧
    (∀ (i : Nat) (h : i < values.length),
      (ofDense values).get i = .ok (if IsZero values[i] then none else some values[i])) ∧
    ∀ v : SparseVector K, v.length ≤ values.length →
      (∀ e ∈ v.entries, OrderedScalar.IsFinite e.2) →
      v.innerProductWithDense values = .ok (v.innerProduct (ofDense values)) ∧
      v.innerProduct (ofDense values) = (ofDense values).innerProduct v := by
  have hformed := nonzeros_wellFormed values
  refine ⟨⟨hformed, length_le_of_wellFormed hformed, dif_pos hformed⟩, rfl, ?_, ?_⟩
  · intro i h
    rw [get, length_ofDense, if_pos h, lookup_ofDense h]
  · intro v hlength hfinite
    exact ⟨innerProductWithDense_ofDense hlength hfinite, innerProduct_comm v _⟩

/-- Values with zeros of both signs, and a shorter vector that skips some of them. -/
def signedZeros : List Float := [0.5, -0, 0.1, 0, -3, 0]

def gapped : SparseVector Float := ⟨[(1, -2), (2, 0.2), (4, 0.1)], 5, by decide +kernel⟩

theorem sparse_agrees_with_dense_signedZeros :
    (ofDense signedZeros).get 1 = .ok none ∧ (ofDense signedZeros).get 2 = .ok (some 0.1) ∧
    gapped.innerProductWithDense signedZeros = .ok (gapped.innerProduct (ofDense signedZeros)) := by
  obtain ⟨-, -, hget, hproduct⟩ := sparse_agrees_with_dense signedZeros
  refine ⟨?_, ?_, (hproduct gapped (by decide) (by decide +kernel)).1⟩
  · rw [hget 1 (by decide), if_pos (by decide +kernel)]
  · rw [hget 2 (by decide), if_neg (by decide +kernel)]
    rfl

end SparseVector
end CutSelection
