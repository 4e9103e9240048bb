import CutSelection.Scalar
import CutSelection.Fault

/-!
Vectors that store their nonzero entries only, sorted by index, together with their length. All
sums over a vector run through its entries from the left.
-/

namespace CutSelection

open Scalar

/-- How the length of a vector is measured; the discrete norm counts the entries. -/
inductive Norm
  | euclidean
  | maximum
  | sum
  | discrete
  deriving DecidableEq

abbrev Entry (K : Type) := Nat × K

/-- Each index once and in order, all of them below the length, and no entry is zero. -/
def SparseVector.WellFormed {K : Type} [Scalar K] (entries : List (Entry K)) (length : Nat) :
    Prop :=
  entries.Pairwise (fun e f => e.1 < f.1) ∧ (∀ e ∈ entries, e.1 < length) ∧
    ∀ e ∈ entries, ¬IsZero e.2

instance {K : Type} [Scalar K] (entries : List (Entry K)) (length : Nat) :
    Decidable (SparseVector.WellFormed entries length) := inferInstanceAs (Decidable (_ ∧ _ ∧ _))

structure SparseVector (K : Type) [Scalar K] where
  entries : List (Entry K)
  length : Nat
  wellFormed : SparseVector.WellFormed entries length

namespace SparseVector

variable {K : Type} [Scalar K]

theorem sorted (v : SparseVector K) : v.entries.Pairwise (fun e f => e.1 < f.1) := v.wellFormed.1

theorem lt_length (v : SparseVector K) {e : Entry K} (h : e ∈ v.entries) : e.1 < v.length :=
  v.wellFormed.2.1 e h

theorem not_isZero (v : SparseVector K) {e : Entry K} (h : e ∈ v.entries) : ¬IsZero e.2 :=
  v.wellFormed.2.2 e h

def ofEntries (entries : List (Entry K)) (length : Nat) : Except Fault (SparseVector K) :=
  if h : WellFormed entries length then .ok ⟨entries, length, h⟩
  else .error (.violation .malformedVector)

def nonzeros (values : List K) : List (Entry K) :=
  values.zipIdx.filterMap fun a => if IsZero a.1 then none else some (a.2, a.1)

theorem mem_nonzeros {values : List K} {e : Entry K} :
    e ∈ nonzeros values ↔ values[e.1]? = some e.2 ∧ ¬IsZero e.2 := by
  simp only [nonzeros, List.mem_filterMap, List.mem_zipIdx_iff_getElem?]
  constructor
  · rintro ⟨a, ha, he⟩
    split at he
    · cases he
    · rename_i hz
      cases he
      exact ⟨ha, hz⟩
  · rintro ⟨he, hz⟩
    exact ⟨(e.2, e.1), he, by simp [hz]⟩

theorem nonzeros_wellFormed (values : List K) : WellFormed (nonzeros values) values.length := by
  refine ⟨?_, fun e he => ?_, fun e he => (mem_nonzeros.mp he).2⟩
  · refine List.Pairwise.filterMap _ (R := fun a b => a.2 < b.2) ?_ ?_
    · intro a b hab e he f hf
      split at he <;> split at hf <;> simp_all
      cases he
      cases hf
      exact hab
    · rw [← List.pairwise_map (f := Prod.snd) (R := (· < ·)), List.zipIdx_map_snd]
      exact List.pairwise_lt_range'
  · exact (List.getElem?_eq_some_iff.mp (mem_nonzeros.mp he).1).1

def ofDense (values : List K) : SparseVector K :=
  ⟨nonzeros values, values.length, nonzeros_wellFormed values⟩

@[simp] theorem length_ofDense (values : List K) : (ofDense values).length = values.length := rfl

def nonzeroCount (v : SparseVector K) : Nat := v.entries.length

/-- The entry at an index below the length, none if it is zero. -/
def get (v : SparseVector K) (index : Nat) : Except Fault (Option K) :=
  if index < v.length then .ok (v.entries.lookup index)
  else .error (.violation .indexBeyondLength)

/-- The pairs of values that two sorted lists of entries hold at a common index. -/
def common : List (Entry K) → List (Entry K) → List (K × K)
  | [], _ => []
  | e :: left, right =>
    match right.dropWhile (·.1 < e.1) with
    | [] => []
    | f :: right =>
      if e.1 = f.1 then (e.2, f.2) :: common left right else common left (f :: right)

def innerProduct (v w : SparseVector K) : K :=
  sum ((common v.entries w.entries).map fun p => p.1 * p.2)

def innerProductWithDense (v : SparseVector K) (point : List K) : Except Fault K :=
  match v.entries.mapM fun e => point[e.1]?.map (e.2 * ·) with
  | some products => .ok (sum products)
  | none => .error (.violation .pointTooShort)

def squaredNorm (v : SparseVector K) : K := sum (v.entries.map fun e => e.2 * e.2)

def norm (v : SparseVector K) : K := sqrt v.squaredNorm

def maxNorm (v : SparseVector K) : K := (v.entries.map fun e => Scalar.abs e.2).foldl maximum 0

def sumNorm (v : SparseVector K) : K := sum (v.entries.map fun e => Scalar.abs e.2)

def normBy (v : SparseVector K) : Norm → K
  | .euclidean => v.norm
  | .maximum => v.maxNorm
  | .sum => v.sumNorm
  | .discrete => v.nonzeroCount

def agree : List (Entry K) → List (Entry K) → Bool
  | [], [] => true
  | e :: left, f :: right => e.1 = f.1 && Same e.2 f.2 && agree left right
  | _, _ => false

/-- Equal lengths, and the same entries as the order of the values sees it. -/
def agreesWith (v w : SparseVector K) : Bool := v.length = w.length && agree v.entries w.entries

end SparseVector
end CutSelection
