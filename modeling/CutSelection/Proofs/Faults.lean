import CutSelection.Proofs.SearchTree
import CutSelection.Proofs.Steps
import CutSelection.Proofs.Storage

/-!
Faults that end a run. A run goes on after a misuse and after a refusal by the LP, which are decided
before anything is computed. Everything that is computed fails for good or not at all.
-/

namespace CutSelection

/-- A fault of the operation leaves no usable state behind. -/
def FailsForGood {α : Type} (r : Except Fault α) : Prop := ∀ f, r = .error f → ¬f.IsRecoverable

section

variable {α β : Type} {r : Except Fault α}

theorem failsForGood_ok (a : α) : FailsForGood (.ok a : Except Fault α) := fun _ h => by cases h

theorem failsForGood_error {f : Fault} (h : ¬f.IsRecoverable) :
    FailsForGood (.error f : Except Fault α) := fun _ he => Except.error.inj he ▸ h

theorem FailsForGood.bind (h : FailsForGood r) {next : α → Except Fault β}
    (hnext : ∀ a, FailsForGood (next a)) : FailsForGood (r >>= next) := by
  cases r with
  | error f => exact failsForGood_error (h f rfl)
  | ok a => exact hnext a

theorem FailsForGood.map (h : FailsForGood r) (f : α → β) : FailsForGood (f <$> r) := by
  cases r with
  | error e => exact failsForGood_error (h e rfl)
  | ok a => exact failsForGood_ok (f a)

theorem goesOn_map_iff {f : α → β} : GoesOn (f <$> r) ↔ GoesOn r := by cases r <;> rfl

end

variable {K : Type}

theorem Domains.failsForGood_get (domains : Domains K) (column : Nat) :
    FailsForGood (domains.get column) := by
  rw [get]
  split
  · exact failsForGood_ok _
  · exact failsForGood_error id

namespace SearchTree

theorem failsForGood_node (tree : SearchTree K) (number : Nat) :
    FailsForGood (tree.node number) := by
  rw [node]
  split
  · exact failsForGood_ok _
  · exact failsForGood_error id

theorem failsForGood_setBound [Scalar K] (tree : SearchTree K) (number column : Nat) (value : K)
    (direction : Direction) : FailsForGood (tree.setBound number column value direction) := by
  refine (tree.failsForGood_node number).bind fun n => ?_
  refine (n.domains.failsForGood_get column).bind fun d => ?_
  split
  · exact failsForGood_ok _
  · exact failsForGood_ok _

end SearchTree

variable [Scalar K]

namespace BoundChange

theorem failsForGood_apply (change : BoundChange K) (tree : SearchTree K) (node : Nat)
    (t : Tolerances K) : FailsForGood (change.apply tree node t) := by
  refine (tree.domains.failsForGood_get change.column).bind fun d => ?_
  dsimp only
  split
  · exact failsForGood_ok _
  · exact (tree.failsForGood_setBound _ _ _ _).bind fun s => failsForGood_ok _

theorem not_isRecoverable_of_applyAll {node : Nat} {t : Tolerances K} {tree : SearchTree K}
    {f : Fault} {changes : List (BoundChange K)}
    (h : (applyAll node t tree changes).fault = some f) :
    ¬f.IsRecoverable := by
  induction changes generalizing tree with
  | nil => cases h
  | cons change changes ih =>
    cases ha : change.apply tree node t with
    | error f' =>
      rw [applyAll_cons_of_error ha] at h
      cases h
      exact change.failsForGood_apply tree node t _ ha
    | ok r =>
      rw [applyAll_cons_of_ok ha] at h
      split at h
      · cases h
      · exact ih h

end BoundChange

namespace Cut

variable (cut : Cut K) (domains : Domains K) (t : Tolerances K)

theorem failsForGood_activity (point : List K) : FailsForGood (cut.activity point) := by
  refine FailsForGood.map ?_ _
  rw [SparseVector.innerProductWithDense]
  split
  · exact failsForGood_ok _
  · exact failsForGood_error id

theorem failsForGood_boundSum (direction : Direction) (total : K) (entries : List (Entry K)) :
    FailsForGood (boundSum domains direction total entries) := by
  induction entries generalizing total with
  | nil => exact failsForGood_ok _
  | cons e entries ih =>
    refine (domains.failsForGood_get e.1).bind fun d => ?_
    split
    · exact failsForGood_ok _
    · exact ih _

theorem failsForGood_lowerSideIsRedundant : FailsForGood (cut.lowerSideIsRedundant domains t) := by
  rw [lowerSideIsRedundant]
  split
  · exact failsForGood_ok _
  · refine (failsForGood_boundSum _ _ _ _).bind fun least => ?_
    cases least <;> exact failsForGood_ok _

theorem failsForGood_upperSideIsRedundant : FailsForGood (cut.upperSideIsRedundant domains t) := by
  rw [upperSideIsRedundant]
  split
  · exact failsForGood_ok _
  · refine (failsForGood_boundSum _ _ _ _).bind fun greatest => ?_
    cases greatest <;> exact failsForGood_ok _

theorem failsForGood_isRedundant : FailsForGood (cut.isRedundant domains t) := by
  rw [isRedundant]
  split
  · exact failsForGood_ok _
  · refine (cut.failsForGood_lowerSideIsRedundant domains t).bind fun lower => ?_
    cases lower
    · exact failsForGood_ok _
    · exact cut.failsForGood_upperSideIsRedundant domains t

theorem failsForGood_boundChanges (e : Entry K) : FailsForGood (cut.boundChanges e domains t) := by
  rw [boundChanges]
  split
  · exact failsForGood_error id
  · exact (domains.failsForGood_get e.1).bind fun d => failsForGood_ok _

end Cut

namespace Storage

variable (s : Storage K) (row : Row K) (scorefactor : K) (solution : List K)

theorem failsForGood_valuation : FailsForGood (s.valuation row scorefactor solution) := by
  rw [valuation]
  split
  · exact failsForGood_ok _
  · exact ((row.failsForGood_activity solution).map _).map _

/-- Once a cut may be submitted, nothing stands in the way of a verdict but a fault that ends the
run. -/
theorem failsForGood_appraise (atRoot : Bool) (domains : Domains K) :
    FailsForGood (s.appraise row scorefactor atRoot solution domains) := by
  by_cases hkept : s.Forces scorefactor ∨ row.isRedundant domains s.settings.tolerances = .ok false
  · rw [appraise_eq_of_kept hkept]
    split
    · exact (row.failsForGood_boundChanges _ _ _).map _
    · exact (s.failsForGood_valuation _ _ _).map _
  · obtain ⟨hforces, hkept⟩ := not_or.mp hkept
    rw [appraise, if_neg hforces]
    cases hr : row.isRedundant domains s.settings.tolerances with
    | error f => exact failsForGood_error (row.failsForGood_isRedundant _ _ f hr)
    | ok redundant =>
      cases redundant with
      | true => exact failsForGood_ok _
      | false => exact absurd hr hkept

end Storage
end CutSelection
