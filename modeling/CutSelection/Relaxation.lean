import CutSelection.Cut

/-!
The LP relaxation: the solution of the last solve, and the rows that were added, each with the depth
of the node it was added at. A table from row numbers to positions answers whether a row is in the
LP, and where.
-/

namespace CutSelection

structure LpRow (K : Type) [Scalar K] where
  row : Row K
  depth : Nat

structure Relaxation (K : Type) [Scalar K] where
  solution : List K
  rows : List (LpRow K)
  positions : List (Nat × Nat)

structure RowsAdded (K : Type) [Scalar K] where
  relaxation : Relaxation K
  added : List (Row K)
  refusal : Option Refusal

namespace Relaxation

variable {K : Type} [Scalar K]

def ofSolution (solution : List K) : Relaxation K := ⟨solution, [], []⟩

def variableCount (lp : Relaxation K) : Nat := lp.solution.length

def position (lp : Relaxation K) (row : Nat) : Option Nat := lp.positions.lookup row

def Contains (lp : Relaxation K) (row : Row K) : Prop := (lp.position row.number).isSome

instance (lp : Relaxation K) (row : Row K) : Decidable (lp.Contains row) :=
  inferInstanceAs (Decidable (_ = true))

def setSolution (lp : Relaxation K) (solution : List K) : Except Fault (Relaxation K) :=
  if solution.length = lp.variableCount then .ok { lp with solution := solution }
  else .error (.violation .solutionLength)

/-- Append a row that is not in the LP yet and has no more columns than the LP has variables. -/
def addRow (lp : Relaxation K) (row : Row K) (depth : Nat) : Except Refusal (Relaxation K) :=
  if lp.Contains row then .error (.alreadyInLp row.name)
  else if lp.variableCount < row.coefficients.length then
    .error (.tooManyColumns row.name row.coefficients.length lp.variableCount)
  else
    .ok { lp with
      rows := lp.rows ++ [⟨row, depth⟩]
      positions := (row.number, lp.rows.length) :: lp.positions }

theorem position_addRow {lp lp' : Relaxation K} {row : Row K} {depth : Nat}
    (h : lp.addRow row depth = .ok lp') (number : Nat) :
    lp'.position number =
      if number = row.number then some lp.rows.length else lp.position number := by
  unfold addRow at h
  split at h
  · cases h
  · split at h
    · cases h
    · cases h
      by_cases hn : number = row.number
      · simp [position, hn]
      · simp [position, List.lookup_cons, beq_false_of_ne hn, hn]

/-- Append rows until one is refused. Rows that are in the LP by then are passed over. -/
def addRows (depth : Nat) (lp : Relaxation K) : List (Row K) → RowsAdded K
  | [] => ⟨lp, [], none⟩
  | row :: rows =>
    if lp.Contains row then addRows depth lp rows
    else match lp.addRow row depth with
      | .error r => ⟨lp, [], some r⟩
      | .ok lp =>
        let rest := addRows depth lp rows
        { rest with added := row :: rest.added }

def numbering (rows : List (LpRow K)) : List (Nat × Nat) :=
  rows.zipIdx.map fun r => (r.1.row.number, r.2)

/-- Backtrack: keep the rows that were added at a depth or above it. The other ones lose their
positions, and the kept ones close the gaps. -/
def removeRowsBelow (lp : Relaxation K) (depth : Nat) : Relaxation K :=
  let kept := lp.rows.filter (·.depth ≤ depth)
  let dropped := lp.rows.filter (depth < ·.depth)
  let others := lp.positions.filter fun p => ∀ r ∈ dropped, r.row.number ≠ p.1
  { lp with rows := kept, positions := numbering kept ++ others }

end Relaxation
end CutSelection
