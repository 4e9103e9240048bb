import CutSelection.Storage

/-!
The end of a round: the stored bound changes are applied to the node in focus, the stored cuts enter
the LP by rank, and the storage starts over.
-/

namespace CutSelection

structure ChangesApplied (K : Type) where
  tree : SearchTree K
  outcomes : List (BoundChange K × BoundChange.Outcome)
  fault : Option Fault

namespace ChangesApplied

variable {K : Type}

def count (c : ChangesApplied K) : Nat := c.outcomes.countP (·.2 = .applied)

def infeasible (c : ChangesApplied K) : Bool := c.outcomes.any (·.2 = .infeasible)

def events (c : ChangesApplied K) (node : Nat) : List (Event K) :=
  c.outcomes.map fun o => o.2.event o.1 node

end ChangesApplied

variable {K : Type} [Scalar K]

def BoundChange.applyAll (node : Nat) (t : Tolerances K) (tree : SearchTree K) :
    List (BoundChange K) → ChangesApplied K
  | [] => ⟨tree, [], none⟩
  | change :: changes =>
    match change.apply tree node t with
    | .error f => ⟨tree, [], some f⟩
    | .ok (tree, .infeasible) => ⟨tree, [(change, .infeasible)], none⟩
    | .ok (tree, outcome) =>
      let rest := applyAll node t tree changes
      { rest with outcomes := (change, outcome) :: rest.outcomes }

namespace Storage

/-- Commit a round. The result says whether the node was found infeasible; the rows enter the LP
also then. A row that the LP refuses keeps out the rows ranked below it. Nothing is counted as
applied while the initial LP is built. -/
def applyCuts (s : Storage K) (lp : Relaxation K) (tree : SearchTree K) :
    Reply K (Storage K × Relaxation K × SearchTree K) Bool :=
  let changes := BoundChange.applyAll tree.focus s.settings.tolerances tree s.boundChanges
  match changes.fault with
  | some f => ⟨(s, lp, changes.tree), changes.events tree.focus, .error f⟩
  | none =>
    let depth := tree.focusNode.depth
    let rows := lp.addRows depth (s.cuts.map (·.row))
    let statistics :=
      if s.initialLp then s.statistics
      else s.statistics.countApplied rows.added.length changes.count
    let (s, ended) := { s with statistics := statistics }.endRound .applied
    ⟨(s, rows.relaxation, changes.tree),
      changes.events tree.focus ++ rows.added.map (fun row => .rowAdded row.name depth) ++ [ended],
      match rows.refusal with
      | some r => .error (.refusal r)
      | none => .ok changes.infeasible⟩

end Storage
end CutSelection
