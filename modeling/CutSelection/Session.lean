import CutSelection.Commit

/-!
A storage at work: a catalogue of rows that cuts are submitted from, the relaxation they enter, the
search tree whose bounds they change, and the steps of a solver on all of these.
-/

namespace CutSelection

structure Session (K : Type) [Scalar K] where
  catalogue : List (Cut K)
  storage : Storage K
  relaxation : Relaxation K
  tree : SearchTree K

/-- A node left open is the one in focus. -/
inductive Action (K : Type)
  | add (row : Nat) (scorefactor : K) (atRoot : Bool)
  | apply
  | clear
  | startInitialLp
  | endInitialLp
  | createChild (parent : Nat)
  | focusOn (node : Nat)
  | setBound (node : Option Nat) (column : Nat) (value : K) (direction : Direction)
  | change (node : Option Nat) (change : BoundChange K)
  | setSolution (solution : List K)
  | addRow (row depth : Nat)
  | removeRows (depth : Nat)

inductive Answer
  | admitted (a : Admission)
  | committed (infeasible : Bool)
  | node (number : Nat)
  | bound (crosses : Bool)
  | changed (outcome : BoundChange.Outcome)
  | removed (count : Nat)
  | done
  deriving DecidableEq

namespace Session

variable {K : Type} [Scalar K]

def start (catalogue : List (Cut K)) (settings : Settings K) (solution : List K)
    (domains : Domains K) : Session K where
  catalogue := catalogue
  storage := { settings := settings }
  relaxation := .ofSolution solution
  tree := .ofRoot domains

def row (s : Session K) (number : Nat) : Except Fault (Row K) :=
  match s.catalogue[number]? with
  | some cut => .ok ⟨cut, number⟩
  | none => .error (.unknownRow number)

def quiet (s : Session K) : Except Fault (Session K × Answer) → Reply K (Session K) Answer
  | .ok (s, answer) => ⟨s, [], .ok answer⟩
  | .error f => ⟨s, [], .error f⟩

def add (s : Session K) (row : Row K) (scorefactor : K) (atRoot : Bool) :
    Reply K (Session K) Answer :=
  let r := s.storage.addCut row scorefactor atRoot s.relaxation s.tree.domains
  ⟨{ s with storage := r.state }, r.events, .admitted <$> r.result⟩

def apply (s : Session K) : Reply K (Session K) Answer :=
  let r := s.storage.applyCuts s.relaxation s.tree
  let (storage, relaxation, tree) := r.state
  ⟨{ s with storage := storage, relaxation := relaxation, tree := tree }, r.events,
    .committed <$> r.result⟩

def clear (s : Session K) : Reply K (Session K) Answer :=
  let r := s.storage.clear
  ⟨{ s with storage := r.state }, r.events, .ok .done⟩

def switchPhase (s : Session K) : Except Misuse (Storage K) → Except Fault (Session K × Answer)
  | .ok storage => .ok ({ s with storage := storage }, .done)
  | .error m => .error (.misuse m)

def addRow (s : Session K) (row : Row K) (depth : Nat) : Except Fault (Session K × Answer) :=
  match s.relaxation.addRow row depth with
  | .ok lp => .ok ({ s with relaxation := lp }, .done)
  | .error r => .error (.refusal r)

def removeRows (s : Session K) (depth : Nat) : Reply K (Session K) Answer :=
  let lp := s.relaxation.removeRowsBelow depth
  let removed := s.relaxation.rows.length - lp.rows.length
  ⟨{ s with relaxation := lp }, if 0 < removed then [.rowsRemoved removed depth] else [],
    .ok (.removed removed)⟩

def perform (s : Session K) : Action K → Reply K (Session K) Answer
  | .add number scorefactor atRoot =>
    match s.row number with
    | .error f => ⟨s, [], .error f⟩
    | .ok row => s.add row scorefactor atRoot
  | .apply => s.apply
  | .clear => s.clear
  | .startInitialLp => s.quiet (s.switchPhase s.storage.startInitialLp)
  | .endInitialLp => s.quiet (s.switchPhase s.storage.endInitialLp)
  | .createChild parent => s.quiet do
    let tree ← s.tree.createChild parent
    .ok ({ s with tree := tree }, .node s.tree.nextNumber)
  | .focusOn node => s.quiet do
    let tree ← s.tree.focusOn node
    .ok ({ s with tree := tree }, .node tree.focus)
  | .setBound node column value direction => s.quiet do
    let (tree, crosses) ← s.tree.setBound (node.getD s.tree.focus) column value direction
    .ok ({ s with tree := tree }, .bound crosses)
  | .change node change => s.quiet do
    let (tree, outcome) ←
      change.apply s.tree (node.getD s.tree.focus) s.storage.settings.tolerances
    .ok ({ s with tree := tree }, .changed outcome)
  | .setSolution solution => s.quiet do
    let lp ← s.relaxation.setSolution solution
    .ok ({ s with relaxation := lp }, .done)
  | .addRow number depth => s.quiet do
    let row ← s.row number
    s.addRow row depth
  | .removeRows depth => s.removeRows depth

/-- Perform steps one after the other and keep all replies. A fault that leaves no usable state is
the last one. -/
def run (s : Session K) : List (Action K) → List (Reply K (Session K) Answer)
  | [] => []
  | action :: actions =>
    let r := s.perform action
    match r.result with
    | .error f => if f.IsRecoverable then r :: run r.state actions else [r]
    | .ok _ => r :: run r.state actions

end Session
end CutSelection
