import CutSelection.Domain

/-!
The search tree: nodes in order of creation, each with its own bounds, and the node in focus. A
child starts with the bounds that its parent has at that time.
-/

namespace CutSelection

structure Node (K : Type) where
  parent : Option Nat
  depth : Nat
  domains : Domains K
  infeasible : Bool

structure SearchTree (K : Type) where
  nodes : List (Node K)
  focus : Nat
  focus_lt : focus < nodes.length

namespace SearchTree

variable {K : Type}

def root : Nat := 0

def ofRoot (domains : Domains K) : SearchTree K :=
  ⟨[⟨none, 0, domains, false⟩], root, Nat.zero_lt_one⟩

def node (tree : SearchTree K) (number : Nat) : Except Fault (Node K) :=
  match tree.nodes[number]? with
  | some n => .ok n
  | none => .error (.unknownNode number)

def focusNode (tree : SearchTree K) : Node K := tree.nodes.get ⟨tree.focus, tree.focus_lt⟩

def domains (tree : SearchTree K) : Domains K := tree.focusNode.domains

def nextNumber (tree : SearchTree K) : Nat := tree.nodes.length

def createChild (tree : SearchTree K) (parent : Nat) : Except Fault (SearchTree K) := do
  let n ← tree.node parent
  .ok ⟨tree.nodes ++ [⟨some parent, n.depth + 1, n.domains, false⟩], tree.focus, by
    have := tree.focus_lt
    simp only [List.length_append, List.length_singleton]
    omega⟩

def focusOn (tree : SearchTree K) (number : Nat) : Except Fault (SearchTree K) :=
  if h : number < tree.nodes.length then .ok ⟨tree.nodes, number, h⟩
  else .error (.violation .unknownFocus)

def setNode (tree : SearchTree K) (number : Nat) (n : Node K) : SearchTree K :=
  ⟨tree.nodes.set number n, tree.focus, by simpa using tree.focus_lt⟩

@[simp] theorem nodes_setNode (tree : SearchTree K) (number : Nat) (n : Node K) :
    (tree.setNode number n).nodes = tree.nodes.set number n := rfl

@[simp] theorem focus_setNode (tree : SearchTree K) (number : Nat) (n : Node K) :
    (tree.setNode number n).focus = tree.focus := rfl

/-- Set a bound at a node. If it crosses the opposite bound, the node is marked infeasible instead
and its bounds stay; the second component says whether that happened. -/
def setBound [Scalar K] (tree : SearchTree K) (number column : Nat) (value : K)
    (direction : Direction) : Except Fault (SearchTree K × Bool) := do
  let n ← tree.node number
  let domain ← n.domains.get column
  if domain.IsCrossedBy direction value then
    .ok (tree.setNode number { n with infeasible := true }, true)
  else
    let domains := n.domains.set column (domain.setBound value direction)
    .ok (tree.setNode number { n with domains := domains }, false)

end SearchTree
end CutSelection
