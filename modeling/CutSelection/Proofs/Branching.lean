import CutSelection.Proofs.History
import CutSelection.Proofs.Binary64.Ordered
import CutSelection.Proofs.Ranking.Diversity
import CutSelection.Proofs.SearchTree

/-!
The search tree over whole runs. Nodes hang below the root by links that lead to older nodes, no two
bounds of a variable cross, and a node is marked infeasible exactly if a change of a bound at it was
found to cross the opposite one. Bounds change only where a change asks for it, so that nodes do not
see what happens to their parents and children.
-/

namespace CutSelection

variable {K : Type}

namespace Domain

theorem bound_setBound_eq (d : Domain K) (value : K) (direction other : Direction) :
    (d.setBound value direction).bound other =
      if other = direction then some value else d.bound other := by
  cases direction <;> cases other <;> rfl

variable [Scalar K] {d : Domain K} {value : K} {direction : Direction}

def LeavesRoom (d : Domain K) : Prop := ∀ lower ∈ d.lower, ∀ upper ∈ d.upper, ¬upper < lower

theorem isCrossedBy_iff : d.IsCrossedBy direction value ↔
    ∃ opposite ∈ d.bound direction.opposite, direction.Crosses value opposite := by
  rw [IsCrossedBy]
  cases d.bound direction.opposite <;> simp

theorem leavesRoom_setBound (hc : ¬d.IsCrossedBy direction value) :
    (d.setBound value direction).LeavesRoom := by
  intro lower hlower upper hupper hlt
  cases direction with
  | lower =>
    cases hlower
    exact hc (isCrossedBy_iff.mpr ⟨upper, hupper, hlt⟩)
  | upper =>
    cases hupper
    exact hc (isCrossedBy_iff.mpr ⟨lower, hlower, hlt⟩)

end Domain

namespace SearchTree

variable {tree tree' : SearchTree K}

/-- The bound that a variable has at a node, if both exist. -/
def bound? (tree : SearchTree K) (number column : Nat) (direction : Direction) :
    Option (Option K) :=
  tree.nodes[number]?.bind fun n => n.domains[column]?.map (·.bound direction)

def links (tree : SearchTree K) : List (Option Nat × Nat) :=
  tree.nodes.map fun n => (n.parent, n.depth)

/-- The number of parent links from a node to the root. -/
inductive Below (tree : SearchTree K) : Nat → Nat → Prop
  | root : Below tree root 0
  | child {number parent count : Nat} {n : Node K} (hn : tree.nodes[number]? = some n)
      (hp : n.parent = some parent) (h : Below tree parent count) : Below tree number (count + 1)

/-- The root has no parent, and every other node has an older one and is one level below it. -/
structure IsRooted (tree : SearchTree K) : Prop where
  root : tree.links[root]? = some (none, 0)
  child : ∀ number parent depth, number ≠ SearchTree.root →
    tree.links[number]? = some (parent, depth) →
      ∃ p link, parent = some p ∧ p < number ∧ tree.links[p]? = some link ∧ depth = link.2 + 1

@[simp] theorem length_links (tree : SearchTree K) : tree.links.length = tree.nodes.length :=
  List.length_map _

theorem getElem?_links {number : Nat} {n : Node K} (h : tree.nodes[number]? = some n) :
    tree.links[number]? = some (n.parent, n.depth) := by
  rw [links, List.getElem?_map, h]
  rfl

theorem IsRooted.below (h : tree.IsRooted) {number : Nat} {link : Option Nat × Nat}
    (hl : tree.links[number]? = some link) : tree.Below number link.2 := by
  induction number using Nat.strongRecOn generalizing link with
  | ind number ih =>
    by_cases hr : number = SearchTree.root
    · subst hr
      rw [h.root] at hl
      cases hl
      exact .root
    · obtain ⟨p, parentLink, hp, hlt, hparent, hdepth⟩ := h.child number link.1 link.2 hr hl
      rw [links, List.getElem?_map] at hl
      obtain ⟨n, hn, rfl⟩ := Option.map_eq_some_iff.mp hl
      rw [hdepth]
      exact .child hn hp (ih p hlt hparent)

theorem isRooted_ofRoot (domains : Domains K) : (ofRoot domains).IsRooted := by
  refine ⟨rfl, fun number parent depth hne h => ?_⟩
  have : number < 1 := (List.getElem?_eq_some_iff.mp h).1
  exact absurd (Nat.lt_one_iff.mp this) hne

theorem IsRooted.of_links_eq (h : tree.IsRooted) (hl : tree'.links = tree.links) :
    tree'.IsRooted := ⟨hl ▸ h.root, hl ▸ h.child⟩

theorem links_createChild {parent : Nat} (ht : tree.createChild parent = .ok tree') :
    ∃ n, tree.nodes[parent]? = some n ∧
      tree'.links = tree.links ++ [(some parent, n.depth + 1)] := by
  obtain ⟨n, hn, hnodes, -⟩ := createChild_eq_ok.mp ht
  exact ⟨n, hn, by simp [links, hnodes]⟩

theorem getElem?_createChild {parent number : Nat} (ht : tree.createChild parent = .ok tree')
    {n' : Node K} (hn' : tree'.nodes[number]? = some n') :
    tree.nodes[number]? = some n' ∨ number = tree.nodes.length ∧
      ∃ n, tree.nodes[parent]? = some n ∧ n'.parent = some parent ∧ n'.domains = n.domains := by
  obtain ⟨n, hn, hnodes, -⟩ := createChild_eq_ok.mp ht
  rw [hnodes, List.getElem?_append] at hn'
  split at hn'
  · exact .inl hn'
  · rename_i hge
    rw [List.getElem?_singleton] at hn'
    split at hn'
    · rename_i hlast
      cases hn'
      exact .inr ⟨by omega, n, hn, rfl, rfl⟩
    · cases hn'

theorem IsRooted.createChild (h : tree.IsRooted) {parent : Nat}
    (ht : tree.createChild parent = .ok tree') : tree'.IsRooted := by
  obtain ⟨n, hn, hlinks⟩ := links_createChild ht
  have hparent := getElem?_links hn
  have hold : ∀ {number link}, tree.links[number]? = some link → tree'.links[number]? = some link :=
    fun hl => by
      rw [hlinks, List.getElem?_append_left (List.getElem?_eq_some_iff.mp hl).1]
      exact hl
  refine ⟨hold h.root, fun number p depth hne hl => ?_⟩
  by_cases hlt : number < tree.links.length
  · rw [hlinks, List.getElem?_append_left hlt] at hl
    obtain ⟨p, link, hp, hpn, hlink, hdepth⟩ := h.child number _ _ hne hl
    exact ⟨p, link, hp, hpn, hold hlink, hdepth⟩
  · rw [hlinks, List.getElem?_append_right (Nat.not_lt.mp hlt)] at hl
    rw [List.getElem?_singleton] at hl
    split at hl
    · cases hl
      have hlast : parent < tree.links.length := (List.getElem?_eq_some_iff.mp hparent).1
      exact ⟨parent, _, rfl, Nat.lt_of_lt_of_le hlast (Nat.not_lt.mp hlt), hold hparent, rfl⟩
    · cases hl

theorem links_setNode {number : Nat} {n n' : Node K} (hn : tree.nodes[number]? = some n)
    (hp : n'.parent = n.parent) (hd : n'.depth = n.depth) :
    (tree.setNode number n').links = tree.links := by
  refine List.ext_getElem? fun i => ?_
  rw [links, nodes_setNode, List.map_set, List.getElem?_set]
  split
  · rename_i h
    subst h
    rw [getElem?_links hn, hp, hd]
    simp [(List.getElem?_eq_some_iff.mp hn).1]
  · rfl

theorem bound?_setNode {number : Nat} {n : Node K} (hn : tree.nodes[number]? = some n)
    (n' : Node K) (i j : Nat) (d : Direction) : (tree.setNode number n').bound? i j d =
      if i = number then n'.domains[j]?.map (·.bound d) else tree.bound? i j d := by
  rw [bound?, nodes_setNode, List.getElem?_set]
  split
  · rename_i h
    rw [if_pos (List.getElem?_eq_some_iff.mp hn).1, if_pos h.symm]
    rfl
  · rename_i h
    rw [if_neg (Ne.symm h)]
    rfl

section SetBound

variable [Scalar K] {number column : Nat} {value : K} {direction : Direction} {crosses : Bool}

theorem links_setBound (h : tree.setBound number column value direction = .ok (tree', crosses)) :
    tree'.links = tree.links := by
  obtain ⟨n, d, hn, -, hr⟩ := setBound_eq_ok.mp h
  split at hr
  · cases hr
    exact links_setNode hn rfl rfl
  · cases hr
    exact links_setNode hn rfl rfl

theorem focus_setBound (h : tree.setBound number column value direction = .ok (tree', crosses)) :
    tree'.focus = tree.focus := by
  obtain ⟨n, d, -, -, hr⟩ := setBound_eq_ok.mp h
  split at hr <;> cases hr <;> rfl

variable (value) in
theorem exists_setBound_eq_ok (h : (tree.bound? number column direction).isSome) :
    ∃ tree' crosses, tree.setBound number column value direction = .ok (tree', crosses) := by
  obtain ⟨bound, hb⟩ := Option.isSome_iff_exists.mp h
  obtain ⟨n, hn, hd⟩ := Option.bind_eq_some_iff.mp hb
  obtain ⟨d, hd, -⟩ := Option.map_eq_some_iff.mp hd
  exact ⟨_, _, setBound_eq_ok.mpr ⟨n, d, hn, hd, rfl⟩⟩

/-- A change of a bound changes that bound, or none at all. -/
theorem bound?_setBound
    (h : tree.setBound number column value direction = .ok (tree', crosses)) (i j : Nat)
    (d : Direction) : tree'.bound? i j d =
      if crosses = false ∧ i = number ∧ j = column ∧ d = direction then some (some value)
      else tree.bound? i j d := by
  obtain ⟨n, domain, hn, hdomain, hr⟩ := setBound_eq_ok.mp h
  split at hr
  · cases hr
    rw [bound?_setNode hn]
    by_cases hi : i = number
    · simp [hi, bound?, hn]
    · simp [hi]
  · cases hr
    rw [bound?_setNode hn]
    by_cases hi : i = number
    · subst hi
      by_cases hj : j = column
      · subst hj
        have hlt : j < n.domains.length := (List.getElem?_eq_some_iff.mp hdomain).1
        simp only [List.getElem?_set_self hlt, Option.map_some, Domain.bound_setBound_eq]
        by_cases hd : d = direction
        · simp [hd]
        · simp [hd, bound?, hn, hdomain]
      · simp [hj, Ne.symm hj, bound?, hn]
    · simp [hi]

end SetBound

structure IsWellFormed [Scalar K] (tree : SearchTree K) : Prop where
  rooted : tree.IsRooted
  leavesRoom : ∀ n ∈ tree.nodes, ∀ d ∈ n.domains, d.LeavesRoom

section IsWellFormed

variable [Scalar K]

theorem isWellFormed_ofRoot {domains : Domains K} (h : ∀ d ∈ domains, d.LeavesRoom) :
    (ofRoot domains).IsWellFormed :=
  ⟨isRooted_ofRoot domains, fun n hn => by rwa [List.mem_singleton.mp hn]⟩

theorem IsWellFormed.createChild (h : tree.IsWellFormed) {parent : Nat}
    (ht : tree.createChild parent = .ok tree') : tree'.IsWellFormed := by
  refine ⟨h.rooted.createChild ht, fun m hm => ?_⟩
  obtain ⟨n, hn, hnodes, -⟩ := createChild_eq_ok.mp ht
  rw [hnodes] at hm
  rcases List.mem_append.mp hm with hm | hm
  · exact h.leavesRoom m hm
  · rw [List.mem_singleton.mp hm]
    exact h.leavesRoom n (List.mem_of_getElem? hn)

theorem IsWellFormed.focusOn (h : tree.IsWellFormed) {number : Nat}
    (ht : tree.focusOn number = .ok tree') : tree'.IsWellFormed := by
  obtain ⟨-, hnodes, -⟩ := focusOn_eq_ok.mp ht
  exact ⟨h.rooted.of_links_eq (by rw [links, links, hnodes]), hnodes ▸ h.leavesRoom⟩

theorem IsWellFormed.setBound (h : tree.IsWellFormed) {number column : Nat} {value : K}
    {direction : Direction} {crosses : Bool}
    (ht : tree.setBound number column value direction = .ok (tree', crosses)) :
    tree'.IsWellFormed := by
  refine ⟨h.rooted.of_links_eq (links_setBound ht), fun m hm => ?_⟩
  obtain ⟨n, d, hn, hd, hr⟩ := setBound_eq_ok.mp ht
  have hnode := h.leavesRoom n (List.mem_of_getElem? hn)
  split at hr
  · cases hr
    rcases List.mem_or_eq_of_mem_set hm with hm | rfl
    · exact h.leavesRoom m hm
    · exact hnode
  · rename_i hc
    cases hr
    rcases List.mem_or_eq_of_mem_set hm with hm | rfl
    · exact h.leavesRoom m hm
    · intro d' hd'
      rcases List.mem_or_eq_of_mem_set hd' with hd' | rfl
      · exact hnode d' hd'
      · exact Domain.leavesRoom_setBound hc

end IsWellFormed

end SearchTree

namespace BoundChange

variable [Scalar K] {change : BoundChange K} {node : Nat} {t : Tolerances K} {tree : SearchTree K}

end BoundChange

namespace Session

variable [Scalar K]

variable {s t : Session K} {action : Action K}

theorem Step.tree_induction {P : SearchTree K → Prop}
    (createChild : ∀ {tree tree' parent}, P tree → tree.createChild parent = .ok tree' → P tree')
    (focusOn : ∀ {tree tree' number}, P tree → tree.focusOn number = .ok tree' → P tree')
    (setBound : ∀ {tree tree' : SearchTree K} {number column value direction crosses}, P tree →
      tree.setBound number column value direction = .ok (tree', crosses) → P tree')
    (hst : s.Step t) (h : P s.tree) : P t.tree := by
  cases hst with
  | apply =>
    rw [Session.apply, Storage.applyCuts]
    dsimp only
    split <;> exact BoundChange.applyAll_induction setBound h _
  | createChild ht => exact createChild h ht
  | focusOn ht => exact focusOn h ht
  | setBound ht => exact setBound h ht
  | change ht => exact BoundChange.apply_induction setBound h ht
  | _ => exact h

def SparesTree : Action K → Prop
  | .apply | .createChild _ | .focusOn _ | .setBound _ _ _ _ | .change _ _ => False
  | _ => True

theorem tree_perform (h : SparesTree action) : (s.perform action).state.tree = s.tree := by
  cases action with
  | add number scorefactor atRoot =>
    simp only [perform]
    split <;> rfl
  | clear => rfl
  | removeRows depth => rfl
  | startInitialLp | endInitialLp =>
    refine quiet_induction (P := fun t => t.tree = s.tree) rfl fun t answer ht => ?_
    obtain ⟨storage, -, rfl⟩ := switchPhase_eq_ok ht
    rfl
  | setSolution solution =>
    refine quiet_induction (P := fun t => t.tree = s.tree) rfl fun t answer ht => ?_
    obtain ⟨lp, -, ht⟩ := exists_of_bind_eq_ok ht
    cases ht
    rfl
  | addRow number depth =>
    refine quiet_induction (P := fun t => t.tree = s.tree) rfl fun t answer ht => ?_
    obtain ⟨row, -, ht⟩ := exists_of_bind_eq_ok ht
    obtain ⟨lp, -, rfl⟩ := addRow_eq_ok ht
    rfl
  | _ => exact absurd h id

theorem isWellFormed_of_history {start : Session K} {steps : List (Session K × Action K)}
    (h : History start steps s) (hstart : start.tree.IsWellFormed) : s.tree.IsWellFormed := by
  induction h with
  | nil => exact hstart
  | concat _ _ ih =>
    exact (step_perform _ _).tree_induction (fun h ht => h.createChild ht)
      (fun h ht => h.focusOn ht) (fun h ht => h.setBound ht) ih

variable [OrderedScalar K]

end Session
end CutSelection
