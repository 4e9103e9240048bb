import Mathlib
import CutSelection.Proofs.NodeChanges
import CutSelection.Proofs.Redundancy
import CutSelection.Proofs.Relabelling

/-!
Narrower boxes. A cut that is redundant over a box is redundant over every narrower one, whatever
the feasibility tolerance is. Over a run of a search tree the bounds of a node become narrower as
long as they are changed by bound changes at the node in focus, and a new node starts with what its
parent has at that time, so that a cut stays redundant at a node and at those below it that are
reached through new nodes only. A child that is there already keeps wider bounds, and passes them on
to the nodes that are created below it.
-/

namespace CutSelection

theorem Direction.asTight_iff_limits {direction : Direction} {value bound : ℝ} :
    direction.AsTight value bound ↔ direction.Limits bound value := by cases direction <;> rfl

/-- A value that keeps to a limit up to the tolerance does so as well if it is moved away from the
limit, although the magnitude that the difference is measured against may shrink. -/
theorem Direction.FeasiblyLimits.mono {direction : Direction} {t : Tolerances ℝ}
    (h0 : 0 ≤ t.feasibility) (h1 : t.feasibility ≤ 1) {limit value value' : ℝ}
    (h : direction.FeasiblyLimits t limit value) (hv : direction.Limits value value') :
    direction.FeasiblyLimits t limit value' := by
  have hgt : ∀ {a b a' b' : ℝ}, t.IsFeasibleGt a b → a ≤ a' → b' ≤ b → t.IsFeasibleGt a' b' :=
    Tolerances.isGt_mono (t := { t with epsilon := t.feasibility }) h0 h1
  cases direction with
  | lower => exact not_lt.mp fun hfar => not_lt.mpr h (hgt hfar le_rfl hv)
  | upper => exact not_lt.mp fun hfar => not_lt.mpr h (hgt hfar hv le_rfl)

section Evolves

variable {α : Type} {R : α → α → Prop} {old new newer : List α}

/-- Every element of the old list has one in the new list, at the same position, that is related to
it. -/
def Evolves (R : α → α → Prop) (new old : List α) : Prop :=
  ∀ (i : Nat) (a : α), old[i]? = some a → ∃ b, new[i]? = some b ∧ R b a

theorem Evolves.trans (h : Evolves R newer new) (h' : Evolves R new old)
    (hR : ∀ {a b c}, R c b → R b a → R c a) : Evolves R newer old := by
  intro i a ha
  obtain ⟨b, hb, hba⟩ := h' i a ha
  obtain ⟨c, hc, hcb⟩ := h i b hb
  exact ⟨c, hc, hR hcb hba⟩

variable (hR : ∀ a, R a a)

include hR

theorem evolves_append (old extra : List α) : Evolves R (old ++ extra) old := by
  intro i a ha
  refine ⟨a, ?_, hR a⟩
  rw [List.getElem?_append_left (List.getElem?_eq_some_iff.mp ha).1]
  exact ha

theorem evolves_set {i : Nat} {a b : α} (ha : old[i]? = some a) (hba : R b a) :
    Evolves R (old.set i b) old := by
  intro j c hc
  rcases eq_or_ne i j with rfl | hne
  · obtain rfl : a = c := Option.some.inj (ha.symm.trans hc)
    exact ⟨b, List.getElem?_set_self (List.getElem?_eq_some_iff.mp ha).1, hba⟩
  · exact ⟨c, by rwa [List.getElem?_set_ne hne], hR c⟩

end Evolves

namespace Domain

variable {d d' d'' : Domain ℝ} {direction : Direction} {value : ℝ}

/-- Every bound is at least as tight, and finite where the other one is. -/
def Narrows (d' d : Domain ℝ) : Prop :=
  ∀ direction, ∀ bound ∈ d.bound direction, ∃ inner ∈ d'.bound direction,
    direction.Limits bound inner

theorem Narrows.refl (d : Domain ℝ) : d.Narrows d := fun direction bound hb =>
  ⟨bound, hb, direction.limits_refl bound⟩

theorem Narrows.trans (h : d''.Narrows d') (h' : d'.Narrows d) : d''.Narrows d := by
  intro direction bound hb
  obtain ⟨inner, hinner, hlimits⟩ := h' direction bound hb
  obtain ⟨innermost, hinnermost, hlimits'⟩ := h direction inner hinner
  exact ⟨innermost, hinnermost, hlimits.trans hlimits'⟩

theorem narrows_setBound (h : ∀ bound ∈ d.bound direction, direction.Limits bound value) :
    (d.setBound value direction).Narrows d := by
  intro other bound hb
  rcases Direction.eq_or_eq_opposite other direction with rfl | rfl
  · exact ⟨value, bound_setBound d value other, h bound hb⟩
  · exact ⟨bound, by rwa [bound_setBound_opposite], Direction.limits_refl _ bound⟩

end Domain

namespace Domains

variable {domains domains' domains'' : Domains ℝ}

def Narrows (domains' domains : Domains ℝ) : Prop := Evolves Domain.Narrows domains' domains

theorem Narrows.refl (domains : Domains ℝ) : domains.Narrows domains := fun _ d hd =>
  ⟨d, hd, .refl d⟩

theorem Narrows.trans (h : domains''.Narrows domains') (h' : domains'.Narrows domains) :
    domains''.Narrows domains := Evolves.trans h h' .trans

end Domains

namespace Cut

variable {cut : Cut ℝ} {t : Tolerances ℝ} {domains domains' : Domains ℝ} {direction : Direction}

theorem boundSum_mono (hn : domains'.Narrows domains) {entries : List (Entry ℝ)}
    (he : ∀ e ∈ entries, e.2 ≠ 0) {total total' bound : ℝ} (ht : direction.Limits total total')
    (h : boundSum domains direction total entries = .ok (some bound)) :
    ∃ inner, boundSum domains' direction total' entries = .ok (some inner) ∧
      direction.Limits bound inner := by
  induction entries generalizing total total' with
  | nil =>
    simp only [boundSum, Except.ok.injEq, Option.some.injEq] at h
    exact ⟨total', rfl, h ▸ ht⟩
  | cons e entries ih =>
    rw [List.forall_mem_cons] at he
    obtain ⟨d, hd, b, hb, h⟩ := boundSum_cons_eq_some.mp h
    obtain ⟨d', hd', hnarrows⟩ := hn e.1 d hd
    obtain ⟨b', hb', hlimits⟩ := hnarrows _ b hb
    have hterm : direction.Limits (e.2 * b) (e.2 * b') := (Direction.limits_mul he.1).mpr hlimits
    obtain ⟨inner, hinner, hbound⟩ := ih he.2 (ht.add hterm) h
    exact ⟨inner, boundSum_cons_eq_some.mpr ⟨d', hd', b', hb', hinner⟩, hbound⟩

theorem KeepsTo.mono (h0 : 0 ≤ t.feasibility) (h1 : t.feasibility ≤ 1) {side : Direction}
    (h : cut.KeepsTo domains t side) (hn : domains'.Narrows domains) :
    cut.KeepsTo domains' t side := by
  intro limit hlimit
  obtain ⟨extreme, hextreme, hkeeps⟩ := h limit hlimit
  obtain ⟨inner, hinner, hlimits⟩ :=
    boundSum_mono hn cut.entries_ne_zero (side.limits_refl (-0)) hextreme
  exact ⟨inner, hinner, hkeeps.mono h0 h1 hlimits⟩

theorem isRedundant_mono (h0 : 0 ≤ t.feasibility) (h1 : t.feasibility ≤ 1)
    (hn : domains'.Narrows domains) (h : cut.isRedundant domains t = .ok true) :
    cut.isRedundant domains' t = .ok true := by
  obtain ⟨hm, hsides⟩ := isRedundant_eq_true_iff.mp h
  exact isRedundant_eq_true_iff.mpr ⟨hm, fun side => (hsides side).mono h0 h1 hn⟩

end Cut

namespace SearchTree

section Continues

variable {K : Type} {tree tree' : SearchTree K} {count origin number parent : Nat}

/-- The nodes that hang below an origin by nodes that have at least a given number. If that is the
number of nodes at some time, these are the ones that were created since. -/
inductive Continues (tree : SearchTree K) (count origin : Nat) : Nat → Prop
  | origin : Continues tree count origin origin
  | child {number parent depth : Nat} (hl : tree.links[number]? = some (some parent, depth))
      (hnew : count ≤ number) (h : Continues tree count origin parent) :
      Continues tree count origin number

theorem Continues.of_links_eq (h : tree'.Continues count origin number)
    (hl : tree'.links = tree.links) : tree.Continues count origin number := by
  induction h with
  | origin => exact .origin
  | child hlink hnew _ ih => exact .child (hl ▸ hlink) hnew ih

theorem Continues.eq_origin (h : tree.Continues tree.nodes.length origin number) :
    number = origin := by
  cases h with
  | origin => rfl
  | child hl hnew _ =>
    have hlt := (List.getElem?_eq_some_iff.mp hl).1
    rw [length_links] at hlt
    exact absurd hnew (Nat.not_le.mpr hlt)

theorem IsRooted.parent_lt_of_links (h : tree.IsRooted) {depth : Nat}
    (hl : tree.links[number]? = some (some parent, depth)) : parent < tree.nodes.length := by
  have hne : number ≠ SearchTree.root := by
    rintro rfl
    rw [h.root] at hl
    cases hl
  obtain ⟨p, link, hp, -, hlink, -⟩ := h.child number _ _ hne hl
  cases hp
  exact tree.length_links ▸ (List.getElem?_eq_some_iff.mp hlink).1

theorem Continues.of_createChild (h : tree'.Continues count origin number)
    (ht : tree.createChild parent = .ok tree') (hr : tree.IsRooted)
    (hlt : number < tree.nodes.length) : tree.Continues count origin number := by
  obtain ⟨n, -, hlinks⟩ := links_createChild ht
  induction h with
  | origin => exact .origin
  | child hl hnew _ ih =>
    rw [hlinks, List.getElem?_append_left (tree.length_links ▸ hlt)] at hl
    exact .child hl hnew (ih (hr.parent_lt_of_links hl))

end Continues

variable {tree tree' tree'' : SearchTree ℝ} {number column count origin : Nat} {value : ℝ}
  {direction : Direction} {crosses : Bool} {domains : Domains ℝ}

/-- No node is lost, and none has a wider domain than before. -/
def Narrows (tree' tree : SearchTree ℝ) : Prop :=
  Evolves (fun n' n => n'.domains.Narrows n.domains) tree'.nodes tree.nodes

theorem Narrows.of_nodes_eq (h : tree'.nodes = tree.nodes) : tree'.Narrows tree :=
  fun _ n hn => ⟨n, h ▸ hn, .refl n.domains⟩

theorem Narrows.trans (h : tree''.Narrows tree') (h' : tree'.Narrows tree) :
    tree''.Narrows tree := Evolves.trans h h' .trans

theorem narrows_setNode {n n' : Node ℝ} (hn : tree.nodes[number]? = some n)
    (h : n'.domains.Narrows n.domains) : (tree.setNode number n').Narrows tree :=
  evolves_set (fun n => .refl n.domains) hn h

theorem narrows_setBound
    (h : tree.setBound number column value direction = .ok (tree', crosses))
    (hv : ∀ n d, tree.nodes[number]? = some n → n.domains[column]? = some d →
      ∀ bound ∈ d.bound direction, direction.Limits bound value) : tree'.Narrows tree := by
  obtain ⟨n, d, hn, hd, hr⟩ := setBound_eq_ok.mp h
  split at hr
  · cases hr
    exact narrows_setNode hn (.refl n.domains)
  · cases hr
    exact narrows_setNode hn
      (evolves_set Domain.Narrows.refl hd (Domain.narrows_setBound (hv n d hn hd)))

theorem narrows_createChild {parent : Nat} (ht : tree.createChild parent = .ok tree') :
    tree'.Narrows tree := by
  obtain ⟨m, -, hnodes, -⟩ := createChild_eq_ok.mp ht
  rw [Narrows, hnodes]
  exact evolves_append (fun n => .refl n.domains) _ _

/-- The origin, and the new nodes that hang below it, lie within a box. -/
def KeepsWithin (tree : SearchTree ℝ) (count origin : Nat) (domains : Domains ℝ) : Prop :=
  ∀ (number : Nat) (n : Node ℝ), tree.Continues count origin number →
    tree.nodes[number]? = some n → n.domains.Narrows domains

theorem KeepsWithin.of_links_eq (h : tree.KeepsWithin count origin domains)
    (hn : tree'.Narrows tree) (hl : tree'.links = tree.links) :
    tree'.KeepsWithin count origin domains := by
  intro number n' hc hn'
  have hlink : tree.links[number]? = some (n'.parent, n'.depth) := hl ▸ getElem?_links hn'
  rw [links, List.getElem?_map] at hlink
  obtain ⟨n, hnode, -⟩ := Option.map_eq_some_iff.mp hlink
  obtain ⟨m, hm, hnarrows⟩ := hn number n hnode
  obtain rfl : n' = m := Option.some.inj (hn'.symm.trans hm)
  exact hnarrows.trans (h number n (hc.of_links_eq hl) hnode)

theorem KeepsWithin.createChild (h : tree.KeepsWithin count origin domains)
    (hr : tree.IsRooted) (ho : origin < tree.nodes.length) {parent : Nat}
    (ht : tree.createChild parent = .ok tree') : tree'.KeepsWithin count origin domains := by
  intro number n' hc hn'
  rcases getElem?_createChild ht hn' with hold | ⟨rfl, m, hm, hparent, hdomains⟩
  · exact h number n' (hc.of_createChild ht hr (List.getElem?_eq_some_iff.mp hold).1) hold
  · cases hc with
    | origin => exact absurd ho (lt_irrefl _)
    | child hl _ hc =>
      rw [getElem?_links hn', hparent] at hl
      cases hl
      -- The child starts with the bounds of its parent, which is an old node.
      have hold := (List.getElem?_eq_some_iff.mp hm).1
      exact hdomains ▸ h parent m (hc.of_createChild ht hr hold) hm

end SearchTree

namespace BoundChange

variable {change : BoundChange ℝ} {tree : SearchTree ℝ} {t : Tolerances ℝ}

/-- At the node in focus nothing is loosened. -/
theorem narrows_apply (h0 : 0 ≤ t.epsilon) (hw : tree.IsWellFormed) {tree' : SearchTree ℝ}
    {outcome : Outcome} (h : change.apply tree tree.focus t = .ok (tree', outcome)) :
    tree'.Narrows tree := by
  obtain ⟨d, hd, hr⟩ := apply_eq_ok.mp h
  dsimp only at hr
  split at hr
  · rename_i ht
    obtain ⟨⟨s, crosses⟩, hs, hr⟩ := hr
    cases hr
    refine SearchTree.narrows_setBound hs fun n own hn hown bound hb => ?_
    obtain rfl : n = tree.focusNode := Option.some.inj (hn.symm.trans tree.getElem?_focus)
    obtain rfl : d = own := Option.some.inj (hd.symm.trans hown)
    have hroom := hw.leavesRoom _ (List.mem_of_getElem? hn) d (List.mem_of_getElem? hd)
    have hordered : d.Ordered := fun lower hl upper hu => not_lt.mp (hroom lower hl upper hu)
    exact Direction.asTight_iff_limits.mp (Domain.asTight_meet h0 hordered ht hb)
  · cases hr
    exact .of_nodes_eq rfl

theorem narrows_applyAll (h0 : 0 ≤ t.epsilon) (hw : tree.IsWellFormed)
    (changes : List (BoundChange ℝ)) : (applyAll tree.focus t tree changes).tree.Narrows tree := by
  induction changes generalizing tree with
  | nil => exact .of_nodes_eq rfl
  | cons change changes ih =>
    cases ha : change.apply tree tree.focus t with
    | error f =>
      rw [applyAll_cons_of_error ha]
      exact .of_nodes_eq rfl
    | ok r =>
      have hfirst := narrows_apply h0 hw ha
      rw [applyAll_cons_of_ok ha]
      split
      · exact hfirst
      · have hrest := ih (apply_induction (fun h ht => h.setBound ht) hw ha)
        rw [focus_apply ha] at hrest
        exact hrest.trans hfirst

end BoundChange

namespace Session

/-- A step that changes no bound but by bound changes at the node in focus. -/
def ChangesInFocus {K : Type} [Scalar K] (p : Session K × Action K) : Prop :=
  match p.2 with
  | .setBound _ _ _ _ => False
  | .change node _ => node.getD p.1.tree.focus = p.1.tree.focus
  | _ => True

section Links

variable {K : Type} [Scalar K] {s t : Session K}

theorem Step.links_eq_or_createChild (h : s.Step t) :
    t.tree.links = s.tree.links ∨ ∃ parent, s.tree.createChild parent = .ok t.tree := by
  cases h with
  | apply =>
    rw [Session.apply, Storage.applyCuts]
    dsimp only
    refine .inl ?_
    split <;>
      exact BoundChange.applyAll_induction (P := fun tree => tree.links = s.tree.links)
        (fun h ht => (SearchTree.links_setBound ht).trans h) rfl _
  | createChild ht => exact .inr ⟨_, ht⟩
  | focusOn ht =>
    obtain ⟨-, hnodes, -⟩ := SearchTree.focusOn_eq_ok.mp ht
    exact .inl (by rw [SearchTree.links, SearchTree.links, hnodes])
  | setBound ht => exact .inl (SearchTree.links_setBound ht)
  | change ht => exact .inl (BoundChange.links_apply ht)
  | _ => exact .inl rfl

theorem settings_of_history {steps : List (Session K × Action K)} (h : History s steps t) :
    t.storage.settings = s.storage.settings := by
  induction h with
  | nil => rfl
  | concat _ _ ih => exact (step_perform _ _).settings_eq.trans ih

end Links

variable {s s' : Session ℝ} {action : Action ℝ} {steps : List (Session ℝ × Action ℝ)}

theorem narrows_perform (h0 : 0 ≤ s.storage.settings.tolerances.epsilon)
    (hw : s.tree.IsWellFormed) (h : ChangesInFocus (s, action)) :
    (s.perform action).state.tree.Narrows s.tree := by
  by_cases hspares : SparesTree action
  · rw [tree_perform hspares]
    exact .of_nodes_eq rfl
  cases action with
  | apply =>
    rw [perform, Session.apply, Storage.applyCuts]
    dsimp only
    split <;> exact BoundChange.narrows_applyAll h0 hw _
  | createChild parent =>
    refine quiet_induction (P := fun t => t.tree.Narrows s.tree) (.of_nodes_eq rfl) fun t _ ht => ?_
    obtain ⟨tree, htree, ht⟩ := exists_of_bind_eq_ok ht
    cases ht
    exact SearchTree.narrows_createChild htree
  | focusOn node =>
    refine quiet_induction (P := fun t => t.tree.Narrows s.tree) (.of_nodes_eq rfl) fun t _ ht => ?_
    obtain ⟨tree, htree, ht⟩ := exists_of_bind_eq_ok ht
    cases ht
    exact .of_nodes_eq (SearchTree.focusOn_eq_ok.mp htree).2.1
  | change node change =>
    refine quiet_induction (P := fun t => t.tree.Narrows s.tree) (.of_nodes_eq rfl) fun t _ ht => ?_
    obtain ⟨⟨tree, outcome⟩, htree, ht⟩ := exists_of_bind_eq_ok ht
    cases ht
    have hnode : node.getD s.tree.focus = s.tree.focus := h
    rw [hnode] at htree
    exact BoundChange.narrows_apply h0 hw htree
  | setBound => exact absurd h id
  | _ => exact absurd trivial hspares

/-- While no bound is loosened, a node and those that hang below it by new nodes only lie within the
bounds that it has now. -/
theorem keepsWithin_of_history (hw : s.tree.IsWellFormed)
    (h0 : 0 ≤ s.storage.settings.tolerances.epsilon) (h : History s steps s')
    (hsteps : ∀ p ∈ steps, ChangesInFocus p ∨ (p.1.perform p.2).state.tree.Narrows p.1.tree)
    {origin : Nat} {n : Node ℝ} (hn : s.tree.nodes[origin]? = some n) :
    s'.tree.KeepsWithin s.tree.nodes.length origin n.domains ∧ s'.tree.Narrows s.tree := by
  induction h with
  | nil =>
    refine ⟨fun number n' hc hn' => ?_, .of_nodes_eq rfl⟩
    obtain rfl := hc.eq_origin
    obtain rfl : n = n' := Option.some.inj (hn.symm.trans hn')
    exact .refl n.domains
  | @concat before s' h action hr ih =>
    obtain ⟨hbefore, hlast⟩ := List.forall_mem_append.mp hsteps
    obtain ⟨hwithin, hnarrows⟩ := ih hbefore
    have hw' := isWellFormed_of_history h hw
    have hstep : (s'.perform action).state.tree.Narrows s'.tree := by
      rcases List.forall_mem_singleton.mp hlast with hfocus | hstep
      · exact narrows_perform (settings_of_history h ▸ h0) hw' hfocus
      · exact hstep
    refine ⟨?_, hstep.trans hnarrows⟩
    rcases (step_perform s' action).links_eq_or_createChild with hl | ⟨parent, ht⟩
    · exact hwithin.of_links_eq hstep hl
    · obtain ⟨m, hm, -⟩ := hnarrows origin n hn
      exact hwithin.createChild hw'.rooted (List.getElem?_eq_some_iff.mp hm).1 ht

/-- Redundancy persists, at any feasibility tolerance of at most one. A cut that is redundant over a
box is redundant over every narrower one. So a cut that is redundant at a node at some time of a run
stays redundant there, and it is so at all nodes below that are linked to the node by nodes created
from then on, as long as no bound is loosened. A node that is created later below an older child has
the bounds of that child and not of the node. The only steps that may loosen a bound are those that
set it without a comparison, or apply a bound change to a node that is not in focus. -/
theorem isRedundant_persists {t : Tolerances ℝ} (h0 : 0 ≤ t.feasibility) (h1 : t.feasibility ≤ 1)
    (cut : Cut ℝ) :
    (∀ domains domains' : Domains ℝ, domains'.Narrows domains →
      cut.isRedundant domains t = .ok true → cut.isRedundant domains' t = .ok true) ∧
    ∀ (catalogue : List (Cut ℝ)) (settings : Settings ℝ) (solution : List ℝ) (root : Domains ℝ)
      (before since : List (Session ℝ × Action ℝ)) (s s' : Session ℝ),
      (∀ d ∈ root, d.Ordered) → 0 ≤ settings.tolerances.epsilon →
      History (start catalogue settings solution root) before s → History s since s' →
      (∀ p ∈ since, ChangesInFocus p ∨ (p.1.perform p.2).state.tree.Narrows p.1.tree) →
      ∀ origin n, s.tree.nodes[origin]? = some n → cut.isRedundant n.domains t = .ok true →
        ∀ number n', s'.tree.Continues s.tree.nodes.length origin number →
          s'.tree.nodes[number]? = some n' → cut.isRedundant n'.domains t = .ok true := by
  refine ⟨fun domains domains' hn => cut.isRedundant_mono h0 h1 hn, ?_⟩
  intro catalogue settings solution root before since s s' hroot hepsilon hbefore hsince hsteps
    origin n hn hredundant number n' hc hn'
  have hw : s.tree.IsWellFormed := isWellFormed_of_history hbefore
    (SearchTree.isWellFormed_ofRoot fun d hd lower hl upper hu =>
      not_lt.mpr (hroot d hd lower hl upper hu))
  have hepsilon' : 0 ≤ s.storage.settings.tolerances.epsilon :=
    settings_of_history hbefore ▸ hepsilon
  have hwithin := (keepsWithin_of_history hw hepsilon' hsince hsteps hn).1
  exact cut.isRedundant_mono h0 h1 (hwithin number n' hc hn') hredundant

noncomputable def atMost (limit : ℝ) : Cut ℝ :=
  ⟨"cut", ⟨[(0, 1)], 1, by simp [SparseVector.WellFormed]⟩, 0, none, some limit, false⟩

theorem isRedundant_atMost_of_le {t : Tolerances ℝ} (hf : t.feasibility = 0) {limit upper : ℝ}
    (h : upper ≤ limit) (kind : VariableKind) (lower : Option ℝ) (domains : Domains ℝ) :
    (atMost limit).isRedundant (⟨kind, lower, some upper⟩ :: domains) t = .ok true := by
  refine Cut.isRedundant_eq_true_iff.mpr ⟨rfl, fun side => ?_⟩
  cases side with
  | lower => rintro lhs ⟨⟩
  | upper =>
    rintro rhs ⟨⟩
    have hbound : (atMost limit).activityBound (⟨kind, lower, some upper⟩ :: domains) .upper =
        .ok (some upper) := by
      simp [Cut.activityBound, atMost, Cut.boundSum, Domains.get, Direction.through, Domain.bound,
        bind, Except.bind]
    exact ⟨upper, hbound, (Direction.feasiblyLimits_iff hf).mpr
      (Direction.limits_sub_iff.mpr ((add_zero upper).trans_le h))⟩

/-- A root with two unbounded variables, the first of which got an upper bound after a child was
created. -/
noncomputable def lateBound : List (Session ℝ × Action ℝ) × Session ℝ :=
  trail (start [] (.sample 0) [0, 0] [⟨.continuous, none, none⟩, ⟨.continuous, none, none⟩])
    [.createChild 0, .change none ⟨0, 1, .upper⟩]

/-- A child that is created now, and a grandchild after a bound change there. -/
noncomputable def latePath : List (Session ℝ × Action ℝ) × Session ℝ :=
  trail lateBound.2 [.createChild 0, .focusOn 2, .change none ⟨1, 1, .lower⟩, .createChild 2]

theorem isRedundant_persists_latePath :
    latePath.2.tree.nodes[3]? = some ⟨some 2, 2,
        [⟨.continuous, none, some 1⟩, ⟨.continuous, some 1, none⟩], false⟩ ∧
      (atMost 2).isRedundant [⟨.continuous, none, some 1⟩, ⟨.continuous, some 1, none⟩]
        (Settings.sample 0).tolerances = .ok true := by
  have hroot : ∀ d ∈ ([⟨.continuous, none, none⟩, ⟨.continuous, none, none⟩] : Domains ℝ),
      d.Ordered := by simp [Domain.Ordered]
  have hpath : latePath.2.tree.Continues lateBound.2.tree.nodes.length 0 3 :=
    .child (show latePath.2.tree.links[3]? = some (some 2, 2) from rfl) (show 2 ≤ 3 by decide)
      (.child (show latePath.2.tree.links[2]? = some (some 0, 1) from rfl) (show 2 ≤ 2 by decide)
        .origin)
  have hsteps : ∀ p ∈ latePath.1, ChangesInFocus p ∨
      (p.1.perform p.2).state.tree.Narrows p.1.tree :=
    List.forall_mem_cons.mpr ⟨.inl trivial, List.forall_mem_cons.mpr ⟨.inl trivial,
      List.forall_mem_cons.mpr ⟨.inl rfl, List.forall_mem_singleton.mpr (.inl trivial)⟩⟩⟩
  have hpersists := (isRedundant_persists (t := (Settings.sample 0).tolerances) le_rfl zero_le_one
    (atMost 2)).2 [] (.sample 0) [0, 0] _ lateBound.1 latePath.1 lateBound.2 latePath.2 hroot le_rfl
    (history_trail _ _) (history_trail _ _) hsteps 0
    ⟨none, 0, [⟨.continuous, none, some 1⟩, ⟨.continuous, none, none⟩], false⟩ rfl
    (isRedundant_atMost_of_le rfl one_le_two _ _ _)
  exact ⟨rfl, hpersists 3 _ hpath rfl⟩

/-- The child that had been there before keeps the bounds that it started with. -/
theorem lateBound_child_not_redundant :
    ∃ root child, lateBound.2.tree.nodes[0]? = some root ∧
      lateBound.2.tree.nodes[1]? = some child ∧ child.parent = some 0 ∧
      (atMost 2).isRedundant root.domains (Settings.sample 0).tolerances = .ok true ∧
      (atMost 2).isRedundant child.domains (Settings.sample 0).tolerances = .ok false := by
  refine ⟨⟨none, 0, [⟨.continuous, none, some 1⟩, ⟨.continuous, none, none⟩], false⟩,
    ⟨some 0, 1, [⟨.continuous, none, none⟩, ⟨.continuous, none, none⟩], false⟩, rfl, rfl, rfl,
    isRedundant_atMost_of_le rfl one_le_two _ _ _, ?_⟩
  simp [Cut.isRedundant, atMost, Cut.lowerSideIsRedundant, Cut.upperSideIsRedundant,
    Cut.maxActivity, Cut.activityBound, Cut.boundSum, Domains.get, Direction.through, Domain.bound,
    bind, Except.bind]

end Session

end CutSelection
