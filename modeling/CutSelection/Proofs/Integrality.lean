import Mathlib
import CutSelection.Proofs.Exactness
import CutSelection.Proofs.Narrowing
import CutSelection.Proofs.PendingChanges

/-!
Integral bounds. A bound of an integer variable is rounded when a change is derived from a cut and
once more when the change is applied, where it may also be moved onto the opposite bound. The first
rounding leaves an integer, the second one leaves integers alone, and the opposite bound is an
integer already, so that all bounds of integer variables stay integers at all nodes.
-/

namespace CutSelection

namespace Domain

variable {d : Domain ℝ} {direction : Direction} {value : ℝ} {t : Tolerances ℝ}

def Integral (d : Domain ℝ) : Prop := ∀ direction, ∀ bound ∈ d.bound direction, d.kind.Fits bound

theorem integral_iff : d.Integral ↔
    (d.kind = .integer → ∀ direction, ∀ bound ∈ d.bound direction, ∃ m : ℤ, bound = m) := by
  rw [Integral]
  cases d.kind <;> simp [VariableKind.Fits]

/-- With a tolerance below one, no integer is rounded to another one. -/
theorem adjust_of_fits (h0 : 0 ≤ t.feasibility) (h1 : t.feasibility < 1) (h : d.kind.Fits value)
    (direction : Direction) : d.adjust direction value t = value := by
  simp only [adjust]
  cases hk : d.kind with
  | continuous => rfl
  | integer =>
    rw [hk] at h
    obtain ⟨m, rfl⟩ := h
    cases direction with
    | lower =>
      have hceil : ⌈(m : ℝ) - t.feasibility⌉ = m :=
        Int.ceil_eq_iff.mpr ⟨by linarith, by linarith⟩
      exact congrArg (Int.cast (R := ℝ)) hceil
    | upper =>
      have hfloor : ⌊(m : ℝ) + t.feasibility⌋ = m :=
        Int.floor_eq_iff.mpr ⟨by linarith, by linarith⟩
      exact congrArg (Int.cast (R := ℝ)) hfloor

/-- Moved or not, the value is the one that is given or the opposite bound. -/
theorem meet_cases (d : Domain ℝ) (direction : Direction) (value : ℝ) (t : Tolerances ℝ) :
    d.meet direction value t = value ∨
      d.bound direction.opposite = some (d.meet direction value t) := by
  rw [meet]
  cases d.bound direction.opposite with
  | none => exact .inl rfl
  | some opposite =>
    dsimp only
    split
    · exact .inr rfl
    · exact .inl rfl

theorem Integral.fits_meet (h : d.Integral) (hv : d.kind.Fits value) :
    d.kind.Fits (d.meet direction value t) := by
  rcases d.meet_cases direction value t with hm | hm
  · rwa [hm]
  · exact h _ _ hm

theorem Integral.setBound (h : d.Integral) (hv : d.kind.Fits value) :
    (d.setBound value direction).Integral := by
  intro other bound hb
  rw [kind_setBound]
  rw [bound_setBound_eq] at hb
  split at hb
  · exact Option.some.inj hb ▸ hv
  · exact h other bound hb

end Domain

def BoundChange.Fits (change : BoundChange ℝ) (kinds : List VariableKind) : Prop :=
  ∀ kind ∈ kinds[change.column]?, kind.Fits change.value

namespace SearchTree

/-- The variables are of the same kinds at all nodes, and the bounds of the integer ones are
integers. -/
structure Integral (tree : SearchTree ℝ) (kinds : List VariableKind) : Prop where
  kinds : ∀ n ∈ tree.nodes, n.domains.map (·.kind) = kinds
  bounds : ∀ n ∈ tree.nodes, ∀ d ∈ n.domains, d.Integral

variable {tree tree' : SearchTree ℝ} {kinds : List VariableKind} {n : Node ℝ} {d : Domain ℝ}
  {column : Nat}

theorem integral_ofRoot {domains : Domains ℝ} (h : ∀ d ∈ domains, d.Integral) :
    (ofRoot domains).Integral (domains.map (·.kind)) := by
  constructor
  · simp [ofRoot]
  · simpa [ofRoot] using h

theorem Integral.kind_eq (h : tree.Integral kinds) (hn : n ∈ tree.nodes)
    (hd : n.domains[column]? = some d) : kinds[column]? = some d.kind := by
  rw [← h.kinds n hn, List.getElem?_map, hd, Option.map_some]

theorem Integral.focused (h : tree.Integral kinds) (hd : tree.domains[column]? = some d) :
    kinds[column]? = some d.kind ∧ d.Integral := by
  have hn := List.mem_of_getElem? tree.getElem?_focus
  exact ⟨h.kind_eq hn hd, h.bounds _ hn d (List.mem_of_getElem? hd)⟩

theorem Integral.createChild (h : tree.Integral kinds) {parent : Nat}
    (ht : tree.createChild parent = .ok tree') : tree'.Integral kinds := by
  obtain ⟨n, hn, hnodes, -⟩ := createChild_eq_ok.mp ht
  have hparent := List.mem_of_getElem? hn
  constructor <;> rw [hnodes, List.forall_mem_append, List.forall_mem_singleton]
  · exact ⟨h.kinds, h.kinds n hparent⟩
  · exact ⟨h.bounds, h.bounds n hparent⟩

theorem Integral.focusOn (h : tree.Integral kinds) {number : Nat}
    (ht : tree.focusOn number = .ok tree') : tree'.Integral kinds := by
  obtain ⟨-, hnodes, -⟩ := focusOn_eq_ok.mp ht
  constructor <;> rw [hnodes]
  · exact h.kinds
  · exact h.bounds

theorem Integral.setNode (h : tree.Integral kinds) {number : Nat}
    (hk : n.domains.map (·.kind) = kinds) (hb : ∀ d ∈ n.domains, d.Integral) :
    (tree.setNode number n).Integral kinds := by
  constructor
  all_goals
    intro m hm
    rcases List.mem_or_eq_of_mem_set hm with hm | rfl
  · exact h.kinds m hm
  · exact hk
  · exact h.bounds m hm
  · exact hb

theorem Integral.setBound (h : tree.Integral kinds) {number : Nat} {value : ℝ}
    {direction : Direction} {r : SearchTree ℝ × Bool}
    (hv : ∀ kind ∈ kinds[column]?, kind.Fits value)
    (hr : tree.setBound number column value direction = .ok r) : r.1.Integral kinds := by
  obtain ⟨n, d, hn, hd, rfl⟩ := setBound_eq_ok.mp hr
  have hmem := List.mem_of_getElem? hn
  split
  · exact h.setNode (h.kinds n hmem) (h.bounds n hmem)
  · refine h.setNode ((Domains.kinds_setBound hd value direction).trans (h.kinds n hmem)) ?_
    intro d' hd'
    rcases List.mem_or_eq_of_mem_set hd' with hd' | rfl
    · exact h.bounds n hmem d' hd'
    · exact (h.bounds n hmem d (List.mem_of_getElem? hd)).setBound (hv _ (h.kind_eq hmem hd))

theorem Integral.apply (h : tree.Integral kinds) {change : BoundChange ℝ} {node : Nat}
    {t : Tolerances ℝ} {r : SearchTree ℝ × BoundChange.Outcome}
    (hr : change.apply tree node t = .ok r) : r.1.Integral kinds := by
  obtain ⟨d, hd, hr⟩ := BoundChange.apply_eq_ok.mp hr
  obtain ⟨hkind, hd⟩ := h.focused hd
  dsimp only at hr
  split at hr
  · obtain ⟨s, hs, rfl⟩ := hr
    refine h.setBound (fun kind hk => ?_) hs
    obtain rfl : d.kind = kind := Option.some.inj (hkind.symm.trans hk)
    exact hd.fits_meet (d.fits_adjust ..)
  · subst hr
    exact h

/-- Every bound is one that the variable had at the node, of either direction, or the value of a
change. -/
def BoundsFrom (tree origin : SearchTree ℝ) (changes : List (BoundChange ℝ)) : Prop :=
  ∀ number column direction value, tree.bound? number column direction = some (some value) →
    (∃ d, origin.bound? number column d = some (some value)) ∨
      ∃ change ∈ changes, change.column = column ∧ change.value = value

/-- A change whose value needs no rounding sets that value, or an opposite bound. -/
theorem BoundsFrom.apply {origin : SearchTree ℝ} {changes : List (BoundChange ℝ)}
    {change : BoundChange ℝ} {t : Tolerances ℝ} {r : SearchTree ℝ × BoundChange.Outcome}
    (hb : tree.BoundsFrom origin changes) (hc : change ∈ changes)
    (hadjust : ∀ d, tree.domains[change.column]? = some d →
      d.adjust change.direction change.value t = change.value)
    (hr : change.apply tree tree.focus t = .ok r) : r.1.BoundsFrom origin changes := by
  obtain ⟨d, hd, hr⟩ := BoundChange.apply_eq_ok.mp hr
  rw [hadjust d hd] at hr
  dsimp only at hr
  split at hr
  · obtain ⟨s, hs, rfl⟩ := hr
    intro number column direction value hvalue
    rw [bound?_setBound hs] at hvalue
    split at hvalue
    · rename_i hset
      obtain ⟨-, rfl, rfl, rfl⟩ := hset
      obtain rfl := Option.some.inj (Option.some.inj hvalue)
      rcases d.meet_cases change.direction change.value t with hmeet | hmeet
      · exact .inr ⟨change, hc, rfl, hmeet.symm⟩
      · refine hb _ _ change.direction.opposite _ ?_
        simp [bound?, getElem?_focus, show tree.focusNode.domains[change.column]? = some d from hd,
          hmeet]
    · exact hb number column direction value hvalue
  · subst hr
    exact hb

end SearchTree

namespace BoundChange

variable {tree : SearchTree ℝ} {kinds : List VariableKind} {changes : List (BoundChange ℝ)}
  {t : Tolerances ℝ}

theorem Fits.adjust_eq {change : BoundChange ℝ} (h : change.Fits kinds) (h0 : 0 ≤ t.feasibility)
    (h1 : t.feasibility < 1) {d : Domain ℝ} (hk : kinds[change.column]? = some d.kind)
    (direction : Direction) : d.adjust direction change.value t = change.value :=
  Domain.adjust_of_fits h0 h1 (h d.kind hk) direction

theorem integral_applyAll (h : tree.Integral kinds) (node : Nat) (t : Tolerances ℝ)
    (changes : List (BoundChange ℝ)) : (applyAll node t tree changes).tree.Integral kinds :=
  applyAll_keeps (P := (·.Integral kinds)) (fun _ _ _ _ h hr => h.apply hr) h

theorem boundsFrom_applyAll (h0 : 0 ≤ t.feasibility) (h1 : t.feasibility < 1)
    (h : tree.Integral kinds) (hc : ∀ change ∈ changes, change.Fits kinds) :
    (applyAll tree.focus t tree changes).tree.BoundsFrom tree changes := by
  refine (applyAll_keeps
    (P := fun s => s.focus = tree.focus ∧ s.Integral kinds ∧ s.BoundsFrom tree changes) ?_
    ⟨rfl, h, fun _ _ d _ hb => .inl ⟨d, hb⟩⟩).2.2
  rintro change hchange s r ⟨hfocus, hs, hfrom⟩ hr
  refine ⟨(focus_apply hr).trans hfocus, hs.apply hr, hfrom.apply hchange (fun d hd => ?_)
    (hfocus ▸ hr)⟩
  exact (hc change hchange).adjust_eq h0 h1 (hs.focused hd).1 _

end BoundChange

/-- Steps that set a bound to a value as it is given. -/
def Action.SetsBound {K : Type} : Action K → Prop
  | .setBound .. => True
  | _ => False

namespace Session

/-- The invariant of a session: integer variables have integral bounds at all nodes, and pending
changes have integral values for them. -/
structure Integral (s : Session ℝ) (kinds : List VariableKind) : Prop where
  tree : s.tree.Integral kinds
  changes : ∀ change ∈ s.storage.boundChanges, change.Fits kinds

variable {s : Session ℝ} {kinds : List VariableKind}

theorem integral_start {domains : Domains ℝ} (h : ∀ d ∈ domains, d.Integral)
    (catalogue : List (Cut ℝ)) (g : Settings ℝ) (solution : List ℝ) :
    (start catalogue g solution domains).Integral (domains.map (·.kind)) :=
  ⟨SearchTree.integral_ofRoot h, by simp [start]⟩

theorem integral_tree_perform (h : s.tree.Integral kinds) {action : Action ℝ}
    (ha : ¬action.SetsBound) : (s.perform action).state.tree.Integral kinds := by
  by_cases hspares : SparesTree action
  · rwa [tree_perform hspares]
  cases action with
  | apply =>
    simp only [perform, apply, Storage.applyCuts]
    split <;> exact BoundChange.integral_applyAll h ..
  | createChild parent =>
    refine quiet_induction (P := (·.tree.Integral kinds)) h fun t answer ht => ?_
    obtain ⟨tree, htree, ht⟩ := exists_of_bind_eq_ok ht
    cases ht
    exact h.createChild htree
  | focusOn node =>
    refine quiet_induction (P := (·.tree.Integral kinds)) h fun t answer ht => ?_
    obtain ⟨tree, htree, ht⟩ := exists_of_bind_eq_ok ht
    cases ht
    exact h.focusOn htree
  | change node change =>
    refine quiet_induction (P := (·.tree.Integral kinds)) h fun t answer ht => ?_
    obtain ⟨⟨tree, outcome⟩, htree, ht⟩ := exists_of_bind_eq_ok ht
    cases ht
    exact h.apply htree
  | setBound node column value direction => exact absurd trivial ha
  | _ => exact absurd trivial hspares

theorem Integral.perform (h : s.Integral kinds) {action : Action ℝ} (ha : ¬action.SetsBound) :
    (s.perform action).state.Integral kinds := by
  refine ⟨integral_tree_perform h.tree ha, fun change hc => ?_⟩
  rcases (step_perform s action).mem_boundChanges hc with hold | ⟨cut, e, changes, he, hok, hmem⟩
  · exact h.changes change hold
  · -- A new change is rounded for the kind that the variable has in focus.
    obtain ⟨d, hd, side, hside⟩ :=
      (Cut.mem_boundChanges (Cut.ne_zero_of_singleEntry he) hok).mp hmem
    obtain ⟨limit, -, -, rfl⟩ := Cut.sideChange_eq_some.mp hside
    intro kind hk
    obtain rfl : d.kind = kind := Option.some.inj ((h.tree.focused hd).1.symm.trans hk)
    exact d.fits_adjust ..

/-- Bounds of integer variables stay integers and are rounded only once, in exact arithmetic with a
feasibility tolerance below one, if no bound is set to a value as it is given. After every step of a
run the variables are of their kinds at all nodes, the bounds of the integer ones are integers, and
rounding the value of a pending change once more leaves it as it is. A commit at that time gives a
variable no bound but one that it has at the node already, or the very value of a pending change. -/
theorem bounds_stay_integral {catalogue : List (Cut ℝ)} {g : Settings ℝ} {domains : Domains ℝ}
    (h0 : 0 ≤ g.tolerances.feasibility) (h1 : g.tolerances.feasibility < 1)
    (hroot : ∀ d ∈ domains, d.kind = .integer →
      ∀ direction, ∀ bound ∈ d.bound direction, ∃ m : ℤ, bound = m)
    (solution : List ℝ) {actions : List (Action ℝ)} (ha : ∀ action ∈ actions, ¬action.SetsBound) :
    ∀ r ∈ run (start catalogue g solution domains) actions,
      (∀ n ∈ r.state.tree.nodes, n.domains.map (·.kind) = domains.map (·.kind) ∧
        ∀ d ∈ n.domains, d.kind = .integer →
          ∀ direction, ∀ bound ∈ d.bound direction, ∃ m : ℤ, bound = m) ∧
      (∀ change ∈ r.state.storage.boundChanges, ∀ n ∈ r.state.tree.nodes,
        ∀ d ∈ n.domains[change.column]?, ∀ direction,
          d.adjust direction change.value g.tolerances = change.value) ∧
      (r.state.perform .apply).state.tree.BoundsFrom r.state.tree r.state.storage.boundChanges := by
  have hstart := integral_start (fun d hd => Domain.integral_iff.mpr (hroot d hd)) catalogue g
    solution
  intro r hr
  obtain ⟨⟨htree, hchanges⟩, hsettings⟩ := forall_mem_run
    (P := fun s => s.Integral (domains.map Domain.kind) ∧ s.storage.settings = g) ⟨hstart, rfl⟩
    (fun action hmem s h => ⟨h.1.perform (ha action hmem),
      (step_perform s action).settings_eq.trans h.2⟩) r hr
  refine ⟨fun n hn => ⟨htree.kinds n hn, fun d hd => ?_⟩, fun change hc n hn d hd => ?_, ?_⟩
  · exact Domain.integral_iff.mp (htree.bounds n hn d hd)
  · exact (hchanges change hc).adjust_eq h0 h1 (htree.kind_eq hn hd)
  · have hfrom := BoundChange.boundsFrom_applyAll h0 h1 htree hchanges
    simp only [Session.perform, Session.apply, Storage.applyCuts, hsettings]
    split <;> exact hfrom

noncomputable def limited (limit upper feasibility : ℝ) : Session ℝ :=
  start [atMost limit] { Settings.sample 0 with tolerances := ⟨0, feasibility, 1⟩ } [0]
    [⟨.integer, some 0, some upper⟩]

/-- At a feasibility tolerance of three quarters a limit of three and a half gives a bound of
four. -/
theorem boundChanges_limited :
    ((limited (7 / 2) 10 (3 / 4)).perform (.add 0 1 false)).state.storage.boundChanges =
      [⟨0, 4, .upper⟩] := by
  set s := limited (7 / 2) 10 (3 / 4) with hs
  have hfloor : ⌊(7 / 2 + 3 / 4 : ℝ)⌋ = 4 := by
    rw [Int.floor_eq_iff]
    norm_num
  have hlt : (⟨0, 3 / 4, 1⟩ : Tolerances ℝ).IsLt 4 10 := by
    rw [Tolerances.isLt_iff_lt rfl]
    norm_num
  have hchanges : (atMost (7 / 2)).boundChanges (0, 1) [⟨.integer, some 0, some 10⟩]
      ⟨0, 3 / 4, 1⟩ = .ok [⟨0, 4, .upper⟩] := by
    rw [Cut.boundChanges_eq_ok one_ne_zero]
    refine ⟨⟨.integer, some 0, some 10⟩, rfl, ?_⟩
    simp [Cut.sideChange, Cut.side, atMost, Direction.through, Domain.adjust,
      Tolerances.feasibleFloor, Scalar.floor, hfloor, Domain.IsTightenedBy, Domain.bound, hlt]
  have hforced : s.storage.Forces 1 := .inr le_rfl
  have happraise : s.storage.appraise ⟨atMost (7 / 2), 0⟩ 1 false s.relaxation.solution
      s.tree.domains = .ok (.boundChanges [⟨0, 4, .upper⟩]) := by
    rw [Storage.appraise_eq_of_kept (.inl hforced)]
    exact congrArg (Functor.map Appraisal.boundChanges) hchanges
  have hnew : ¬s.relaxation.Contains ⟨atMost (7 / 2), 0⟩ := by
    simp [hs, limited, start, Relaxation.Contains, Relaxation.position, Relaxation.ofSolution]
  have hside : Cut.HasFiniteSide (atMost (7 / 2)) := .inr rfl
  change (s.storage.addCut ⟨atMost (7 / 2), 0⟩ 1 false s.relaxation s.tree.domains).state.boundChanges
    = _
  rw [Storage.addCut, if_neg hnew, if_neg (not_not.mpr hside), happraise,
    Storage.boundChanges_accept]
  rfl

theorem bounds_stay_integral_rounded :
    ∃ r ∈ run (limited (7 / 2) 10 (3 / 4)) [.add 0 1 false, .apply],
      r.state.storage.boundChanges = [⟨0, 4, .upper⟩] ∧
        Domain.adjust ⟨.integer, some 0, some 10⟩ .upper 4 ⟨0, 3 / 4, 1⟩ = (4 : ℝ) := by
  have hroot : ∀ d ∈ ([⟨.integer, some 0, some 10⟩] : Domains ℝ), d.kind = .integer →
      ∀ direction, ∀ bound ∈ d.bound direction, ∃ m : ℤ, bound = m := by
    rw [List.forall_mem_singleton]
    rintro - (_ | _) bound ⟨⟩
    · exact ⟨0, by simp⟩
    · exact ⟨10, by simp⟩
  have hmem : (limited (7 / 2) 10 (3 / 4)).perform (.add 0 1 false) ∈
      run (limited (7 / 2) 10 (3 / 4)) [.add 0 1 false, .apply] := by
    rcases run_cons (limited (7 / 2) 10 (3 / 4)) (.add 0 1 false) [.apply] with
      ⟨-, h⟩ | ⟨-, h⟩ <;> simp [h]
  have hadjust := (bounds_stay_integral (by norm_num) (by norm_num) hroot [0]
    (by simp [Action.SetsBound]) _ hmem).2.1
  rw [boundChanges_limited] at hadjust
  exact ⟨_, hmem, boundChanges_limited, hadjust _ (List.mem_singleton_self _)
    ⟨none, 0, [⟨.integer, some 0, some 10⟩], false⟩ (List.mem_singleton_self _) _ rfl .upper⟩

end Session
end CutSelection
