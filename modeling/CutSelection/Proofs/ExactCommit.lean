import Mathlib
import CutSelection.Proofs.Exactness

/-!
A round at one node, from an empty storage to the commit. The pending changes say the same about the
points of the box as the submitted cuts on a single variable, so the commit leaves exactly the
points that satisfy these cuts, in whatever order they were submitted.
-/

namespace CutSelection

variable {t : Tolerances ℝ} {domains : Domains ℝ}

/-- Changes on columns of a box that hold for the points of the box which satisfy the cuts on a
single variable among some rows. -/
structure Encodes (domains : Domains ℝ) (rows : List (Row ℝ)) (changes : List (BoundChange ℝ)) :
    Prop where
  column_lt : ∀ change ∈ changes, change.column < domains.length
  holds_iff : ∀ x, domains.Admit x → ((∀ change ∈ changes, change.Holds x) ↔
    ∀ row ∈ rows, row.singleEntry.isSome → row.IsSatisfiedBy x)

namespace Encodes

theorem nil (domains : Domains ℝ) : Encodes domains [] [] := ⟨by simp, by simp⟩

theorem append {rows rows' : List (Row ℝ)} {changes changes' : List (BoundChange ℝ)}
    (h : Encodes domains rows changes) (h' : Encodes domains rows' changes') :
    Encodes domains (rows ++ rows') (changes ++ changes') := by
  refine ⟨List.forall_mem_append.mpr ⟨h.column_lt, h'.column_lt⟩, fun x hx => ?_⟩
  rw [List.forall_mem_append, List.forall_mem_append, h.holds_iff x hx, h'.holds_iff x hx]

theorem of_forall {row : Row ℝ}
    (h : ∀ x, domains.Admit x → row.singleEntry.isSome → row.IsSatisfiedBy x) :
    Encodes domains [row] [] :=
  ⟨by simp, fun x hx => by simpa using h x hx⟩

theorem of_boundChanges (ht : t.Exact) {row : Row ℝ} {e : Entry ℝ} {changes : List (BoundChange ℝ)}
    (hs : row.singleEntry = some e) (h : row.boundChanges e domains t = .ok changes) :
    Encodes domains [row] changes := by
  have he := Cut.ne_zero_of_singleEntry hs
  refine ⟨fun change hc => ?_, fun x hx => ⟨fun hholds => ?_, fun hsat => ?_⟩⟩
  · obtain ⟨domain, hd, side, hside⟩ := (Cut.mem_boundChanges he h).mp hc
    obtain ⟨_, _, _, rfl⟩ := Cut.sideChange_eq_some.mp hside
    exact (List.getElem?_eq_some_iff.mp hd).1
  · simp only [List.mem_singleton, forall_eq, hs, Option.isSome_some, forall_const]
    obtain ⟨domain, hd, rfl⟩ := (Cut.boundChanges_eq_ok he).mp h
    obtain ⟨hk, hcontains⟩ := hx e.1 domain hd
    intro side limit hlimit
    rw [Cut.value_of_singleEntry hs, ← Direction.limits_through he, ← Domain.limits_adjust_iff ht hk]
    by_cases htight : domain.IsTightenedBy (side.through e.2)
        (domain.adjust (side.through e.2) ((limit - row.constant) / e.2) t) t
    · refine hholds ⟨e.1, _, side.through e.2⟩ ?_
      exact (Cut.mem_boundChanges he h).mpr ⟨domain, hd, side,
        Cut.sideChange_eq_some.mpr ⟨limit, hlimit, htight, rfl⟩⟩
    · rw [Domain.isTightenedBy_iff ht] at htight
      push Not at htight
      obtain ⟨bound, hb, hlimits⟩ := htight
      exact hlimits.trans (hcontains _ bound hb)
  · have hrow : row.IsSatisfiedBy x := hsat row (by simp) (by simp [hs])
    exact Cut.holds_of_mem_boundChanges ht.feasibility.ge hs h hx hrow

end Encodes

structure Submission (K : Type) [Scalar K] where
  row : Row K
  scorefactor : K
  atRoot : Bool
  relaxation : Relaxation K

/-- The points of a box that satisfy all submitted cuts on a single variable. -/
def Domains.remaining (domains : Domains ℝ) (cs : List (Submission ℝ)) : Set (Nat → ℝ) :=
  {x | domains.Admit x ∧ ∀ c ∈ cs, c.row.modifiable = false → c.row.coefficients.nonzeroCount = 1 →
    c.row.IsSatisfiedBy x}

theorem Encodes.mem_remaining_iff {cs : List (Submission ℝ)} {changes : List (BoundChange ℝ)}
    (h : Encodes domains (cs.map (·.row)) changes) (x : Nat → ℝ) :
    x ∈ domains.remaining cs ↔ domains.Admit x ∧ ∀ change ∈ changes, change.Holds x := by
  refine and_congr_right fun hx => ?_
  rw [h.holds_iff x hx]
  simp [Cut.isSome_singleEntry_iff]

theorem Domains.remaining_perm {cs cs' : List (Submission ℝ)} (h : cs'.Perm cs) :
    domains.remaining cs' = domains.remaining cs := by
  ext x
  simp [Domains.remaining, h.mem_iff]

namespace Storage

def submit {K : Type} [Scalar K] (domains : Domains K) (s : Storage K) (c : Submission K) :
    Except Fault (Storage K) :=
  let r := s.addCut c.row c.scorefactor c.atRoot c.relaxation domains
  (fun _ => r.state) <$> r.result

/-- Submit cuts one after the other, as long as the submissions return. -/
def submitAll {K : Type} [Scalar K] (domains : Domains K) (s : Storage K)
    (cs : List (Submission K)) : Except Fault (Storage K) := cs.foldlM (submit domains) s

variable {s s' : Storage ℝ}

theorem encodes_of_appraise (ht : s.settings.tolerances.Exact) {row : Row ℝ} {scorefactor : ℝ}
    {atRoot : Bool} {solution : List ℝ} {a : Appraisal ℝ}
    (ha : s.appraise row scorefactor atRoot solution domains = .ok a) :
    Encodes domains [row] a.changes := by
  rcases appraise_cases ha with ⟨rfl, -, hr⟩ | ⟨e, changes, he, rfl, hc⟩ | ⟨he, valuation, rfl⟩
  · exact .of_forall fun x hx _ => Cut.isSatisfiedBy_of_isRedundant ht.feasibility hx.contain hr
  · exact .of_boundChanges ht he hc
  · exact .of_forall fun x _ hsome => by simp [he] at hsome

theorem submit_eq_ok (ht : s.settings.tolerances.Exact) {c : Submission ℝ}
    (h : s.submit domains c = .ok s') : s'.settings = s.settings ∧
      ∃ changes, s'.boundChanges = s.boundChanges ++ changes ∧ Encodes domains [c.row] changes := by
  unfold submit at h
  cases hr : (s.addCut c.row c.scorefactor c.atRoot c.relaxation domains).result with
  | error f => simp [hr, Functor.map, Except.map] at h
  | ok admission =>
    simp only [hr, Functor.map, Except.map, Except.ok.injEq] at h
    subst h
    obtain ⟨a, ha, hchanges⟩ := boundChanges_addCut hr
    exact ⟨settings_addCut .., a.changes, hchanges, encodes_of_appraise ht ha⟩

theorem submitAll_eq_ok (ht : s.settings.tolerances.Exact) {cs : List (Submission ℝ)}
    (h : s.submitAll domains cs = .ok s') : s'.settings = s.settings ∧
      ∃ changes, s'.boundChanges = s.boundChanges ++ changes ∧
        Encodes domains (cs.map (·.row)) changes := by
  induction cs generalizing s with
  | nil =>
    cases h
    exact ⟨rfl, [], by simp, .nil domains⟩
  | cons c cs ih =>
    unfold submitAll at h
    rw [List.foldlM_cons] at h
    cases hc : s.submit domains c with
    | error f => simp [hc, bind, Except.bind] at h
    | ok next =>
      simp only [hc, bind, Except.bind] at h
      obtain ⟨hsettings, changes, hchanges, hencodes⟩ := submit_eq_ok ht hc
      obtain ⟨hsettings', changes', hchanges', hencodes'⟩ := ih (hsettings ▸ ht) h
      refine ⟨hsettings'.trans hsettings, changes ++ changes', ?_, hencodes.append hencodes'⟩
      rw [hchanges', hchanges, List.append_assoc]

theorem applyCuts_exact (ht : s.settings.tolerances.Exact) (hs : s.isEmpty = true)
    {tree : SearchTree ℝ} (hreg : tree.domains.Regular) {cs : List (Submission ℝ)}
    (h : s.submitAll tree.domains cs = .ok s') {lp : Relaxation ℝ}
    (hr : (lp.addRows tree.focusNode.depth (s'.cuts.map (·.row))).refusal = none) :
    ((s'.applyCuts lp tree).result = .ok true ∧ tree.domains.remaining cs = ∅) ∨
      (s'.applyCuts lp tree).result = .ok false ∧
        ∃ changes, BoundChange.Reduces tree (s'.applyCuts lp tree).state.2.2 changes ∧
          ∀ x, (s'.applyCuts lp tree).state.2.2.domains.Admit x ↔ x ∈ tree.domains.remaining cs := by
  obtain ⟨hsettings, changes, hchanges, hencodes⟩ := submitAll_eq_ok ht h
  have hnil : s.boundChanges = [] := by
    simp only [isEmpty, Bool.and_eq_true, List.isEmpty_iff] at hs
    exact hs.2
  rw [hnil, List.nil_append] at hchanges
  obtain ⟨hfault, hcase⟩ := BoundChange.applyAll_exact ht hreg hencodes.column_lt
  rw [← hsettings, ← hchanges] at hfault hcase
  obtain ⟨hresult, htree⟩ := applyCuts_of_ok hfault hr
  rw [hresult, htree]
  rcases hcase with ⟨htrue, hnone⟩ | ⟨hfalse, hreduces⟩
  · left
    refine ⟨by rw [htrue], Set.eq_empty_iff_forall_notMem.mpr fun x hx => ?_⟩
    obtain ⟨hpoint, hholds⟩ := (hencodes.mem_remaining_iff x).mp hx
    exact hnone x hpoint (hchanges ▸ hholds)
  · right
    refine ⟨by rw [hfalse], _, hreduces, fun x => ?_⟩
    rw [hreduces.admit_iff, hencodes.mem_remaining_iff, hchanges]

/-- Without tolerances a commit is exact, and it does not depend on the order of the submissions: it
reports infeasibility if and only if no point of the box satisfies the submitted cuts on a single
variable, and otherwise it leaves exactly the points that do. -/
theorem commit_exact (ht : s.settings.tolerances.Exact) (hs : s.isEmpty = true)
    {tree : SearchTree ℝ} (hreg : tree.domains.Regular) {cs : List (Submission ℝ)}
    (h : s.submitAll tree.domains cs = .ok s') {lp : Relaxation ℝ}
    (hr : (lp.addRows tree.focusNode.depth (s'.cuts.map (·.row))).refusal = none) :
    ∃ infeasible, (s'.applyCuts lp tree).result = .ok infeasible ∧
      (infeasible = true ↔ tree.domains.remaining cs = ∅) ∧
      (infeasible = false → ∀ x, tree.domains.Admit x →
        ((s'.applyCuts lp tree).state.2.2.domains.Admit x ↔ x ∈ tree.domains.remaining cs)) ∧
      ∀ (cs' : List (Submission ℝ)) (other : Storage ℝ) (lp' : Relaxation ℝ), cs'.Perm cs →
        s.submitAll tree.domains cs' = .ok other →
        (lp'.addRows tree.focusNode.depth (other.cuts.map (·.row))).refusal = none →
          (other.applyCuts lp' tree).result = .ok infeasible ∧
            (infeasible = false → (other.applyCuts lp' tree).state.2.2.domains =
              (s'.applyCuts lp tree).state.2.2.domains) := by
  rcases applyCuts_exact ht hs hreg h hr with ⟨hresult, hempty⟩ | ⟨hresult, changes, hreduces, hx⟩
  · refine ⟨true, hresult, by simp [hempty], by simp, fun cs' other lp' hperm h' hr' => ?_⟩
    rcases applyCuts_exact ht hs hreg h' hr' with ⟨hresult', -⟩ | ⟨-, changes', hreduces', hx'⟩
    · exact ⟨hresult', by simp⟩
    · obtain ⟨x, hpoint⟩ := hreduces'.regular.exists_admit
      have := (hx' x).mp hpoint
      rw [Domains.remaining_perm hperm, hempty] at this
      exact absurd this (Set.notMem_empty x)
  · obtain ⟨x, hpoint⟩ := hreduces.regular.exists_admit
    have hne : tree.domains.remaining cs ≠ ∅ := Set.nonempty_iff_ne_empty.mp ⟨x, (hx x).mp hpoint⟩
    refine ⟨false, hresult, by simp [hne], fun _ x _ => hx x, fun cs' other lp' hperm h' hr' => ?_⟩
    rcases applyCuts_exact ht hs hreg h' hr' with ⟨-, hempty'⟩ | ⟨hresult', changes', hreduces', hx'⟩
    · exact absurd (Domains.remaining_perm hperm ▸ hempty') hne
    · refine ⟨hresult', fun _ => ?_⟩
      refine hreduces'.regular.eq_of_admit_iff hreduces.regular
        (hreduces'.kinds.trans hreduces.kinds.symm) fun x => ?_
      rw [hx', hx, Domains.remaining_perm hperm]

theorem submit_of_boundChanges {c : Submission ℝ} {e : Entry ℝ} {changes : List (BoundChange ℝ)}
    (hlp : ¬c.relaxation.Contains c.row) (hside : c.row.HasFiniteSide)
    (hforced : s.Forces c.scorefactor) (he : c.row.singleEntry = some e)
    (hc : c.row.boundChanges e domains s.settings.tolerances = .ok changes) (hne : changes ≠ []) :
    ∃ s', s.submit domains c = .ok s' ∧ s'.settings = s.settings ∧ s'.cuts = s.cuts ∧
      s'.boundChanges = s.boundChanges ++ changes := by
  have ha : s.appraise c.row c.scorefactor c.atRoot c.relaxation.solution domains =
      .ok (.boundChanges changes) := by
    rw [appraise_eq_of_kept (.inl hforced), he]
    dsimp only
    rw [hc]
    rfl
  cases changes with
  | nil => exact absurd rfl hne
  | cons change changes =>
    rw [submit, addCut]
    simp [hlp, hside, ha, accept, Functor.map, Except.map]

theorem exact_sample : (Settings.sample 0).tolerances.Exact := ⟨rfl, rfl⟩

noncomputable def boundCut (side : Direction) (value : ℝ) : Submission ℝ where
  row := ⟨⟨"bound", .ofDense [1], 0, if side = .lower then some value else none,
    if side = .upper then some value else none, false⟩, 0⟩
  scorefactor := (Settings.sample 0).tolerances.infinity
  atRoot := false
  relaxation := .ofSolution [0]

theorem singleEntry_boundCut (side : Direction) (v : ℝ) :
    (boundCut side v).row.singleEntry = some (0, 1) := by
  simp [boundCut, Cut.singleEntry, SparseVector.ofDense, SparseVector.nonzeros]

noncomputable def tenWide : SearchTree ℝ := .ofRoot [⟨.continuous, some 0, some 10⟩]

theorem refusal_tenWide (hc : s.cuts = []) : (Relaxation.addRows tenWide.focusNode.depth
    (.ofSolution [0]) (s.cuts.map (·.row))).refusal = none := by
  rw [hc]
  rfl

theorem submit_boundCut (hs : s.settings = .sample 0) (side : Direction) {v : ℝ} (h0 : 0 < v)
    (h10 : v < 10) : ∃ s', s.submit tenWide.domains (boundCut side v) = .ok s' ∧
      s'.settings = s.settings ∧ s'.cuts = s.cuts ∧
        s'.boundChanges = s.boundChanges ++ [⟨0, v, side⟩] := by
  have hgt := fun x y => @Tolerances.isGt_iff_lt _ x y exact_sample.epsilon
  have hlt := fun x y => @Tolerances.isLt_iff_lt _ x y exact_sample.epsilon
  refine submit_of_boundChanges ?_ ?_ (.inr ?_) (singleEntry_boundCut side v) ?_
    (List.cons_ne_nil _ _)
  · simp [boundCut, Relaxation.Contains, Relaxation.position, Relaxation.ofSolution]
  · cases side <;> simp [boundCut, Cut.HasFiniteSide]
  · simp [hs, boundCut, Tolerances.IsInfinity]
  · rw [hs, Cut.boundChanges_eq_ok one_ne_zero]
    refine ⟨⟨.continuous, some 0, some 10⟩, rfl, ?_⟩
    cases side <;> simp [Cut.sideChange, Cut.side, boundCut, Direction.through, Domain.adjust,
      Domain.IsTightenedBy, Domain.bound, hgt, hlt, h0, h10]

theorem submitAll_boundCut (side side' : Direction) (v v' : ℝ) (h0 : 0 < v) (h10 : v < 10)
    (h0' : 0 < v') (h10' : v' < 10) :
    ∃ s, submitAll tenWide.domains { settings := .sample 0 }
        [boundCut side v, boundCut side' v'] = .ok s ∧ s.settings = .sample 0 ∧ s.cuts = [] ∧
      s.boundChanges = [⟨0, v, side⟩, ⟨0, v', side'⟩] := by
  obtain ⟨s, hs, hsettings, hcuts, hchanges⟩ :=
    submit_boundCut (s := { settings := .sample 0 }) rfl side h0 h10
  obtain ⟨s', hs', hsettings', hcuts', hchanges'⟩ := submit_boundCut hsettings side' h0' h10'
  refine ⟨s', ?_, hsettings'.trans hsettings, hcuts'.trans hcuts, by rw [hchanges', hchanges]; rfl⟩
  simp [submitAll, hs, hs', bind, Except.bind, pure, Except.pure]

/-- The second one of two crossing changes finds the node infeasible, which keeps the first one. -/
theorem applyAll_crossing (side : Direction) {v v' : ℝ} (h0 : 0 < v) (h10 : v < 10) (h0' : 0 < v')
    (h10' : v' < 10) (hcross : side.opposite.Crosses v' v) :
    let r := BoundChange.applyAll tenWide.focus (Settings.sample 0).tolerances tenWide
      [⟨0, v, side⟩, ⟨0, v', side.opposite⟩]
    r.fault = none ∧ r.infeasible = true ∧
      r.tree.domains = [Domain.setBound ⟨.continuous, some 0, some 10⟩ v side] := by
  have ht := exact_sample
  let d : Domain ℝ := ⟨.continuous, some 0, some 10⟩
  let tree := tenWide.setNode tenWide.focus
    { tenWide.focusNode with domains := [d.setBound v side] }
  have hfirst : BoundChange.apply ⟨0, v, side⟩ tenWide tenWide.focus
      (Settings.sample 0).tolerances = .ok (tree, .applied) := by
    refine BoundChange.apply_of_not_crossed ht (show tenWide.domains[0]? = some d from rfl) ?_ ?_
    · cases side <;> simp [d, Domain.isTightenedBy_iff ht, Domain.bound, Direction.Limits,
        Domain.adjust, h0, h10]
    · cases side <;> simp [d, Domain.IsCrossedBy, Domain.bound, Direction.opposite,
        Direction.Crosses, Domain.adjust, h0.le, h10.le]
  have hsecond : BoundChange.apply ⟨0, v', side.opposite⟩ tree tree.focus
      (Settings.sample 0).tolerances =
        .ok (tree.setNode tree.focus { tree.focusNode with infeasible := true }, .infeasible) := by
    refine BoundChange.apply_of_crossed ht
      (show tree.domains[0]? = some (d.setBound v side) from rfl) ?_ ?_
    · cases side <;> simp [d, Domain.isTightenedBy_iff ht, Domain.bound, Direction.Limits,
        Domain.adjust, Domain.setBound, Direction.opposite, h0', h10']
    · simpa [Domain.IsCrossedBy, Domain.adjust, d] using hcross
  have htree : tree.focus = tenWide.focus := rfl
  intro r
  have hr : r = ⟨tree.setNode tree.focus { tree.focusNode with infeasible := true },
      [(⟨0, v, side⟩, .applied), (⟨0, v', side.opposite⟩, .infeasible)], none⟩ := by
    simp only [r]
    rw [BoundChange.applyAll_cons_of_ok hfirst, if_neg (by simp), ← htree,
      BoundChange.applyAll_cons_of_ok hsecond, if_pos rfl]
  rw [hr]
  exact ⟨rfl, rfl, rfl⟩

theorem applyCuts_crossing (side : Direction) (v v' : ℝ) (h0 : 0 < v) (h10 : v < 10) (h0' : 0 < v')
    (h10' : v' < 10) (hcross : side.opposite.Crosses v' v) :
    ∃ s, submitAll tenWide.domains { settings := .sample 0 }
        [boundCut side v, boundCut side.opposite v'] = .ok s ∧
      (s.applyCuts (.ofSolution [0]) tenWide).result = .ok true ∧
      (s.applyCuts (.ofSolution [0]) tenWide).state.2.2.domains =
        [Domain.setBound ⟨.continuous, some 0, some 10⟩ v side] := by
  obtain ⟨s, hs, hsettings, hcuts, hchanges⟩ :=
    submitAll_boundCut side side.opposite v v' h0 h10 h0' h10'
  obtain ⟨hfault, htrue, hdomains⟩ := applyAll_crossing side h0 h10 h0' h10' hcross
  rw [← hsettings, ← hchanges] at hfault htrue hdomains
  obtain ⟨hresult, htree⟩ := applyCuts_of_ok hfault (refusal_tenWide hcuts)
  exact ⟨s, hs, by rw [hresult, htrue], by rw [htree, hdomains]⟩

/-- A node that is found infeasible keeps the bounds that were set before, and these depend on the
order of the submissions. -/
theorem infeasible_box_of_crossing :
    ∃ first second,
      submitAll tenWide.domains { settings := .sample 0 }
          [boundCut .lower 5, boundCut .upper 3] = .ok first ∧
      submitAll tenWide.domains { settings := .sample 0 }
          [boundCut .upper 3, boundCut .lower 5] = .ok second ∧
      (first.applyCuts (.ofSolution [0]) tenWide).result = .ok true ∧
      (second.applyCuts (.ofSolution [0]) tenWide).result = .ok true ∧
      (first.applyCuts (.ofSolution [0]) tenWide).state.2.2.domains ≠
        (second.applyCuts (.ofSolution [0]) tenWide).state.2.2.domains := by
  obtain ⟨first, hfirst, hresult, hdomains⟩ := applyCuts_crossing .lower 5 3
    (by norm_num) (by norm_num) (by norm_num) (by norm_num)
    (by norm_num [Direction.opposite, Direction.Crosses])
  obtain ⟨second, hsecond, hresult', hdomains'⟩ := applyCuts_crossing .upper 3 5
    (by norm_num) (by norm_num) (by norm_num) (by norm_num)
    (by norm_num [Direction.opposite, Direction.Crosses])
  refine ⟨first, second, hfirst, hsecond, hresult, hresult', ?_⟩
  rw [hdomains, hdomains']
  simp [Domain.setBound]

theorem isSatisfiedBy_boundCut {side : Direction} {v : ℝ} {x : Nat → ℝ} :
    (boundCut side v).row.IsSatisfiedBy x ↔ side.Limits v (x 0) := by
  rw [Cut.isSatisfiedBy_iff, Cut.value_of_singleEntry (singleEntry_boundCut side v)]
  cases side <;> simp [boundCut, Direction.Limits]

theorem mem_remaining_boundCut {side side' : Direction} {v v' : ℝ} {x : Nat → ℝ}
    (hx : tenWide.domains.Admit x) :
    x ∈ tenWide.domains.remaining [boundCut side v, boundCut side' v'] ↔
      side.Limits v (x 0) ∧ side'.Limits v' (x 0) := by
  have hsingle : ∀ side v, (boundCut side v).row.modifiable = false ∧
      (boundCut side v).row.coefficients.nonzeroCount = 1 := fun side v =>
    Cut.isSome_singleEntry_iff.mp (by rw [singleEntry_boundCut]; rfl)
  simp [Domains.remaining, hx, hsingle, isSatisfiedBy_boundCut]

/-- A lower and an upper bound, in both orders. The points between them are left. -/
theorem commit_exact_tenWide :
    ∃ first second,
      submitAll tenWide.domains { settings := .sample 0 }
          [boundCut .lower 5, boundCut .upper 7] = .ok first ∧
      submitAll tenWide.domains { settings := .sample 0 }
          [boundCut .upper 7, boundCut .lower 5] = .ok second ∧
      (first.applyCuts (.ofSolution [0]) tenWide).result = .ok false ∧
      (∀ x, tenWide.domains.Admit x →
        ((first.applyCuts (.ofSolution [0]) tenWide).state.2.2.domains.Admit x ↔
          5 ≤ x 0 ∧ x 0 ≤ 7)) ∧
      (second.applyCuts (.ofSolution [0]) tenWide).result = .ok false ∧
      (second.applyCuts (.ofSolution [0]) tenWide).state.2.2.domains =
        (first.applyCuts (.ofSolution [0]) tenWide).state.2.2.domains := by
  have hreg : tenWide.domains.Regular := by
    intro d hd
    obtain rfl := List.mem_singleton.mp hd
    refine ⟨fun lower hl upper hu => ?_, fun _ _ _ => trivial⟩
    cases hl
    cases hu
    norm_num
  have hsix : tenWide.domains.Admit fun _ => 6 :=
    Domains.admit_cons.mpr ⟨⟨trivial, Domain.contains_iff.mpr (by norm_num)⟩, Domains.admit_nil⟩
  obtain ⟨first, hfirst, -, hcuts, -⟩ := submitAll_boundCut .lower .upper 5 7
    (by norm_num) (by norm_num) (by norm_num) (by norm_num)
  obtain ⟨second, hsecond, -, hcuts', -⟩ := submitAll_boundCut .upper .lower 7 5
    (by norm_num) (by norm_num) (by norm_num) (by norm_num)
  obtain ⟨infeasible, hresult, hverdict, hbox, horder⟩ :=
    commit_exact exact_sample rfl hreg hfirst (refusal_tenWide hcuts)
  have hleft : (fun _ => 6) ∈ tenWide.domains.remaining [boundCut .lower 5, boundCut .upper 7] :=
    (mem_remaining_boundCut hsix).mpr (by norm_num [Direction.Limits])
  obtain rfl : infeasible = false :=
    Bool.eq_false_iff.mpr fun htrue => Set.notMem_empty _ (hverdict.mp htrue ▸ hleft)
  obtain ⟨hresult', hdomains⟩ := horder _ second _ (List.Perm.swap ..) hsecond
    (refusal_tenWide hcuts')
  exact ⟨first, second, hfirst, hsecond, hresult,
    fun x hx => (hbox rfl x hx).trans (mem_remaining_boundCut hx), hresult', hdomains rfl⟩

end Storage

end CutSelection
