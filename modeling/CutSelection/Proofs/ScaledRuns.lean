import CutSelection.Proofs.Relabelling
import CutSelection.Proofs.Scaling
import CutSelection.Proofs.Soundness

/-!
Runs on multiplied cuts. If the cuts of a catalogue are multiplied by positive factors, the
selection takes the same decisions: without a feasibility tolerance, and as long as no norm is so
small that the tolerance stands in for it, the factors cannot be seen in anything but the rows
themselves.
-/

namespace CutSelection

/-- What a ranking says about a cut. -/
structure Standing (K : Type) where
  number : Nat
  efficacy : Option K
  orthogonality : K
  score : Score K
  scorefactor : K

def RankedCut.standing {K : Type} [Scalar K] (c : RankedCut K) : Standing K :=
  ⟨c.row.number, c.efficacy, c.orthogonality, c.score, c.scorefactor⟩

namespace Session

section

variable {K : Type} [Scalar K]

/-- Two replies that tell the same, up to the coefficients and sides of rows. -/
structure Alike (r r' : Reply K (Session K) Answer) : Prop where
  result : r'.result = r.result
  events : r'.events = r.events
  ranking : r'.state.storage.cuts.map (·.standing) = r.state.storage.cuts.map (·.standing)
  boundChanges : r'.state.storage.boundChanges = r.state.storage.boundChanges
  initialLp : r'.state.storage.initialLp = r.state.storage.initialLp
  statistics : r'.state.storage.statistics = r.state.storage.statistics
  tree : r'.state.tree = r.state.tree
  solution : r'.state.relaxation.solution = r.state.relaxation.solution
  rows : r'.state.relaxation.rows.map (fun r => (r.row.number, r.depth)) =
    r.state.relaxation.rows.map fun r => (r.row.number, r.depth)
  positions : r'.state.relaxation.positions = r.state.relaxation.positions

theorem alike_relabel (ρ : Relabelling K) (r : Reply K (Session K) Answer) :
    Alike r (r.mapState (relabel ρ)) where
  result := rfl
  events := rfl
  ranking := by
    have hcuts : (r.mapState (relabel ρ)).state.storage.cuts =
        r.state.storage.cuts.map (RankedCut.relabel ρ) := rfl
    rw [hcuts, List.map_map]
    refine List.map_congr_left fun c _ => ?_
    simp only [Function.comp_apply, RankedCut.standing, RankedCut.relabel, ρ.number_row]
  boundChanges := rfl
  initialLp := rfl
  statistics := rfl
  tree := rfl
  solution := rfl
  rows := by
    have hrows : (r.mapState (relabel ρ)).state.relaxation.rows =
        r.state.relaxation.rows.map (LpRow.relabel ρ) := rfl
    rw [hrows, List.map_map]
    refine List.map_congr_left fun row _ => ?_
    simp only [Function.comp_apply, LpRow.relabel, ρ.number_row]
  positions := rfl

end

end Session

noncomputable def scaled (factor : Nat → Factor) (catalogue : List (Cut ℝ)) : List (Cut ℝ) :=
  catalogue.mapIdx fun number cut => cut.scale (factor number)

/-- The efficacy of a cut is relative to its own norm, not to what that is taken to be at least. -/
def Cut.NormCounts {K : Type} [Scalar K] (cut : Cut K) (g : Settings K) : Prop :=
  g.tolerances.epsilon ≤ cut.coefficients.normBy g.efficacyNorm

theorem Cut.NormCounts.scale {cut : Cut ℝ} {g : Settings ℝ} (h : cut.NormCounts g)
    (h0 : 0 ≤ g.tolerances.epsilon) (hn : g.efficacyNorm ≠ .discrete) {f : Factor}
    (hf : 1 ≤ (f : ℝ)) : (cut.scale f).NormCounts g :=
  calc g.tolerances.epsilon ≤ cut.coefficients.normBy g.efficacyNorm := h
    _ ≤ f * cut.coefficients.normBy g.efficacyNorm := le_mul_of_one_le_left (h0.trans h) hf
    _ = (cut.scale f).coefficients.normBy g.efficacyNorm :=
      (cut.coefficients.normBy_scale f hn).symm

theorem preserves_scaling {factor : Nat → Factor} {g : Settings ℝ} {row : Row ℝ}
    (hf : g.tolerances.feasibility = 0) (hn : g.efficacyNorm ≠ .discrete)
    (hrow : row.NormCounts g) (hscaled : (row.scale (factor row.number)).NormCounts g) :
    (scaling factor).Preserves g row where
  hasFiniteSide := row.hasFiniteSide_scale _
  isRedundant := row.isRedundant_scale _ hf
  boundChanges domains := by
    have hsingle := row.singleEntry_scale (factor row.number)
    refine (congrArg (Option.map _) hsingle).trans ?_
    rw [Option.map_map]
    exact congrArg (Option.map · _)
      (funext fun e => row.boundChanges_scale _ e domains g.tolerances)
  efficacy solution := row.efficacy_scale _ solution hn hrow hscaled

namespace Session

variable {g : Settings ℝ}

/-- Scale invariance, in exact arithmetic: a run on multiplied cuts gives the same results, and
after each of its steps the ranking, the pending changes, the counters, the search tree and the
order of the LP rows are the same. -/
theorem alike_of_scaled (hf : g.tolerances.feasibility = 0) (hn : g.efficacyNorm ≠ .discrete)
    (factor : Nat → Factor) (catalogue : List (Cut ℝ)) (solution : List ℝ) (domains : Domains ℝ)
    {actions : List (Action ℝ)}
    (hnorm : ∀ number scorefactor atRoot, .add number scorefactor atRoot ∈ actions →
      ∀ cut, catalogue[number]? = some cut →
        cut.NormCounts g ∧ (cut.scale (factor number)).NormCounts g) :
    List.Forall₂ Alike (run (start catalogue g solution domains) actions)
      (run (start (scaled factor catalogue) g solution domains) actions) := by
  have hstart : start (scaled factor catalogue) g solution domains =
      (start catalogue g solution domains).relabel (scaling factor) := rfl
  have hrun : run ((start catalogue g solution domains).relabel (scaling factor)) actions =
      (run (start catalogue g solution domains) actions).map
        (Reply.mapState (relabel (scaling factor))) := by
    refine run_relabel fun number scorefactor atRoot row hmem hrow => ?_
    obtain ⟨hcut, rfl⟩ := row_eq_ok.mp hrow
    obtain ⟨hcounts, hscaled⟩ := hnorm _ _ _ hmem _ hcut
    exact preserves_scaling hf hn hcounts hscaled
  rw [hstart, hrun, List.forall₂_map_right_iff, List.forall₂_same]
  exact fun r _ => alike_relabel _ r

/-- Two cuts that compete, and between them one on a single variable. -/
theorem alike_of_scaled_sample :
    let catalogue := [sampleCut [2, 1] 7, sampleCut [3, 0] 10, sampleCut [1, 2] 8]
    let factor : Nat → Factor := fun number => ⟨number + 2, by positivity⟩
    let domains : Domains ℝ := [⟨.integer, some 0, some 10⟩, ⟨.continuous, some 0, none⟩]
    let actions : List (Action ℝ) := [.add 0 1 false, .add 1 1 true, .add 2 1 false,
      .createChild 0, .apply, .focusOn 1, .apply]
    ((∀ cut ∈ catalogue, cut.NormCounts (.sample 1)) ∧
      (scaled factor catalogue).map (·.rhs) = [some 14, some 30, some 32]) ∧
    List.Forall₂ Alike (run (start catalogue (.sample 1) [4, 4] domains) actions)
      (run (start (scaled factor catalogue) (.sample 1) [4, 4] domains) actions) := by
  intro catalogue factor domains actions
  have hcounts : ∀ cut ∈ catalogue, cut.NormCounts (.sample 1) := by
    simp [catalogue, Cut.NormCounts, sampleCut, Settings.sample, SparseVector.normBy,
      SparseVector.norm, SparseVector.squaredNorm, SparseVector.ofDense, SparseVector.nonzeros,
      Scalar.sqrt]
    norm_num
  have hsides : (scaled factor catalogue).map (·.rhs) = [some 14, some 30, some 32] := by
    simp [scaled, catalogue, sampleCut, Cut.scale, factor]
    norm_num
  refine ⟨⟨hcounts, hsides⟩,
    alike_of_scaled rfl (by decide) _ _ _ _ fun number _ _ _ cut hcut => ?_⟩
  have hcut := hcounts cut (List.mem_of_getElem? hcut)
  have hfactor : (1 : ℝ) ≤ number + 2 := by linarith [(Nat.cast_nonneg number : (0 : ℝ) ≤ number)]
  exact ⟨hcut, hcut.scale zero_le_one (by decide) hfactor⟩

end Session
end CutSelection
