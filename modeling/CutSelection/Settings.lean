import CutSelection.SparseVector
import CutSelection.Tolerance

/-!
The parameters of the selection. Capacity and orthogonality threshold are set apart for the root.
-/

namespace CutSelection

structure Settings (K : Type) where
  maxCuts : Nat
  maxCutsRoot : Nat
  minOrthogonality : K
  minOrthogonalityRoot : K
  orthogonalityWeight : K
  efficacyNorm : Norm
  tolerances : Tolerances K

namespace Settings

def standard : Settings Float where
  maxCuts := 100
  maxCutsRoot := 2000
  minOrthogonality := 0.5
  minOrthogonalityRoot := 0.5
  orthogonalityWeight := 1
  efficacyNorm := .euclidean
  tolerances := .standard

variable {K : Type} (g : Settings K)

def capacity (atRoot : Bool) : Nat := if atRoot then g.maxCutsRoot else g.maxCuts

def threshold (atRoot : Bool) : K := if atRoot then g.minOrthogonalityRoot else g.minOrthogonality

end Settings
end CutSelection
