import CutSelection.Decimal
import CutSelection.Event
import CutSelection.Statistics

/-!
The text of vectors, cuts, bound changes, counters and events. Numbers are written with the fewest
digits that read back, orthogonalities in events with four places.
-/

namespace CutSelection

def SparseVector.text (v : SparseVector Float) : String :=
  let entry (e : Entry Float) := "(" ++ toString e.1 ++ " " ++ Binary64.text e.2 ++ ")"
  "[" ++ ", ".intercalate (v.entries.map entry) ++ "]"

/-- A missing side is left out, and so is a constant that is zero. -/
def Cut.text (cut : Cut Float) : String :=
  let lhs := match cut.lhs with
    | none => ""
    | some lhs => Binary64.text lhs ++ " <= "
  let constant := if Scalar.IsZero cut.constant then "" else " + " ++ Binary64.text cut.constant
  let rhs := match cut.rhs with
    | none => ""
    | some rhs => " <= " ++ Binary64.text rhs
  cut.name ++ ": " ++ lhs ++ cut.coefficients.text ++ constant ++ rhs

def BoundChange.text (c : BoundChange Float) : String :=
  let relation := match c.direction with
    | .lower => " >= "
    | .upper => " <= "
  "x" ++ toString c.column ++ relation ++ Binary64.text c.value

/-- A counter, aligned to the right in ten columns. -/
def Statistics.column (n : Nat) : String :=
  let digits := toString n
  "".pushn ' ' (10 - digits.length) ++ digits

def Statistics.text (s : Statistics) : String :=
  "Separation storage\n" ++
  "  cuts found:            " ++ column s.found ++ "\n" ++
  "  cuts applied:          " ++ column s.applied ++ "\n" ++
  "  bound changes applied: " ++ column s.boundChangesApplied ++ "\n" ++
  "  rounds:                " ++ column s.rounds

def Rejection.reason : Rejection → String
  | .noCapacity => "no capacity"
  | .scoreTooLow => "score too low"
  | .tooParallel => "too parallel"

def RoundEnd.text : RoundEnd → String
  | .applied => "applied"
  | .cleared => "cleared"

namespace Event

/-- Events that change what will be committed are of general interest, the others are details. -/
inductive Level
  | debug
  | trace

def Level.text : Level → String
  | .debug => "DEBUG"
  | .trace => "TRACE"

def level : Event Float → Level
  | .storedAsBoundChange _ _ | .stored _ _ _ | .changeApplied _ | .changeInfeasible _ _ => .debug
  | .rowsRemoved _ _ | .roundEnded _ _ _ _ _ => .debug
  | _ => .trace

def text : Event Float → String
  | .redundant cut => "Cut " ++ cut ++ " is redundant"
  | .storedAsBoundChange cut change => "Cut " ++ cut ++ " stored as bound change " ++ change.text
  | .tightensNothing cut => "Cut " ++ cut ++ " does not tighten the bounds of its variable"
  | .stored cut rank count =>
    "Cut " ++ cut ++ " stored at rank " ++ toString rank ++ " of " ++ toString count
  | .rejected cut why => "Cut " ++ cut ++ " rejected, " ++ why.reason
  | .tooParallel cut better orthogonality =>
    "Cut " ++ cut ++ " is too parallel to cut " ++ better ++ " (orthogonality " ++
      Binary64.textWithPlaces 4 orthogonality ++ ")"
  | .evictedAtCapacity cut capacity =>
    "Cut " ++ cut ++ " evicted, storage is at capacity " ++ toString capacity
  | .evictedAsParallel cut orthogonality =>
    "Cut " ++ cut ++ " evicted, orthogonality " ++ Binary64.textWithPlaces 4 orthogonality ++
      " too low"
  | .changeApplied change => "Applied bound change " ++ change.text
  | .changeDominated change => "Bound change " ++ change.text ++ " is dominated"
  | .changeInfeasible change node =>
    "Bound change " ++ change.text ++ " makes node " ++ toString node ++ " infeasible"
  | .rowAdded cut depth => "Added cut " ++ cut ++ " to the LP at depth " ++ toString depth
  | .rowsRemoved count depth =>
    "Removed " ++ toString count ++ " rows added below depth " ++ toString depth
  | .roundEnded round how kept found total =>
    "Separation round " ++ toString round ++ " " ++ how.text ++ ": " ++ toString kept ++ " of " ++
      toString found ++ " cuts stored, " ++ toString total ++ " cuts applied in total"

def line (e : Event Float) : String := e.level.text ++ ": " ++ e.text

end Event
end CutSelection
