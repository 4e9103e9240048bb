/-!
Why an operation gives no result. A misuse and a refusal by the relaxation leave a usable state
behind; after a broken invariant or an unknown variable or node nothing more can be said.
-/

namespace CutSelection

/-- A call that the storage forbids in its present phase, or a row that may not be submitted. -/
inductive Misuse
  | alreadyInLp (name : String)
  | noFiniteSide (name : String)
  | initialLpStarted
  | storedBeforeInitialLp
  | initialLpNotStarted
  | storedInInitialLp
  deriving DecidableEq

def Misuse.message : Misuse → String
  | .alreadyInLp name => "Cut " ++ name ++ " is already in the LP"
  | .noFiniteSide name => "Cut " ++ name ++ " has no finite side"
  | .initialLpStarted => "Initial LP phase already started"
  | .storedBeforeInitialLp => "Storage not empty at start of initial LP phase"
  | .initialLpNotStarted => "Initial LP phase not started"
  | .storedInInitialLp => "Storage not empty at end of initial LP phase"

inductive Refusal
  | alreadyInLp (name : String)
  | tooManyColumns (name : String) (columns limit : Nat)
  deriving DecidableEq

def Refusal.message (r : Refusal) : String :=
  "Could not add row to the LP: " ++ match r with
    | .alreadyInLp name => "row " ++ name ++ " is already in the LP"
    | .tooManyColumns name columns limit =>
      "row " ++ name ++ " has " ++ toString columns ++ " columns, the LP has " ++ toString limit

inductive Violation
  | malformedVector
  | indexBeyondLength
  | pointTooShort
  | zeroCoefficient
  | crossingBounds
  | solutionLength
  | unknownFocus
  | unsortedRanks
  deriving DecidableEq

inductive Fault
  | misuse (m : Misuse)
  | refusal (r : Refusal)
  | violation (v : Violation)
  | unknownVariable (column : Nat)
  | unknownNode (node : Nat)
  | unknownRow (row : Nat)
  deriving DecidableEq

/-- Whether further calls make sense on the state that the failed one left. -/
def Fault.IsRecoverable : Fault → Prop
  | .misuse _ => True
  | .refusal _ => True
  | _ => False

instance : DecidablePred Fault.IsRecoverable := fun f => by
  cases f <;> unfold Fault.IsRecoverable <;> infer_instance

end CutSelection
