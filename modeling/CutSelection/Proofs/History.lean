import CutSelection.Proofs.Steps

/-!
Histories of a session: the steps that led to it, each with the session that it was performed on. A
history ends where a run would not go on.
-/

namespace CutSelection.Session

variable {K : Type} [Scalar K]

/-- The steps of a run that goes on, up to the session that they lead to. -/
inductive History (start : Session K) : List (Session K × Action K) → Session K → Prop
  | nil : History start [] start
  | concat {steps : List (Session K × Action K)} {s : Session K} (h : History start steps s)
      {action : Action K} (hr : GoesOn (s.perform action).result) :
      History start (steps ++ [(s, action)]) (s.perform action).state

/-- The steps that a list of actions amounts to, as far as it goes on. -/
def trail (s : Session K) : List (Action K) → List (Session K × Action K) × Session K
  | [] => ([], s)
  | action :: actions =>
    if GoesOn (s.perform action).result then
      let rest := trail (s.perform action).state actions
      ((s, action) :: rest.1, rest.2)
    else ([], s)

variable {start s : Session K} {steps : List (Session K × Action K)}

theorem History.cons {action : Action K} (hr : GoesOn (start.perform action).result)
    (h : History (start.perform action).state steps s) :
    History start ((start, action) :: steps) s := by
  induction h with
  | nil => exact .concat .nil hr
  | concat _ hr ih => exact ih.concat hr

theorem history_trail (start : Session K) (actions : List (Action K)) :
    History start (start.trail actions).1 (start.trail actions).2 := by
  induction actions generalizing start with
  | nil => exact .nil
  | cons action actions ih =>
    rw [trail]
    split
    · rename_i hr
      exact .cons hr (ih _)
    · exact .nil

end CutSelection.Session
