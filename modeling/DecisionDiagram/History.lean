import DecisionDiagram.Operation

/-!
# Histories of a manager

A manager changes only through operations. `Operation.after` is the manager that
an operation leaves, also when it fails, and `Operation.outcome` is what it
brought. A manager is reached if it was created and then only operated on; laws
about "every manager" are laws about these. References do not run out in them;
`ReachedWithin` is about managers in which they do.
-/

namespace DecisionDiagram

namespace Operation

/-- The manager after an operation, which may have failed. -/
def after (op : Operation) (m : Manager) : Manager :=
  match op.perform m with
  | .ok _ m => m
  | .error _ m => m

def outcome (op : Operation) (m : Manager) : Except Fault Answer :=
  match op.perform m with
  | .ok answer _ => .ok answer
  | .error fault _ => .error fault

/-- What each operation of a history brings, with the manager in the end. -/
def run : List Operation → Manager → List (Except Fault Answer) × Manager
  | [], m => ([], m)
  | op :: rest, m =>
      let ⟨outcomes, final⟩ := run rest (op.after m)
      (op.outcome m :: outcomes, final)

end Operation

/-- The managers that some history leads to. -/
inductive Manager.Reached : Manager → Prop where
  | created {config : Config} {m : Manager} (created : Manager.create config = .ok m) : Reached m
  | operated {m : Manager} (reached : Reached m) (op : Operation) : Reached (op.after m)

/-- The managers that some history leads to if there are references for so many nodes only. -/
inductive Manager.ReachedWithin (limit : Nat) : Manager → Prop where
  | created {config : Config} {m : Manager} (created : Manager.create config = .ok m) :
      ReachedWithin limit (m.within limit)
  | operated {m : Manager} (reached : ReachedWithin limit m) (op : Operation) :
      ReachedWithin limit (op.after m)

/-- A history that starts at a reached manager ends at one. -/
theorem Manager.Reached.run {m : Manager} (reached : m.Reached) (history : List Operation) :
    (Operation.run history m).2.Reached := by
  induction history generalizing m with
  | nil => exact reached
  | cons op rest ih => exact ih (reached.operated op)

end DecisionDiagram
