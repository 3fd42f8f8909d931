import Std.Data.TreeMap
import DecisionDiagram.Detached.Basic
import DecisionDiagram.Manager.Apply

/-!
# Passes over diagrams

A diagram is rebuilt by making each of its nodes anew, branches first. Nodes are
never duplicated, so the result is the diagram itself; the computed table takes
no part in it.

`detach` copies a diagram out of a manager and keeps its sharing: each cell
becomes one instance. `attach` brings a detached diagram of any shape into a
manager, where it becomes the one diagram of its function.
-/

namespace DecisionDiagram.Manager

/-! ## Rebuilding -/

/-- The references rebuilt so far, by slot. -/
abbrev Rebuilt := Std.TreeMap Nat Ref

def rebuildFrom (f : Ref) : StateT Rebuilt ManagerM Ref := do
  match ← fetch f with
  | ⟨.leaf _, _⟩ => return f
  | ⟨.decision var high low, _⟩ =>
      match (← get)[f.slot]? with
      | some result => return result
      | none =>
          let onTrue ← rebuildFrom high
          let onFalse ← rebuildFrom low
          let result ← decision var onTrue onFalse
          modify (·.insert f.slot result)
          return result
termination_by f.slot
decreasing_by
  · exact Node.high_slot_lt ‹_›
  · exact Node.low_slot_lt ‹_›

def rebuild (f : Ref) : ManagerM Ref :=
  (rebuildFrom f).run' ∅

/-! ## Out of a manager -/

/-- The instances made so far, by slot. -/
abbrev Copied := Std.TreeMap Nat Detached

def detachFrom (m : Manager) (f : Ref) : StateT Copied (ExceptT Fault Stamping) Detached := do
  match (← get)[f.slot]? with
  | some d => return d
  | none =>
      let d ←
        match ← liftExcept (m.node f) with
        | ⟨.leaf value, _⟩ => Detached.newLeaf value
        | ⟨.decision var high low, _⟩ =>
            let onTrue ← m.detachFrom high
            let onFalse ← m.detachFrom low
            Detached.newNode var onTrue onFalse
      modify (·.insert f.slot d)
      return d
termination_by f.slot
decreasing_by
  · exact Node.high_slot_lt ‹_›
  · exact Node.low_slot_lt ‹_›

def detach (m : Manager) (f : Ref) : ExceptT Fault Stamping Detached :=
  (m.detachFrom f).run' ∅

/-! ## Into a manager -/

/-- The references of the instances attached so far, by stamp. -/
abbrev Attached := Std.TreeMap Nat Ref

def attachFrom : Detached → StateT Attached ManagerM Ref
  | .leaf _ value => return Ref.ofBool value
  | .node stamp var high low => do
      match (← get)[stamp]? with
      | some result => return result
      | none =>
          let onTrue ← attachFrom high
          let onFalse ← attachFrom low
          let result ← choose var onTrue onFalse
          modify (·.insert stamp result)
          return result

/-- The diagram of the manager that has the function of a detached diagram. -/
def attach (d : Detached) : ManagerM Ref :=
  (attachFrom d).run' ∅

end DecisionDiagram.Manager
