import Std.Data.TreeMap
import Std.Data.TreeSet
import DecisionDiagram.Manager.Basic

/-!
# Queries

Questions about the diagrams of a manager that make no node and leave the
computed table alone: values under an assignment, structural equality,
cofactors, the nodes below a reference, the variables of a diagram and its text.
-/

namespace DecisionDiagram.Manager

/-! ## Values -/

/-- The value of a diagram under an assignment: the leaf at the end of the path it selects. -/
def evaluate (m : Manager) (f : Ref) (assignment : Nat → Bool) : Except Fault Bool := do
  match ← m.node f with
  | ⟨.leaf value, _⟩ => return value
  | ⟨.decision var high low, _⟩ =>
      if assignment var then m.evaluate high assignment else m.evaluate low assignment
termination_by f.slot
decreasing_by
  · exact Node.high_slot_lt ‹_›
  · exact Node.low_slot_lt ‹_›

/--
The assignment of one row of a truth table: a listed variable is true if the bit at its place in the
row's number is set, and all other variables are false.
-/
def rowAssignment (vars : List Nat) (row : Nat) (var : Nat) : Bool :=
  vars.zipIdx.any fun ⟨listed, place⟩ => listed = var && row.testBit place

def truthTable (m : Manager) (f : Ref) (vars : List Nat) : Except Fault (List Bool) :=
  (List.range (1 <<< vars.length)).mapM fun row => m.evaluate f (rowAssignment vars row)

/-! ## Structure -/

abbrev Compared := Std.TreeSet (Ref × Ref) Ref.comparePairs

/-- Whether two diagrams have the same structure, where pairs compared before are not again. -/
def equalsFrom (m : Manager) (p q : Ref) : StateT Compared (Except Fault) Bool := do
  if p = q then
    return true
  if (← get).contains (p, q) then
    return true
  modify (·.insert (p, q))
  match ← m.node p, ← m.node q with
  | ⟨.leaf a, _⟩, ⟨.leaf b, _⟩ => return a = b
  | ⟨.decision v highP lowP, _⟩, ⟨.decision w highQ lowQ, _⟩ =>
      if v ≠ w then
        return false
      else if ← m.equalsFrom highP highQ then
        m.equalsFrom lowP lowQ
      else
        return false
  | _, _ => return false
termination_by p.slot
decreasing_by
  · exact Node.high_slot_lt ‹_›
  · exact Node.low_slot_lt ‹_›

def equals (m : Manager) (p q : Ref) : Except Fault Bool :=
  (m.equalsFrom p q).run' ∅

/-- The two cofactors for a variable that is not below the top one. -/
def cofactors (m : Manager) (f : Ref) (var : Nat) : Except Fault (Ref × Ref) := do
  if var = 0 then
    throw .zeroVariable
  match ← m.node f with
  | ⟨.leaf _, _⟩ => return (f, f)
  | ⟨.decision top high low, _⟩ =>
      if var < top then
        return (f, f)
      else if var = top then
        return (high, low)
      else
        throw (.belowTop var top)

/-! ## The nodes of a diagram -/

abbrev Met := Std.TreeMap Nat Node

def meetFrom (m : Manager) (f : Ref) : StateT Met (Except Fault) Unit := do
  match ← m.node f with
  | ⟨.leaf _, _⟩ => return
  | ⟨.decision var high low, _⟩ =>
      if (← get).contains f.slot then
        return
      modify (·.insert f.slot (.decision var high low))
      m.meetFrom high
      m.meetFrom low
termination_by f.slot
decreasing_by
  · exact Node.high_slot_lt ‹_›
  · exact Node.low_slot_lt ‹_›

def decisions (m : Manager) (f : Ref) : Except Fault (List (Ref × Node)) := do
  let ⟨_, met⟩ ← (m.meetFrom f).run ∅
  return met.toList.map fun ⟨slot, node⟩ => (⟨slot⟩, node)

def support (m : Manager) (f : Ref) : Except Fault (List Nat) := do
  let nodes ← m.decisions f
  let vars : Std.TreeSet Nat := nodes.foldl (fun vars entry => vars.insert entry.2.var) ∅
  return vars.toList

/-! ## Text -/

/-- A diagram written out as nested brackets; decisions are marked by their references. -/
def text (m : Manager) (f : Ref) : Except Fault String := do
  match ← m.node f with
  | ⟨.leaf value, _⟩ => return s!"({Ref.ofBool value})"
  | ⟨.decision var high low, _⟩ =>
      let onTrue ← m.text high
      let onFalse ← m.text low
      return s!"{f}:(x{var}, {onTrue}, {onFalse})"
termination_by f.slot
decreasing_by
  · exact Node.high_slot_lt ‹_›
  · exact Node.low_slot_lt ‹_›

end DecisionDiagram.Manager
