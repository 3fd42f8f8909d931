import DecisionDiagram.Fault

/-!
# State variables and their two copies

A transition relation speaks about each state variable twice, before and after
the step. State variable `k` owns the adjacent diagram variables `2 * k`, its
current copy, and `2 * k + 1`, its next copy, so the copies interleave in the
variable order. Diagram variable 0 labels the leaves and variable 1 belongs to
no state variable.
-/

namespace DecisionDiagram

inductive StateCopy where
  | current
  | next
  deriving DecidableEq, Repr

/-- A diagram variable taken to its namesake in the given copy; variable 1 stays where it is. -/
def StateCopy.rename : StateCopy → Nat → Nat
  | .current, var => if var = 1 then 1 else 2 * (var / 2)
  | .next, var => 2 * (var / 2) + 1

/-- A diagram variable that is a copy of some state variable. -/
structure StateVariable where
  /-- The diagram variable. -/
  id : Nat
  /-- The smallest state variable is number one. -/
  two_le_id : 2 ≤ id

namespace StateVariable

/-- The largest state variable whose two copies fit into 32 bits. -/
def maxNumber : Nat := 1 <<< 31 - 1

def number (v : StateVariable) : Nat :=
  v.id / 2

def copy (v : StateVariable) : StateCopy :=
  if v.id % 2 = 1 then .next else .current

def inCopy (v : StateVariable) (copy : StateCopy) : StateVariable where
  id := copy.rename v.id
  two_le_id := by
    have lower := v.two_le_id
    cases copy <;> simp only [StateCopy.rename]
    · split <;> omega
    · omega

def current (number : Nat) : Except Fault StateVariable :=
  if h : number = 0 then .error .zeroStateVariable
  else if number ≤ maxNumber then .ok ⟨2 * number, by omega⟩
  else .error (.stateVariableTooLarge number)

def next (number : Nat) : Except Fault StateVariable :=
  (current number).map (inCopy · .next)

def ofId (id : Nat) : Except Fault StateVariable :=
  if h : 2 ≤ id then .ok ⟨id, h⟩ else .error (.untaggedIdentifier id)

/-- The next copy is marked by a prime. -/
def text (v : StateVariable) : String :=
  match v.copy with
  | .current => s!"x{v.number}"
  | .next => s!"x{v.number}'"

def sort (vars : List StateVariable) : List StateVariable :=
  vars.mergeSort fun v w => decide (v.id ≤ w.id)

end StateVariable

end DecisionDiagram
