import DecisionDiagram.Manager.Apply

/-!
# A wrapping counter as a transition relation

The counter has a number of bits and counts up by one until it reaches a limit,
from which it goes back to zero. Bit `i` is state variable `i + 1`. The states
that can be reached from zero are computed as a least fixed point of the image
under the transition relation.
-/

namespace DecisionDiagram.Counter

open Manager

def valueCount (bits : Nat) : Nat :=
  1 <<< bits

def currentVar (bit : Nat) : Nat :=
  2 * (bit + 1)

def nextVar (bit : Nat) : Nat :=
  2 * (bit + 1) + 1

/-- Add to a set of states the condition that one bit is as in a number. -/
def conjBit (number : Nat) (states : Ref) (bit : Nat) : ManagerM Ref := do
  let condition ← literal (currentVar bit) (number.testBit bit)
  conj states condition

def value (bits number : Nat) : ManagerM Ref :=
  (List.range bits).foldlM (conjBit number) Ref.trueLeaf

/-- One bit of the sum of the counter and one, as an equation; the carry is passed on. -/
def incrementBit (bit : Nat) : StateT Ref ManagerM Ref := do
  let carry ← get
  let x ← literal (currentVar bit) true
  let y ← literal (nextVar bit) true
  let sum ← apply .xor x carry
  let equation ← apply .eq y sum
  set (← conj x carry)
  return equation

/-- The relation in which the next value is the current one plus one, without the last carry. -/
def increment (bits : Nat) : ManagerM Ref := do
  let equations ← ((List.range bits).mapM incrementBit).run' Ref.trueLeaf
  conjAll equations

/-- The counter's steps: up below the limit and down to zero at the limit. -/
def transition (bits limit : Nat) : ManagerM Ref := do
  let atLimit ← value bits limit
  let zero ← value bits 0
  let nextZero ← rename .next zero
  let notAtLimit ← neg atLimit
  let up ← increment bits
  let upBelow ← conj notAtLimit up
  let wrap ← conj atLimit nextZero
  disj upBelow wrap

def image (bits : Nat) (steps states : Ref) : ManagerM Ref := do
  let taken ← conj states steps
  let reached ← existsVars taken ((List.range bits).map currentVar)
  rename .current reached

/-- Add images until nothing new is reached, and count the additions that brought something. -/
def reachFrom (bits : Nat) (steps : Ref) : Nat → Ref → Nat → ManagerM (Ref × Nat)
  | 0, reached, count => return (reached, count)
  | fuel + 1, reached, count => do
      let new ← image bits steps reached
      let larger ← disj reached new
      if larger = reached then
        return (reached, count)
      else
        reachFrom bits steps fuel larger (count + 1)

/-- The states reached from zero; each addition but the last brings one of the states. -/
def reach (bits limit : Nat) : ManagerM (Ref × Nat) := do
  let steps ← transition bits limit
  let zero ← value bits 0
  reachFrom bits steps (valueCount bits) zero 0

/-- Check that the value is among the reached states exactly when it is within the limit. -/
def checkValue (bits limit : Nat) (reached : Ref) (number : Nat) : ManagerM Unit := do
  let expected := decide (number ≤ limit)
  let state ← value bits number
  let contained ← contains reached state
  if contained ≠ expected then
    throw (.unexpected contained expected)
  let met ← intersects reached state
  if met ≠ expected then
    throw (.unexpected met expected)

/-- The values that are checked: those up to the first one past the limit, 4096 at most. -/
def checkedValues (bits limit : Nat) : List Nat :=
  List.range (min (min (valueCount bits) (limit + 2)) 4096)

end DecisionDiagram.Counter
