import DecisionDiagram.Manager.Basic

/-!
# Memoised operations

A connective is applied to two diagrams by splitting both on the smaller of
their top variables and applying it to the branches. Results are remembered, so
that no pair of references is split twice. The other propositional operations
are instances and folds of `apply`.

Restriction fixes one variable of a diagram. A variable is quantified by
combining the two restrictions, the one for the true variable being made first.

`choose` decides on a variable that may stand anywhere in the order, also below
or inside the branches: if a plain node will not do, the choice is spelled out
with connectives. Renaming takes every variable of a diagram to its current or
next copy. Where a diagram holds both copies of a state variable they become
one, and then a renamed label need not precede the renamed branches.
-/

namespace DecisionDiagram.Manager

/-! ## Connectives -/

/-- The diagram whose value is the connective's at the values of the operands. -/
def apply (op : Connective) (p q : Ref) : ManagerM Ref := do
  let ⟨a, _⟩ ← fetch p
  let ⟨b, _⟩ ← fetch q
  match _ : Node.topVar? a b with
  | none => return Ref.ofBool (op.eval a.value b.value)
  | some var =>
      let key := ComputedKey.ofApply op p q
      match ← remembered key with
      | some result => return result
      | none =>
          let high ← apply op (a.cofactor var true p) (b.cofactor var true q)
          let low ← apply op (a.cofactor var false p) (b.cofactor var false q)
          let result ← decision var high low
          remember key result
          return result
termination_by p.slot + q.slot
decreasing_by
  · exact Node.cofactors_slot_lt ‹_› ‹_› ‹_› true
  · exact Node.cofactors_slot_lt ‹_› ‹_› ‹_› false

def conj (p q : Ref) : ManagerM Ref :=
  apply .and p q

def disj (p q : Ref) : ManagerM Ref :=
  apply .or p q

def imply (p q : Ref) : ManagerM Ref :=
  apply .imply p q

def neg (f : Ref) : ManagerM Ref :=
  imply f Ref.falseLeaf

def conjAll (diagrams : List Ref) : ManagerM Ref :=
  diagrams.foldlM conj Ref.trueLeaf

def disjAll (diagrams : List Ref) : ManagerM Ref :=
  diagrams.foldlM disj Ref.falseLeaf

/-- Whether `p` holds wherever `q` does. -/
def contains (p q : Ref) : ManagerM Bool := do
  let implication ← imply q p
  return implication = Ref.trueLeaf

def intersects (p q : Ref) : ManagerM Bool := do
  let common ← conj q p
  return common ≠ Ref.falseLeaf

/-! ## Restriction and quantification -/

def restrict (f : Ref) (var : Nat) (value : Bool) : ManagerM Ref := do
  if var = 0 then
    throw .zeroVariable
  match ← fetch f with
  | ⟨.leaf _, _⟩ => return f
  | ⟨.decision top high low, _⟩ =>
      if var < top then
        return f
      else if var = top then
        return if value then high else low
      else
        let key := ComputedKey.restrict f var value
        match ← remembered key with
        | some result => return result
        | none =>
            let onTrue ← restrict high var value
            let onFalse ← restrict low var value
            let result ← decision top onTrue onFalse
            remember key result
            return result
termination_by f.slot
decreasing_by
  · exact Node.high_slot_lt ‹_›
  · exact Node.low_slot_lt ‹_›

/-- True where the diagram holds for some value of the variable. -/
def existsVar (f : Ref) (var : Nat) : ManagerM Ref := do
  let onTrue ← restrict f var true
  let onFalse ← restrict f var false
  disj onTrue onFalse

/-- True where the diagram holds for both values of the variable. -/
def forallVar (f : Ref) (var : Nat) : ManagerM Ref := do
  let onTrue ← restrict f var true
  let onFalse ← restrict f var false
  conj onTrue onFalse

/-- True where the diagram holds for some values of the variables, taken one after another. -/
def existsVars (f : Ref) (vars : List Nat) : ManagerM Ref :=
  vars.foldlM existsVar f

/-! ## Choice and renaming -/

/-- The diagram that agrees with `high` where the variable is true and with `low` elsewhere. -/
def choose (var : Nat) (high low : Ref) : ManagerM Ref := do
  if high = low then
    decision var high low
  else
    let above ← fetch high
    let below ← fetch low
    if above.val.admits var && below.val.admits var then
      decision var high low
    else
      let x ← literal var true
      let onTrue ← conj x high
      let notX ← neg x
      let onFalse ← conj notX low
      disj onTrue onFalse

/-- The diagram with every variable taken to its namesake in the given copy. -/
def rename (copy : StateCopy) (f : Ref) : ManagerM Ref := do
  if f.isLeaf then
    return f
  let key := ComputedKey.rename copy f
  match ← remembered key with
  | some result => return result
  | none =>
      match ← fetch f with
      | ⟨.leaf _, _⟩ => return f
      | ⟨.decision var high low, _⟩ =>
          let onTrue ← rename copy high
          let onFalse ← rename copy low
          let result ← choose (copy.rename var) onTrue onFalse
          remember key result
          return result
termination_by f.slot
decreasing_by
  · exact Node.high_slot_lt ‹_›
  · exact Node.low_slot_lt ‹_›

end DecisionDiagram.Manager
