import Std.Data.TreeMap
import Std.Data.TreeSet
import DecisionDiagram.Detached.Basic

/-!
# Structural equality and reduction

Two detached diagrams are structurally equal if they are the same tree when
sharing is forgotten. The comparison meets each pair of instances once: a pair
met before either was found equal or has decided the answer already.

Reduction leaves out every decision whose branches are structurally equal, from
the leaves up. A part in which nothing is left out stays the instance it was;
other decisions are made anew, each instance once.
-/

namespace DecisionDiagram.Detached

/-! ## Structural equality -/

abbrev Compared := Std.TreeSet (Nat × Nat) (compareLex (compareOn Prod.fst) (compareOn Prod.snd))

/-- Whether two diagrams are structurally equal, where pairs compared before are not again. -/
def equalsFrom (a b : Detached) : StateM Compared Bool := do
  if a.same b then
    return true
  if (← get).contains (a.stamp, b.stamp) then
    return true
  modify (·.insert (a.stamp, b.stamp))
  match a, b with
  | leaf _ x, leaf _ y => return x = y
  | node _ v highA lowA, node _ w highB lowB =>
      if v ≠ w then
        return false
      else if ← highA.equalsFrom highB then
        lowA.equalsFrom lowB
      else
        return false
  | _, _ => return false

def equals (a b : Detached) : Bool :=
  ((a.equalsFrom b).run ∅).1

/-! ## Reduction -/

abbrev Reduced := Std.TreeMap Nat Detached

def reduceFrom (d : Detached) : StateT Reduced Stamping Detached := do
  match d with
  | leaf .. => return d
  | node _ var high low =>
      match (← get)[d.stamp]? with
      | some result => return result
      | none =>
          let onTrue ← high.reduceFrom
          let onFalse ← low.reduceFrom
          let result ←
            if onTrue.equals onFalse then
              pure onTrue
            else if onTrue.same high && onFalse.same low then
              pure d
            else
              newNode var onTrue onFalse
          modify (·.insert d.stamp result)
          return result

def reduce (d : Detached) : Stamping Detached :=
  d.reduceFrom.run' ∅

end DecisionDiagram.Detached
