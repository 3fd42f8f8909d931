import Std.Data.TreeMap
import DecisionDiagram.Detached.Basic

/-!
# Compression

Compression merges structurally equal parts into one instance. The instances
chosen so far are kept in a table by shape, and diagrams compressed with the
same table share their equal parts.

The shape of a detached diagram is what it is built from directly: a truth
value, or a variable and the stamps of two branches. Diagrams of equal shapes
are structurally equal. Shapes are ordered, and the order tells them apart.
-/

namespace DecisionDiagram.Detached

/-! ## Shapes -/

/-- What a diagram is built from directly: a truth value, or a variable and two instances. -/
inductive Shape where
  | leaf (value : Bool)
  | node (var high low : Nat)
  deriving DecidableEq, Repr

namespace Shape

/-- Leaves come before decisions, and these are ordered by variable. -/
def label : Shape → Nat
  | leaf value => value.toNat
  | node var _ _ => var + 2

def high : Shape → Nat
  | leaf _ => 0
  | node _ high _ => high

def low : Shape → Nat
  | leaf _ => 0
  | node _ _ low => low

/-- Shapes are ordered by label, then by the two branches. -/
def order : Shape → Shape → Ordering :=
  compareLex (compareOn label) (compareLex (compareOn high) (compareOn low))

instance : Ord Shape := ⟨order⟩

instance : Std.TransOrd Shape :=
  inferInstanceAs
    (Std.TransCmp (compareLex (compareOn label) (compareLex (compareOn high) (compareOn low))))

/-- Label and branches determine the shape. -/
theorem eq_of_parts {first second : Shape} (labels : first.label = second.label)
    (highs : first.high = second.high) (lows : first.low = second.low) : first = second := by
  cases first with
  | leaf value =>
      cases second with
      | leaf value' => cases value <;> cases value' <;> simp [label] at labels ⊢
      | node var high low =>
          have small := Bool.toNat_le value
          simp only [label] at labels
          omega
  | node var high low =>
      cases second with
      | leaf value =>
          have small := Bool.toNat_le value
          simp only [label] at labels
          omega
      | node var' high' low' =>
          obtain rfl : var = var' := Nat.add_right_cancel labels
          obtain rfl : high = high' := highs
          obtain rfl : low = low' := lows
          rfl

instance : Std.LawfulEqOrd Shape where
  compare_self := Std.ReflCmp.compare_self
  eq_of_compare {first second} equal := by
    have parts := compareLex_eq_eq.mp equal
    have rest := compareLex_eq_eq.mp parts.2
    exact eq_of_parts (Std.LawfulEqOrd.eq_of_compare parts.1)
      (Std.LawfulEqOrd.eq_of_compare rest.1) (Std.LawfulEqOrd.eq_of_compare rest.2)

end Shape

def shape : Detached → Shape
  | leaf _ value => .leaf value
  | node _ var high low => .node var high.stamp low.stamp

/-! ## Merging -/

abbrev Representatives := Std.TreeMap Shape Detached

/-- The instance chosen for the shape of a candidate, which is the candidate if none was. -/
def choose (candidate : Detached) : StateT Representatives Stamping Detached := do
  match (← get)[candidate.shape]? with
  | some chosen => return chosen
  | none =>
      modify (·.insert candidate.shape candidate)
      return candidate

def compress (d : Detached) : StateT Representatives Stamping Detached := do
  match (← get)[d.shape]? with
  | some chosen => return chosen
  | none =>
      match d with
      | leaf .. => choose d
      | node _ var high low =>
          let onTrue ← high.compress
          let onFalse ← low.compress
          if onTrue.same high && onFalse.same low then
            choose d
          else
            choose (← newNode var onTrue onFalse)

end DecisionDiagram.Detached
