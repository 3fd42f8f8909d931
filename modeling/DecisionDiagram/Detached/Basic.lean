import DecisionDiagram.Fault

/-!
# Detached diagrams

A detached diagram lives outside all managers. It may test variables in any
order, test redundantly and hold equal parts twice. What is shared and what is
not is visible: every instance bears a stamp, stamps are drawn from one supply,
and two parts are the same instance if and only if their stamps are equal.
Diagrams made by drawing stamps are coherent: parts with equal stamps are the
same diagram, within one diagram and across all that were made from one supply.

The tree of a diagram is what a reader sees who follows its branches, without
the sharing.
-/

namespace DecisionDiagram

/-! ## Trees -/

inductive Tree where
  | leaf (value : Bool)
  | node (var : Nat) (high low : Tree)
  deriving DecidableEq, Repr

namespace Tree

def evaluate (assignment : Nat → Bool) : Tree → Bool
  | leaf value => value
  | node var high low =>
      if assignment var then high.evaluate assignment else low.evaluate assignment

def text : Tree → String
  | leaf false => "(0)"
  | leaf true => "(1)"
  | node var high low => s!"(x{var}, {high.text}, {low.text})"

end Tree

/-! ## Stamps -/

/-- The stamps not drawn yet: all numbers from `next` on. -/
structure Supply where
  /-- The stamp that is drawn next. -/
  next : Nat := 0
  deriving Repr, Inhabited

abbrev Stamping := StateM Supply

def Supply.draw : Stamping Nat := fun supply =>
  (supply.next, ⟨supply.next + 1⟩)

/-- A stamped leaf, or a stamped decision with its branches. -/
inductive Detached where
  | leaf (stamp : Nat) (value : Bool)
  | node (stamp : Nat) (var : Nat) (high low : Detached)
  deriving Repr

namespace Detached

/-! ## Making instances -/

def newLeaf (value : Bool) : Stamping Detached := do
  return leaf (← Supply.draw) value

def newNode (var : Nat) (high low : Detached) : Stamping Detached := do
  return node (← Supply.draw) var high low

/-- A new decision, unless it is on variable zero. -/
def newDecision (var : Nat) (high low : Detached) : ExceptT Fault Stamping Detached := do
  if var = 0 then
    throw .zeroVariable
  newNode var high low

/-! ## Reading instances -/

def stamp : Detached → Nat
  | leaf stamp _ => stamp
  | node stamp .. => stamp

/-- The variable of a decision; leaves have variable zero. -/
def var : Detached → Nat
  | leaf .. => 0
  | node _ var _ _ => var

def value? : Detached → Option Bool
  | leaf _ value => some value
  | node .. => none

def isLeaf (d : Detached) : Bool :=
  d.value?.isSome

def branch? (value : Bool) : Detached → Option Detached
  | leaf .. => none
  | node _ _ high low => some (if value then high else low)

def same (a b : Detached) : Bool :=
  a.stamp = b.stamp

def tree : Detached → Tree
  | leaf _ value => .leaf value
  | node _ var high low => .node var high.tree low.tree

def text (d : Detached) : String :=
  d.tree.text

/-! ## Parts -/

/-- The first diagram is the second or lies below it. -/
inductive Part (part : Detached) : Detached → Prop where
  | self : Part part part
  | high {stamp var : Nat} {high low : Detached} (inside : Part part high) :
      Part part (node stamp var high low)
  | low {stamp var : Nat} {high low : Detached} (inside : Part part low) :
      Part part (node stamp var high low)

/-- Among the parts of the diagrams, equal stamps mean the same diagram. -/
def Coherent (diagrams : List Detached) : Prop :=
  ∀ d ∈ diagrams, ∀ e ∈ diagrams, ∀ x y, Part x d → Part y e → x.stamp = y.stamp → x = y

/-- All stamps of the diagram were drawn before those of the supply. -/
def Drawn (supply : Supply) (d : Detached) : Prop :=
  ∀ part, Part part d → part.stamp < supply.next

/-- No decision of the diagram is on variable zero. -/
def Proper (d : Detached) : Prop :=
  ∀ stamp var high low, Part (node stamp var high low) d → var ≠ 0

theorem Part.trans {a b c : Detached} (inner : Part a b) (outer : Part b c) : Part a c := by
  induction outer with
  | self => exact inner
  | high _ ih => exact .high ih
  | low _ ih => exact .low ih

theorem Drawn.mono {supply later : Supply} {d : Detached} (drawn : d.Drawn supply)
    (le : supply.next ≤ later.next) : d.Drawn later :=
  fun part inside => Nat.lt_of_lt_of_le (drawn part inside) le

end Detached

end DecisionDiagram
