import Std.Data.TreeMap
import DecisionDiagram.Detached.Basic

/-!
# Topology of detached diagrams

The topology of a diagram shows which parts are shared without showing stamps.
Its instances are numbered in the order in which a walk that goes high before
low first meets them, and each is described by its label and the numbers of its
branches.
-/

namespace DecisionDiagram.Detached

inductive Row where
  | leaf (value : Bool)
  | node (var high low : Nat)
  deriving DecidableEq, Repr

structure Walk where
  /-- The instances met, in the order of their numbers. -/
  instances : Array Detached := #[]
  /-- The number of each stamp met. -/
  numbers : Std.TreeMap Nat Nat := ∅

namespace Walk

/-- Give the next number to an instance. -/
def meet (walk : Walk) (d : Detached) : Walk where
  instances := walk.instances.push d
  numbers := walk.numbers.insert d.stamp walk.instances.size

def number (walk : Walk) (d : Detached) : Nat :=
  walk.numbers.getD d.stamp 0

def row (walk : Walk) : Detached → Row
  | .leaf _ value => .leaf value
  | .node _ var high low => .node var (walk.number high) (walk.number low)

end Walk

/-- Go on with a walk through a diagram, passing over instances met before. -/
def walkFrom (d : Detached) (walk : Walk) : Walk :=
  if walk.numbers.contains d.stamp then walk
  else
    match d with
    | leaf .. => walk.meet d
    | node _ _ high low => low.walkFrom (high.walkFrom (walk.meet d))

def topology (d : Detached) : List Row :=
  let walk := d.walkFrom {}
  walk.instances.toList.map walk.row

end DecisionDiagram.Detached
