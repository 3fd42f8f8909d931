import Mathlib.Logic.Relation
import DecisionDiagram.Detached.Basic
import DecisionDiagram.Detached.Compress

/-!
# Histories of detached diagrams

Detached diagrams are made of leaves and of decisions between diagrams at hand,
and handles lead from a decision to its branches. A bench holds the diagrams
made so far and one table for compression. Whatever else makes diagrams, such as
reduction, a manager or another table, makes them of leaves and decisions too.
-/

namespace DecisionDiagram

/-- Diagrams at hand, and a compression table with the calls that filled it. -/
structure Bench where
  /-- The stamps not drawn yet. -/
  supply : Supply := {}
  /-- The diagrams at hand, the last one first. -/
  diagrams : List Detached := []
  /-- The instances chosen so far. -/
  chosen : Detached.Representatives := ∅
  /-- The diagrams compressed so far with what became of them, the last one first. -/
  calls : List (Detached × Detached) := []

namespace Bench

open Detached

def hold (b : Bench) (made : Detached × Supply) : Bench :=
  { b with supply := made.2, diagrams := made.1 :: b.diagrams }

def compress (b : Bench) (d : Detached) : Bench :=
  let ⟨⟨result, chosen⟩, supply⟩ := (d.compress.run b.chosen).run b.supply
  { supply, diagrams := result :: b.diagrams, chosen, calls := (d, result) :: b.calls }

inductive Step : Bench → Bench → Prop where
  | leaf {b : Bench} (value : Bool) : Step b (b.hold ((newLeaf value).run b.supply))
  | decision {b : Bench} {var : Nat} {high low d : Detached} {supply : Supply}
      (onTrue : high ∈ b.diagrams) (onFalse : low ∈ b.diagrams)
      (made : (newDecision var high low).run.run b.supply = (.ok d, supply)) :
      Step b (b.hold (d, supply))
  | branch {b : Bench} {d e : Detached} {value : Bool} (held : d ∈ b.diagrams)
      (found : d.branch? value = some e) : Step b (b.hold (e, b.supply))
  | compress {b : Bench} {d : Detached} (held : d ∈ b.diagrams) : Step b (b.compress d)

/-- The second bench is one that the first becomes. -/
def Leads : Bench → Bench → Prop :=
  Relation.ReflTransGen Step

def Reached (b : Bench) : Prop :=
  Leads {} b

end Bench

end DecisionDiagram
