import Mathlib.Data.Set.Card
import DecisionDiagram.Detached.Basic

/-!
# Instances

A diagram has finitely many instances: its parts, told apart by their stamps. A decision is no part
of its branches.
-/

namespace DecisionDiagram.Detached

def instances (d : Detached) : Set Detached :=
  {x | Part x d}

def decisions (d : Detached) : Set Detached :=
  {x | Part x d ∧ ¬ x.isLeaf}

theorem instances_leaf (s : Nat) (value : Bool) :
    (leaf s value).instances = {leaf s value} := by
  ext x
  constructor
  · intro inside
    cases inside with
    | self => rfl
  · rintro rfl
    exact .self

theorem instances_node (s var : Nat) (high low : Detached) :
    (node s var high low).instances =
      insert (node s var high low) (high.instances ∪ low.instances) := by
  ext x
  constructor
  · intro inside
    cases inside with
    | self => exact Or.inl rfl
    | high inside => exact Or.inr (Or.inl inside)
    | low inside => exact Or.inr (Or.inr inside)
  · rintro (rfl | inside | inside)
    · exact .self
    · exact .high inside
    · exact .low inside

theorem decisions_leaf (s : Nat) (value : Bool) : (leaf s value).decisions = ∅ := by
  refine Set.eq_empty_of_forall_notMem fun x inside => ?_
  obtain ⟨part, inner⟩ := inside
  cases part
  exact inner rfl

theorem decisions_node (s var : Nat) (high low : Detached) :
    (node s var high low).decisions =
      insert (node s var high low) (high.decisions ∪ low.decisions) := by
  ext x
  constructor
  · rintro ⟨inside, inner⟩
    cases inside with
    | self => exact Or.inl rfl
    | high inside => exact Or.inr (Or.inl ⟨inside, inner⟩)
    | low inside => exact Or.inr (Or.inr ⟨inside, inner⟩)
  · rintro (rfl | ⟨inside, inner⟩ | ⟨inside, inner⟩)
    · exact ⟨.self, by simp [isLeaf, value?]⟩
    · exact ⟨.high inside, inner⟩
    · exact ⟨.low inside, inner⟩

theorem finite_instances (d : Detached) : d.instances.Finite := by
  induction d with
  | leaf s value =>
      rw [instances_leaf]
      exact Set.finite_singleton _
  | node s var high low ihHigh ihLow =>
      rw [instances_node]
      exact (ihHigh.union ihLow).insert _

theorem finite_decisions (d : Detached) : d.decisions.Finite :=
  d.finite_instances.subset fun _ inside => inside.1

theorem Part.sizeOf_le {x d : Detached} (inside : Part x d) : sizeOf x ≤ sizeOf d := by
  induction inside with
  | self => exact Nat.le_refl _
  | high _ ih =>
      rw [node.sizeOf_spec]
      omega
  | low _ ih =>
      rw [node.sizeOf_spec]
      omega

theorem not_part_high {s var : Nat} {high low : Detached} : ¬ Part (node s var high low) high := by
  intro inside
  have le := inside.sizeOf_le
  rw [node.sizeOf_spec] at le
  omega

theorem not_part_low {s var : Nat} {high low : Detached} : ¬ Part (node s var high low) low := by
  intro inside
  have le := inside.sizeOf_le
  rw [node.sizeOf_spec] at le
  omega

end DecisionDiagram.Detached
