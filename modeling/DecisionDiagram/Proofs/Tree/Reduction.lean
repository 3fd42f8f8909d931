import DecisionDiagram.Proofs.Tree.Canonical

/-!
# Reduction of trees

Leaving out all decisions between equal branches, from the leaves up, makes a
tree reduced. The values of the tree and the order of its variables stay, so that
an ordered tree becomes the canonical tree of its function.
-/

namespace DecisionDiagram.Tree

def reduce : Tree → Tree
  | leaf value => leaf value
  | node var high low =>
      if high.reduce = low.reduce then high.reduce else node var high.reduce low.reduce

theorem reduced_reduce (t : Tree) : t.reduce.Reduced := by
  induction t with
  | leaf value => trivial
  | node var high low ihHigh ihLow =>
      rw [reduce]
      split
      next => exact ihHigh
      next ne => exact ⟨ne, ihHigh, ihLow⟩

theorem evaluate_reduce (t : Tree) (a : Nat → Bool) : t.reduce.evaluate a = t.evaluate a := by
  induction t with
  | leaf value => rfl
  | node var high low ihHigh ihLow =>
      rw [reduce, evaluate]
      split
      next same => rw [← ihLow, ← same, ihHigh, ite_self]
      next => rw [evaluate, ihHigh, ihLow]

theorem After.reduce {var : Nat} {t : Tree} (after : t.After var) : t.reduce.After var := by
  induction t with
  | leaf value => trivial
  | node top high low ihHigh ihLow =>
      obtain ⟨lt, afterHigh, afterLow⟩ := after
      rw [Tree.reduce]
      split
      next => exact ihHigh afterHigh
      next => exact ⟨lt, ihHigh afterHigh, ihLow afterLow⟩

theorem Ordered.reduce {t : Tree} (ordered : t.Ordered) : t.reduce.Ordered := by
  induction t with
  | leaf value => trivial
  | node var high low ihHigh ihLow =>
      obtain ⟨⟨afterHigh, afterLow⟩, orderedHigh, orderedLow⟩ := ordered
      rw [Tree.reduce]
      split
      next => exact ihHigh orderedHigh
      next =>
        exact ⟨⟨afterHigh.reduce, afterLow.reduce⟩, ihHigh orderedHigh, ihLow orderedLow⟩

/-! ## Canonical trees -/

/-- The tree is the one of the function that is ordered and reduced. -/
structure Canonical (t : Tree) (φ : (Nat → Bool) → Bool) : Prop where
  ordered : t.Ordered
  reduced : t.Reduced
  evaluate : ∀ a, t.evaluate a = φ a

/-- Canonical trees are equal if and only if their functions are. -/
theorem Canonical.eq_iff {s t : Tree} {φ ψ : (Nat → Bool) → Bool} (first : s.Canonical φ)
    (second : t.Canonical ψ) : s = t ↔ ∀ a, φ a = ψ a := by
  constructor
  · rintro rfl a
    rw [← first.evaluate, ← second.evaluate]
  · intro same
    refine eq_of_evaluate first.ordered first.reduced second.ordered second.reduced ?_
    intro a
    rw [first.evaluate, second.evaluate, same]

theorem Ordered.canonical_reduce {t : Tree} (ordered : t.Ordered) :
    t.reduce.Canonical fun a => t.evaluate a :=
  ⟨ordered.reduce, t.reduced_reduce, t.evaluate_reduce⟩

end DecisionDiagram.Tree
