import Mathlib.Data.Set.Monotone
import DecisionDiagram.Proofs.Tree.Reduction

/-!
# Relabelled trees

Each variable of a tree is taken to another. If this is strictly monotone on the variables of the
tree, then it keeps what makes a tree canonical: the variables still increase along every path, and
branches that were different remain so.
-/

namespace DecisionDiagram.Tree

def vars : Tree → Set Nat
  | leaf _ => ∅
  | node var high low => insert var (high.vars ∪ low.vars)

def relabel (ρ : Nat → Nat) : Tree → Tree
  | leaf value => leaf value
  | node var high low => node (ρ var) (high.relabel ρ) (low.relabel ρ)

section Variables

variable {var : Nat} {high low : Tree}

theorem var_mem_vars : var ∈ (node var high low).vars :=
  Or.inl rfl

theorem vars_high : high.vars ⊆ (node var high low).vars :=
  fun _ inside => Or.inr (Or.inl inside)

theorem vars_low : low.vars ⊆ (node var high low).vars :=
  fun _ inside => Or.inr (Or.inr inside)

end Variables

variable {ρ : Nat → Nat}

theorem evaluate_relabel (t : Tree) (a : Nat → Bool) :
    (t.relabel ρ).evaluate a = t.evaluate fun var => a (ρ var) := by
  induction t with
  | leaf value => rfl
  | node var high low ihHigh ihLow => rw [relabel, evaluate, evaluate, ihHigh, ihLow]

/-- Trees over variables that are not confused stay different. -/
theorem relabel_inj {allowed : Set Nat} (injective : Set.InjOn ρ allowed) {s t : Tree}
    (insideS : s.vars ⊆ allowed) (insideT : t.vars ⊆ allowed)
    (same : s.relabel ρ = t.relabel ρ) : s = t := by
  induction s generalizing t with
  | leaf x =>
      cases t with
      | leaf y => exact congrArg leaf (leaf.inj same)
      | node w highT lowT => cases same
  | node v highS lowS ihHigh ihLow =>
      cases t with
      | leaf y => cases same
      | node w highT lowT =>
          obtain ⟨tops, highs, lows⟩ := node.inj same
          obtain rfl := injective (insideS var_mem_vars) (insideT var_mem_vars) tops
          rw [ihHigh (vars_high.trans insideS) (vars_high.trans insideT) highs,
            ihLow (vars_low.trans insideS) (vars_low.trans insideT) lows]

theorem Reduced.relabel {t : Tree} (reduced : t.Reduced) (injective : Set.InjOn ρ t.vars) :
    (t.relabel ρ).Reduced := by
  induction t with
  | leaf value => trivial
  | node var high low ihHigh ihLow =>
      obtain ⟨differ, reducedHigh, reducedLow⟩ := reduced
      exact ⟨differ ∘ relabel_inj injective vars_high vars_low,
        ihHigh reducedHigh (injective.mono vars_high),
        ihLow reducedLow (injective.mono vars_low)⟩

theorem After.relabel {allowed : Set Nat} (mono : StrictMonoOn ρ allowed) {var : Nat}
    (insideVar : var ∈ allowed) {t : Tree} (inside : t.vars ⊆ allowed) (after : t.After var) :
    (t.relabel ρ).After (ρ var) := by
  induction t with
  | leaf value => trivial
  | node top high low ihHigh ihLow =>
      obtain ⟨lt, afterHigh, afterLow⟩ := after
      exact ⟨mono insideVar (inside var_mem_vars) lt,
        ihHigh (vars_high.trans inside) afterHigh,
        ihLow (vars_low.trans inside) afterLow⟩

theorem Ordered.relabel {t : Tree} (ordered : t.Ordered) (mono : StrictMonoOn ρ t.vars) :
    (t.relabel ρ).Ordered := by
  induction t with
  | leaf value => trivial
  | node var high low ihHigh ihLow =>
      obtain ⟨⟨afterHigh, afterLow⟩, orderedHigh, orderedLow⟩ := ordered
      exact ⟨⟨afterHigh.relabel mono var_mem_vars vars_high,
          afterLow.relabel mono var_mem_vars vars_low⟩,
        ihHigh orderedHigh (mono.mono vars_high),
        ihLow orderedLow (mono.mono vars_low)⟩

theorem Canonical.relabel {t : Tree} {φ : (Nat → Bool) → Bool} (canonical : t.Canonical φ)
    (mono : StrictMonoOn ρ t.vars) :
    (t.relabel ρ).Canonical fun a => φ fun var => a (ρ var) where
  ordered := canonical.ordered.relabel mono
  reduced := canonical.reduced.relabel mono.injOn
  evaluate a := (t.evaluate_relabel a).trans (canonical.evaluate _)

end DecisionDiagram.Tree
