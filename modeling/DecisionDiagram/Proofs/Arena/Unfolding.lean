import DecisionDiagram.Proofs.Arena.Basic
import DecisionDiagram.Proofs.Tree.Reduction

/-!
# Unfolding an arena

A reference unfolds to the tree that is read off by following branches, and it
denotes the Boolean function of that tree. In a proper arena every stored cell
unfolds to exactly one ordered and reduced tree, and different cells unfold to
different trees. Hence two references that denote the same function are equal.
-/

namespace DecisionDiagram.Arena

/-- Following branches from the reference, one reads the tree. -/
inductive Unfolds (arena : Arena) : Ref → Tree → Prop where
  | leaf {ref : Ref} {value : Bool} (holds : arena.Holds ref (.leaf value)) :
      Unfolds arena ref (.leaf value)
  | node {ref high low : Ref} {var : Nat} {highTree lowTree : Tree}
      (holds : arena.Holds ref (.decision var high low)) (onTrue : Unfolds arena high highTree)
      (onFalse : Unfolds arena low lowTree) : Unfolds arena ref (.node var highTree lowTree)

def Denotes (arena : Arena) (ref : Ref) (φ : (Nat → Bool) → Bool) : Prop :=
  ∃ tree, arena.Unfolds ref tree ∧ ∀ a, tree.evaluate a = φ a

/-! ## Trees of cells -/

theorem Unfolds.extend {arena later : Arena} {ref : Ref} {tree : Tree}
    (unfolds : arena.Unfolds ref tree) (grown : arena.Extends later) : later.Unfolds ref tree := by
  induction unfolds with
  | leaf holds => exact .leaf (grown _ _ holds)
  | node holds _ _ ihTrue ihFalse => exact .node (grown _ _ holds) ihTrue ihFalse

theorem Unfolds.inj {arena : Arena} {ref : Ref} {s t : Tree} (first : arena.Unfolds ref s)
    (second : arena.Unfolds ref t) : s = t := by
  induction first generalizing t with
  | leaf holds =>
      cases second with
      | leaf other =>
          cases holds.inj other
          rfl
      | node other _ _ => cases holds.inj other
  | node holds _ _ ihTrue ihFalse =>
      cases second with
      | leaf other => cases holds.inj other
      | node other onTrue onFalse =>
          cases holds.inj other
          rw [ihTrue onTrue, ihFalse onFalse]

theorem Unfolds.slot_lt {arena : Arena} {ref : Ref} {tree : Tree}
    (unfolds : arena.Unfolds ref tree) : ref.slot < arena.size := by
  cases unfolds with
  | leaf holds => exact holds.slot_lt
  | node holds _ _ => exact holds.slot_lt

/-- Branches lie in earlier cells, so that every cell unfolds. -/
theorem Proper.exists_unfolds {arena : Arena} (proper : arena.Proper) {ref : Ref}
    (inside : ref.slot < arena.size) : ∃ tree, arena.Unfolds ref tree := by
  induction slot : ref.slot using Nat.strongRecOn generalizing ref with
  | ind n ih =>
      obtain ⟨node, holds⟩ := exists_holds inside
      cases node with
      | leaf value => exact ⟨_, .leaf holds⟩
      | decision var high low =>
          have below := proper.below holds
          obtain ⟨highTree, onTrue⟩ :=
            ih high.slot (slot ▸ below.1) (Nat.lt_trans below.1 inside) rfl
          obtain ⟨lowTree, onFalse⟩ :=
            ih low.slot (slot ▸ below.2) (Nat.lt_trans below.2 inside) rfl
          exact ⟨_, .node holds onTrue onFalse⟩

theorem Unfolds.ref_eq {arena : Arena} (proper : arena.Proper) {p q : Ref} {tree : Tree}
    (first : arena.Unfolds p tree) (second : arena.Unfolds q tree) : p = q := by
  induction first generalizing q with
  | leaf holds =>
      cases second with
      | leaf other => exact proper.unique holds other
  | node holds _ _ ihTrue ihFalse =>
      cases second with
      | node other onTrue onFalse =>
          cases ihTrue onTrue
          cases ihFalse onFalse
          exact proper.unique holds other

theorem Unfolds.ordered {arena : Arena} (proper : arena.Proper) {ref : Ref} {tree : Tree}
    (unfolds : arena.Unfolds ref tree) :
    tree.Ordered ∧ ∀ var, arena.Admits var ref → tree.After var := by
  induction unfolds with
  | leaf holds => exact ⟨trivial, fun _ _ => trivial⟩
  | node holds onTrue onFalse ihTrue ihFalse =>
      have orders := proper.orders holds
      have ordered : (Tree.node _ _ _).Ordered :=
        ⟨⟨ihTrue.2 _ orders.high, ihFalse.2 _ orders.low⟩, ihTrue.1, ihFalse.1⟩
      refine ⟨ordered, ?_⟩
      rintro var ⟨node, other, precedes⟩
      cases holds.inj other
      exact ordered.after (of_decide_eq_true precedes)

theorem Unfolds.reduced {arena : Arena} (proper : arena.Proper) {ref : Ref} {tree : Tree}
    (unfolds : arena.Unfolds ref tree) : tree.Reduced := by
  induction unfolds with
  | leaf holds => trivial
  | node holds onTrue onFalse ihTrue ihFalse =>
      refine ⟨?_, ihTrue, ihFalse⟩
      rintro rfl
      exact proper.branches_ne holds (onTrue.ref_eq proper onFalse)

theorem Unfolds.tree_canonical {arena : Arena} (proper : arena.Proper) {ref : Ref} {tree : Tree}
    (unfolds : arena.Unfolds ref tree) {φ : (Nat → Bool) → Bool}
    (value : ∀ a, tree.evaluate a = φ a) : tree.Canonical φ :=
  ⟨(unfolds.ordered proper).1, unfolds.reduced proper, value⟩

/-- A cell whose tree comes after a variable may lie below a decision on it. -/
theorem Unfolds.admits {arena : Arena} {ref : Ref} {tree : Tree}
    (unfolds : arena.Unfolds ref tree) {var : Nat} (after : tree.After var) :
    arena.Admits var ref := by
  cases unfolds with
  | leaf holds => exact ⟨_, holds, rfl⟩
  | node holds _ _ => exact ⟨_, holds, decide_eq_true after.1⟩

/-- A decision unfolds to the decision between the trees of its branches, if these differ. -/
theorem Decided.unfolds {arena later : Arena} (proper : arena.Proper) {var : Nat}
    {high low ref : Ref} (decided : arena.Decided var high low ref later) {highTree lowTree : Tree}
    (onTrue : arena.Unfolds high highTree) (onFalse : arena.Unfolds low lowTree) :
    later.Unfolds ref (if highTree = lowTree then highTree else .node var highTree lowTree) := by
  rcases decided.result with ⟨rfl, rfl⟩ | ⟨ne, holds⟩
  · rw [if_pos (onTrue.inj onFalse)]
    exact onTrue.extend decided.grown
  · have differ : highTree ≠ lowTree := by
      rintro rfl
      exact ne (onTrue.ref_eq proper onFalse)
    rw [if_neg differ]
    exact .node holds (onTrue.extend decided.grown) (onFalse.extend decided.grown)

/-! ## Functions of cells -/

namespace Denotes

variable {arena : Arena} {ref : Ref} {φ ψ : (Nat → Bool) → Bool}

theorem extend {later : Arena} (denotes : arena.Denotes ref φ) (grown : arena.Extends later) :
    later.Denotes ref φ := by
  obtain ⟨tree, unfolds, value⟩ := denotes
  exact ⟨tree, unfolds.extend grown, value⟩

theorem congr (denotes : arena.Denotes ref φ) (same : ∀ a, φ a = ψ a) : arena.Denotes ref ψ := by
  obtain ⟨tree, unfolds, value⟩ := denotes
  exact ⟨tree, unfolds, fun a => (value a).trans (same a)⟩

theorem inj (first : arena.Denotes ref φ) (second : arena.Denotes ref ψ) (a : Nat → Bool) :
    φ a = ψ a := by
  obtain ⟨s, unfoldsS, valueS⟩ := first
  obtain ⟨t, unfoldsT, valueT⟩ := second
  rw [← valueS, ← valueT, unfoldsS.inj unfoldsT]

theorem leaf {value : Bool} (holds : arena.Holds ref (.leaf value)) :
    arena.Denotes ref fun _ => value :=
  ⟨.leaf value, .leaf holds, fun _ => rfl⟩

theorem node {high low : Ref} {var : Nat} (holds : arena.Holds ref (.decision var high low))
    (onTrue : arena.Denotes high φ) (onFalse : arena.Denotes low ψ) :
    arena.Denotes ref fun a => if a var then φ a else ψ a := by
  obtain ⟨highTree, unfoldsHigh, valueHigh⟩ := onTrue
  obtain ⟨lowTree, unfoldsLow, valueLow⟩ := onFalse
  refine ⟨_, .node holds unfoldsHigh unfoldsLow, fun a => ?_⟩
  rw [Tree.evaluate, valueHigh, valueLow]

/-- Canonicity: a function has one reference at most. -/
theorem ref_eq (proper : arena.Proper) {p q : Ref} (first : arena.Denotes p φ)
    (second : arena.Denotes q φ) : p = q := by
  obtain ⟨s, unfoldsS, valueS⟩ := first
  obtain ⟨t, unfoldsT, valueT⟩ := second
  have first := unfoldsS.tree_canonical proper valueS
  have second := unfoldsT.tree_canonical proper valueT
  obtain rfl : s = t := (first.eq_iff second).mpr fun _ => rfl
  exact unfoldsS.ref_eq proper unfoldsT

/-- Fixing a variable that comes before the whole diagram does not matter. -/
theorem update_of_admits (proper : arena.Proper) (denotes : arena.Denotes ref φ) {var : Nat}
    (admits : arena.Admits var ref) (a : Nat → Bool) (value : Bool) :
    φ (Function.update a var value) = φ a := by
  obtain ⟨tree, unfolds, meaning⟩ := denotes
  rw [← meaning, ← meaning, Tree.evaluate_update ((unfolds.ordered proper).2 var admits)]

end Denotes

theorem Proper.exists_denotes {arena : Arena} (proper : arena.Proper) {ref : Ref}
    (inside : ref.slot < arena.size) : ∃ φ, arena.Denotes ref φ := by
  obtain ⟨tree, unfolds⟩ := proper.exists_unfolds inside
  exact ⟨fun a => tree.evaluate a, tree, unfolds, fun _ => rfl⟩

/-- The branches of a decision denote the two halves of its function. -/
theorem Denotes.branches {arena : Arena} {ref high low : Ref} {var : Nat}
    {φ : (Nat → Bool) → Bool} (denotes : arena.Denotes ref φ)
    (holds : arena.Holds ref (.decision var high low)) :
    ∃ onTrue onFalse, arena.Denotes high onTrue ∧ arena.Denotes low onFalse ∧
      ∀ a, φ a = if a var then onTrue a else onFalse a := by
  obtain ⟨tree, unfolds, value⟩ := denotes
  cases unfolds with
  | leaf other => cases holds.inj other
  | node other unfoldsHigh unfoldsLow =>
      cases holds.inj other
      exact ⟨_, _, ⟨_, unfoldsHigh, fun _ => rfl⟩, ⟨_, unfoldsLow, fun _ => rfl⟩,
        fun a => (value a).symm⟩

theorem Decided.denotes {arena later : Arena} {var : Nat} {high low ref : Ref}
    (decided : arena.Decided var high low ref later) {φ ψ : (Nat → Bool) → Bool}
    (onTrue : arena.Denotes high φ) (onFalse : arena.Denotes low ψ) :
    later.Denotes ref fun a => if a var then φ a else ψ a := by
  rcases decided.result with ⟨rfl, rfl⟩ | ⟨_, holds⟩
  · have same := onTrue.inj onFalse
    refine (onTrue.extend decided.grown).congr fun a => ?_
    rw [← same a, ite_self]
  · exact .node holds (onTrue.extend decided.grown) (onFalse.extend decided.grown)

end DecisionDiagram.Arena
