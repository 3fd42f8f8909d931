import DecisionDiagram.Proofs.Detached.Bench

/-!
# Structural equality as an equivalence

Two instances are structurally equal if and only if they unfold to one tree, however their parts are
shared within and between them. So structural equality is an equivalence of instances. It holds of
instances with one shape, since these have the same label and the same branches.
-/

namespace DecisionDiagram.Detached

section Family

variable {diagrams : List Detached} (coherent : Coherent diagrams)
include coherent

/-- As equality of trees is an equivalence, so is structural equality. -/
theorem Coherent.equivalence :
    Equivalence fun x y : {d // Among diagrams d} => x.val.equals y.val = true := by
  have equals_iff (x y : {d // Among diagrams d}) :
      x.val.equals y.val = true ↔ x.val.tree = y.val.tree :=
    equals_iff coherent x.property y.property
  refine ⟨fun x => ?_, fun {x y} equal => ?_, fun {x y z} first second => ?_⟩
  · exact (equals_iff x x).mpr rfl
  · exact (equals_iff y x).mpr ((equals_iff x y).mp equal).symm
  · have same := ((equals_iff x y).mp first).trans ((equals_iff y z).mp second)
    exact (equals_iff x z).mpr same

/-- Instances with the same label and the same branches are structurally equal. -/
theorem Coherent.equals_of_shape {x y : Detached} (amongX : Among diagrams x)
    (amongY : Among diagrams y) (same : x.shape = y.shape) : x.equals y = true :=
  (equals_iff coherent amongX amongY).mpr (coherent.tree_eq_of_shape amongX amongY same)

/--
Among instances that are told apart by their stamps, structural equality is equality of the unfolded
trees. It is an equivalence, and instances with equal shapes are structurally equal.
-/
theorem Coherent.structural_equality :
    (∀ x y, Among diagrams x → Among diagrams y → (x.equals y = true ↔ x.tree = y.tree)) ∧
      Equivalence (fun x y : {d // Among diagrams d} => x.val.equals y.val = true) ∧
      ∀ x y, Among diagrams x → Among diagrams y → x.shape = y.shape → x.equals y = true := by
  refine ⟨?_, coherent.equivalence, ?_⟩
  · exact fun x y amongX amongY => equals_iff coherent amongX amongY
  · exact fun x y amongX amongY same => coherent.equals_of_shape amongX amongY same

end Family

/-- A decision whose branches are one instance of a literal. -/
def doubled (stamp inner : Nat) : Detached :=
  .node stamp 1 (Bench.literal inner 2) (Bench.literal inner 2)

def doubles : Bench where
  supply := ⟨6⟩
  diagrams := [doubled 5 3, doubled 4 2, Bench.literal 3 2, Bench.literal 2 2, .leaf 1 false,
    .leaf 0 true]

theorem reached_doubles : doubles.Reached := by
  have leaves := (Bench.reached_empty.leaf true).leaf false
  have first := leaves.decision (by decide : 2 ≠ 0) (.tail _ (.head _)) (.head _)
  have second := first.decision (by decide : 2 ≠ 0) (.tail _ (.tail _ (.head _)))
    (.tail _ (.head _))
  have decision := second.decision (by decide : 1 ≠ 0) (.tail _ (.head _)) (.tail _ (.head _))
  exact decision.decision (by decide : 1 ≠ 0) (.tail _ (.head _)) (.tail _ (.head _))

/-- The pair of literals is met twice when the decisions are compared. -/
theorem structural_equality_doubles :
    Coherent doubles.diagrams ∧
      ((doubled 4 2).equals (doubled 5 3) = true ↔ (doubled 4 2).tree = (doubled 5 3).tree) ∧
      (doubled 4 2).equals (doubled 5 3) = true ∧
      (doubled 4 2).equals (Bench.literal 2 2) = false ∧
      (Bench.literal 2 2).equals (Bench.literal 3 2) = true := by
  have coherent := reached_doubles.made.coherent
  have among (x : Detached) (held : x ∈ doubles.diagrams) : Among doubles.diagrams x := .self held
  have outer := among (doubled 5 3) (.head _)
  have other := among (doubled 4 2) (.tail _ (.head _))
  have second := among (Bench.literal 3 2) (.tail _ (.tail _ (.head _)))
  have first := among (Bench.literal 2 2) (.tail _ (.tail _ (.tail _ (.head _))))
  obtain ⟨equals_iff, _, of_shape⟩ := coherent.structural_equality
  have differ : ¬ (doubled 4 2).equals (Bench.literal 2 2) = true :=
    mt (equals_iff _ _ other first).mp (by decide)
  exact ⟨coherent, equals_iff _ _ other outer, (equals_iff _ _ other outer).mpr rfl,
    Bool.eq_false_iff.mpr differ, of_shape _ _ first second rfl⟩

end DecisionDiagram.Detached
