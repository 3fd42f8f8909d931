import DecisionDiagram.Proofs.Detached.Bench
import DecisionDiagram.Proofs.Detached.Reduction

/-!
# What reduction leaves

Reduction brings the reduced tree of a diagram, whatever its sharing and its order of variables. So
no decision of the result has structurally equal branches, also where it was the reduction of parts
that made branches equal. The values stay, and the result reaches no more instances.
-/

namespace DecisionDiagram.Detached

/-- The parts of a diagram with a reduced tree have reduced trees. -/
theorem Part.reduced {x d : Detached} (inside : Part x d) (reduced : d.tree.Reduced) :
    x.tree.Reduced := by
  induction inside with
  | self => exact reduced
  | high _ ih => exact ih reduced.2.1
  | low _ ih => exact ih reduced.2.2

/-- In a diagram with a reduced tree, no decision has structurally equal branches. -/
theorem Coherent.branches_not_equal {diagrams : List Detached} (coherent : Coherent diagrams)
    {d : Detached} (among : Among diagrams d) (reduced : d.tree.Reduced) {stamp var : Nat}
    {high low : Detached} (inside : Part (node stamp var high low) d) :
    high.equals low = false := by
  have amongPart := among.part inside
  have differ : high.tree ≠ low.tree := (inside.reduced reduced).1
  exact Bool.eq_false_iff.mpr (mt (equals_iff coherent amongPart.high amongPart.low).mp differ)

/--
The result of a reduction unfolds to the reduced tree of the diagram. None of its decisions has
structurally equal branches, it takes the values of the diagram, and it reaches at most as many
instances.
-/
theorem Made.reduced_form {supply : Supply} {diagrams : List Detached}
    (made : Made supply diagrams) {d : Detached} (among : Among diagrams d) :
    ∃ result later, d.reduce.run supply = (result, later) ∧ result.tree = d.tree.reduce ∧
      (∀ stamp var high low, Part (node stamp var high low) result → high.equals low = false) ∧
      (∀ a, result.tree.evaluate a = d.tree.evaluate a) ∧
      result.instances.ncard ≤ d.instances.ncard := by
  obtain ⟨result, later, more, run, madeLater, _, ⟨amongResult, same⟩, le⟩ :=
    reduce_shrinks made among
  refine ⟨result, later, run, same, ?_, ?_, le⟩
  · intro stamp var high low inside
    exact madeLater.coherent.branches_not_equal amongResult (same ▸ d.tree.reduced_reduce) inside
  · intro a
    rw [same, Tree.evaluate_reduce]

/-- Once its upper branch is reduced, the whole diagram becomes redundant. -/
def cascade : Detached :=
  .node 5 1 (.node 4 2 (Bench.literal 2 3) (Bench.literal 3 3)) (Bench.literal 3 3)

def cascading : Bench where
  supply := ⟨6⟩
  diagrams := [cascade, .node 4 2 (Bench.literal 2 3) (Bench.literal 3 3), Bench.literal 3 3,
    Bench.literal 2 3, .leaf 1 false, .leaf 0 true]

theorem reached_cascading : cascading.Reached := by
  have leaves := (Bench.reached_empty.leaf true).leaf false
  have first := leaves.decision (by decide : 3 ≠ 0) (.tail _ (.head _)) (.head _)
  have second := first.decision (by decide : 3 ≠ 0) (.tail _ (.tail _ (.head _)))
    (.tail _ (.head _))
  have inner := second.decision (by decide : 2 ≠ 0) (.tail _ (.head _)) (.head _)
  exact inner.decision (by decide : 1 ≠ 0) (.head _) (.tail _ (.head _))

theorem reduced_form_cascade :
    Made ⟨6⟩ cascading.diagrams ∧ Among cascading.diagrams cascade ∧
      ∃ result later, cascade.reduce.run ⟨6⟩ = (result, later) ∧
        result.tree = .node 3 (.leaf true) (.leaf false) ∧
        (∀ a, result.tree.evaluate a = cascade.tree.evaluate a) ∧
        result.instances.ncard ≤ cascade.instances.ncard := by
  have made := reached_cascading.made
  have among : Among cascading.diagrams cascade := .self (.head _)
  obtain ⟨result, later, run, same, _, values, le⟩ := made.reduced_form among
  exact ⟨made, among, result, later, run, same.trans (by decide), values, le⟩

end DecisionDiagram.Detached
