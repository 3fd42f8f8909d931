import DecisionDiagram.Proofs.Detached.Bench
import DecisionDiagram.Proofs.Detached.Reduction
import DecisionDiagram.Proofs.Manager.Attach
import DecisionDiagram.Proofs.Reached.Coincidence

/-!
# Attaching in reached managers

A detached diagram of any shape is attached as the diagram of its function.
Reduction and compression change the shape and not the function, so that all
forms of one diagram are attached as one reference.
-/

namespace DecisionDiagram

namespace Detached

/-- The diagram is one of a made family and has the values of the function. -/
def Evaluates (d : Detached) (φ : (Nat → Bool) → Bool) : Prop :=
  ∃ supply diagrams, Made supply diagrams ∧ Among diagrams d ∧ ∀ a, d.tree.evaluate a = φ a

theorem Evaluates.congr {d : Detached} {φ ψ : (Nat → Bool) → Bool} (evaluates : d.Evaluates φ)
    (same : ∀ a, φ a = ψ a) : d.Evaluates ψ := by
  cases funext same
  exact evaluates

theorem Reduces.evaluates {supply : Supply} {diagrams : List Detached} {d result : Detached}
    (made : Made supply diagrams) (reduces : Reduces diagrams d result) :
    result.Evaluates fun a => d.tree.evaluate a := by
  refine ⟨supply, diagrams, made, reduces.1, fun a => ?_⟩
  rw [reduces.2, Tree.evaluate_reduce]

theorem Compresses.evaluates {supply : Supply} {diagrams : List Detached} {d result : Detached}
    {chosen later : Representatives} (made : Made supply diagrams)
    (compresses : Compresses d chosen result later diagrams) :
    result.Evaluates fun a => d.tree.evaluate a := by
  refine ⟨supply, diagrams, made, compresses.closed.among compresses.picked, fun a => ?_⟩
  rw [compresses.tree_eq]

end Detached

namespace Bench

open Detached (Among)

def forms (b : Bench) (d : Detached) (s t : Supply) : List Detached :=
  [d, (d.reduce.run s).1, ((d.compress.run b.chosen).run t).1.1]

theorem Sound.evaluates {b : Bench} {family : List Detached} (sound : b.Sound family)
    {d : Detached} (held : d ∈ b.diagrams) : d.Evaluates fun a => d.tree.evaluate a :=
  ⟨b.supply, family, sound.made, .self (sound.held held), fun _ => rfl⟩

/-- All forms of a diagram have its values. -/
theorem Sound.forms_evaluate {b : Bench} {family : List Detached} (sound : b.Sound family)
    {d : Detached} (held : d ∈ b.diagrams) {s t : Supply} (notBeforeS : b.supply.next ≤ s.next)
    (notBeforeT : b.supply.next ≤ t.next) {x : Detached} (form : x ∈ b.forms d s t) :
    x.Evaluates fun a => d.tree.evaluate a := by
  have among : Among family d := .self (sound.held held)
  obtain ⟨reduced, _, _, runReduce, madeReduce, _, reduces⟩ :=
    Detached.reduce_makes (sound.made.mono notBeforeS) among
  obtain ⟨⟨compressed, _⟩, _, _, runCompress, madeCompress, _, compresses⟩ :=
    Detached.compress_makes (sound.made.mono notBeforeT) sound.closed among
  rw [forms, runReduce, runCompress] at form
  simp only [List.mem_cons, List.not_mem_nil, or_false] at form
  rcases form with rfl | rfl | rfl
  · exact sound.evaluates held
  · exact reduces.evaluates madeReduce
  · exact compresses.evaluates madeCompress

end Bench

namespace Manager

theorem steady_attach (d : Detached) : Steady (attach d) :=
  (SteadyPass.attachFrom d).run _

theorem computes_attach {m : Manager} (sound : m.Sound) {d : Detached}
    {φ : (Nat → Bool) → Bool} (evaluates : d.Evaluates φ) : Computes (attach d) m φ := by
  obtain ⟨supply, diagrams, made, among, same⟩ := evaluates
  obtain ⟨ref, later, run, _, grown, stands⟩ := sound.attach made among
  refine ⟨ref, later, run, .of_denotes (stands.congr same), ?_⟩
  intro other ψ represents
  exact represents.extend sound grown

/-- Diagrams of one function are attached as one reference. -/
theorem coincide_attach {m : Manager} (sound : m.Sound) {d e : Detached}
    {φ : (Nat → Bool) → Bool} (first : d.Evaluates φ) (second : e.Evaluates φ) :
    Coincide (attach d) (attach e) m :=
  sound.coincide (steady_attach d) (steady_attach e)
    (fun soundLater _ => computes_attach soundLater first)
    (fun soundLater _ => computes_attach soundLater second)

/--
Attaching a diagram computes the function of its tree. The diagram, its reduced form and what
compression makes of it are attached as one reference, and so are all diagrams at hand that are
structurally equal or have the same values.
-/
theorem Reached.attaching {m : Manager} (reached : m.Reached) {b : Bench} (bench : b.Reached)
    {d : Detached} (held : d ∈ b.diagrams) :
    Computes (attach d) m (fun a => d.tree.evaluate a) ∧
      (∀ s t : Supply, b.supply.next ≤ s.next → b.supply.next ≤ t.next →
        ∀ x ∈ b.forms d s t, ∀ y ∈ b.forms d s t, Coincide (attach x) (attach y) m) ∧
      ∀ e ∈ b.diagrams,
        (d.equals e = true ∨ ∀ a, d.tree.evaluate a = e.tree.evaluate a) →
          Coincide (attach d) (attach e) m := by
  have sound := reached.sound
  obtain ⟨family, soundBench⟩ := bench.sound
  have evaluates := soundBench.evaluates held
  refine ⟨computes_attach sound evaluates, ?_, ?_⟩
  · intro s t notBeforeS notBeforeT x formX y formY
    exact coincide_attach sound (soundBench.forms_evaluate held notBeforeS notBeforeT formX)
      (soundBench.forms_evaluate held notBeforeS notBeforeT formY)
  · intro e heldE same
    refine coincide_attach sound evaluates ((soundBench.evaluates heldE).congr fun a => ?_)
    rcases same with equal | agree
    · have trees := (Detached.equals_iff soundBench.made.coherent (.self (soundBench.held held))
        (.self (soundBench.held heldE))).mp equal
      rw [trees]
    · exact (agree a).symm

/-- The conjunction of variables 1 and 2, with the later variable tested first. -/
def reversed : Detached :=
  .node 3 2 (Bench.literal 2 1) (.leaf 1 false)

def ascending : Detached :=
  .node 5 1 (Bench.literal 4 2) (.leaf 1 false)

def bothOrders : Bench where
  supply := ⟨6⟩
  diagrams := [ascending, Bench.literal 4 2, reversed, Bench.literal 2 1, .leaf 1 false,
    .leaf 0 true]

theorem reached_bothOrders : bothOrders.Reached := by
  have leaves := (Bench.reached_empty.leaf true).leaf false
  have one := leaves.decision (by decide : 1 ≠ 0) (.tail _ (.head _)) (.head _)
  have first := one.decision (by decide : 2 ≠ 0) (.head _) (.tail _ (.head _))
  have two := first.decision (by decide : 2 ≠ 0) (.tail _ (.tail _ (.tail _ (.head _))))
    (.tail _ (.tail _ (.head _)))
  exact two.decision (by decide : 1 ≠ 0) (.head _) (.tail _ (.tail _ (.tail _ (.head _))))

theorem attaching_bothOrders :
    reversed.equals ascending = false ∧
      Computes (attach reversed) twoLiterals (fun a => a 2 && a 1) ∧
      Coincide (attach reversed) (attach ascending) twoLiterals ∧
      Coincide (attach reversed) (attach (reversed.reduce.run ⟨6⟩).1) twoLiterals := by
  have values (a : Nat → Bool) : reversed.tree.evaluate a = (a 2 && a 1) := by
    cases outer : a 2 <;> cases inner : a 1 <;>
      simp [reversed, Bench.literal, Detached.tree, Tree.evaluate, outer, inner]
  have same (a : Nat → Bool) : reversed.tree.evaluate a = ascending.tree.evaluate a := by
    rw [values]
    cases outer : a 2 <;> cases inner : a 1 <;>
      simp [ascending, Bench.literal, Detached.tree, Tree.evaluate, outer, inner]
  obtain ⟨computes, forms, alike⟩ :=
    reached_twoLiterals.attaching reached_bothOrders (.tail _ (.tail _ (.head _)))
  exact ⟨by decide +kernel, computes.congr values, alike ascending (.head _) (Or.inr same),
    forms ⟨6⟩ ⟨6⟩ (Nat.le_refl _) (Nat.le_refl _) _ (.head _) _ (.tail _ (.head _))⟩

end Manager

end DecisionDiagram
