import Mathlib.Order.Interval.Finset.Nat
import DecisionDiagram.Proofs.Detached.Instances
import DecisionDiagram.Proofs.Manager.AttachOrdered
import DecisionDiagram.Proofs.Reached.Attaching

/-!
# Ordered diagrams in reached managers

An ordered diagram is attached by plain decisions. Each decision of the result comes from one of the
diagram that has the same reduced tree, and cells with one tree are one cell. So the result has no
more decisions than any ordered diagram of its function, and no more nodes are made for it.
-/

namespace DecisionDiagram

/-! ## The decisions of a diagram -/

def Arena.decisionsOf (arena : Arena) (f : Ref) : Set Ref :=
  {g | arena.Leads f g ∧ ∃ var high low, arena.Holds g (.decision var high low)}

theorem Arena.Proper.finite_decisionsOf {arena : Arena} (proper : arena.Proper) (f : Ref) :
    (arena.decisionsOf f).Finite :=
  (proper.finite_cellsOf f).subset fun _ inside => inside.1

/-- What an arena has grown by is no more than a set that contains the new cells. -/
theorem Arena.size_le_of_new {arena later : Arena} {cells : Set Ref} (finite : cells.Finite)
    (new : ∀ g : Ref, arena.size ≤ g.slot → g.slot < later.size → g ∈ cells) :
    later.size ≤ arena.size + cells.ncard := by
  have covered : (Finset.Ico arena.size later.size : Set Nat) ⊆ Ref.slot '' cells := by
    intro slot inside
    obtain ⟨le, lt⟩ := Finset.mem_Ico.mp inside
    exact ⟨⟨slot⟩, new ⟨slot⟩ le lt, rfl⟩
  have count := Set.ncard_le_ncard covered (finite.image Ref.slot)
  rw [Set.ncard_coe_finset, Nat.card_Ico] at count
  have images : (Ref.slot '' cells).ncard ≤ cells.ncard := Set.ncard_image_le finite
  omega

namespace Detached

/-- A decision that reduction leaves at the top is there for some decision of the diagram. -/
theorem exists_decision_of_reduce {d : Detached} {var : Nat} {highTree lowTree : Tree}
    (same : d.tree.reduce = .node var highTree lowTree) :
    ∃ s high low, Part (node s var high low) d ∧ high.tree.reduce = highTree ∧
      low.tree.reduce = lowTree ∧
      (node s var high low).tree.reduce = .node var highTree lowTree := by
  induction d with
  | leaf s value => cases same
  | node s top high low ihHigh ihLow =>
      rw [tree, Tree.reduce] at same
      split at same
      next =>
        obtain ⟨t, onTrue, onFalse, inside, rest⟩ := ihHigh same
        exact ⟨t, onTrue, onFalse, .high inside, rest⟩
      next differ =>
        cases same
        refine ⟨s, high, low, .self, rfl, rfl, ?_⟩
        rw [tree, Tree.reduce, if_neg differ]

/-- A decision of a reduced tree stems from one of the diagram, and its branches from branches. -/
theorem exists_decision_of_holds {arena : Arena} {d : Detached} {f high low : Ref} {var : Nat}
    (unfolds : arena.Unfolds f d.tree.reduce) (holds : arena.Holds f (.decision var high low)) :
    ∃ s onTrue onFalse, Part (node s var onTrue onFalse) d ∧
      arena.Unfolds high onTrue.tree.reduce ∧ arena.Unfolds low onFalse.tree.reduce ∧
      arena.Unfolds f (node s var onTrue onFalse).tree.reduce := by
  generalize same : d.tree.reduce = t at unfolds
  cases id unfolds with
  | leaf other => cases holds.inj other
  | node other unfoldsHigh unfoldsLow =>
      cases holds.inj other
      obtain ⟨s, onTrue, onFalse, inside, rfl, rfl, whole⟩ := exists_decision_of_reduce same
      exact ⟨s, onTrue, onFalse, inside, unfoldsHigh, unfoldsLow, whole ▸ unfolds⟩

/-- Each decision of the reduced diagram unfolds to the reduced tree of some decision. -/
theorem exists_decision_of_leads {arena : Arena} {d : Detached} {ref g : Ref}
    (unfolds : arena.Unfolds ref d.tree.reduce) (leads : arena.Leads ref g) {var : Nat}
    {high low : Ref} (holds : arena.Holds g (.decision var high low)) :
    ∃ x ∈ d.decisions, arena.Unfolds g x.tree.reduce := by
  induction leads generalizing d with
  | self f =>
      obtain ⟨s, _, _, inside, _, _, whole⟩ := exists_decision_of_holds unfolds holds
      exact ⟨_, ⟨inside, by simp [isLeaf, value?]⟩, whole⟩
  | high above _ ih =>
      obtain ⟨s, onTrue, _, inside, unfoldsHigh, _, _⟩ := exists_decision_of_holds unfolds above
      obtain ⟨x, ⟨below, inner⟩, unfoldsX⟩ := ih unfoldsHigh holds
      exact ⟨x, ⟨below.high.trans inside, inner⟩, unfoldsX⟩
  | low above _ ih =>
      obtain ⟨s, _, onFalse, inside, _, unfoldsLow, _⟩ := exists_decision_of_holds unfolds above
      obtain ⟨x, ⟨below, inner⟩, unfoldsX⟩ := ih unfoldsLow holds
      exact ⟨x, ⟨below.low.trans inside, inner⟩, unfoldsX⟩

end Detached

/-- A cell is determined by the tree it unfolds to, so that no decision is counted twice. -/
theorem Arena.Proper.ncard_decisionsOf_le {arena : Arena} (proper : arena.Proper) {d : Detached}
    {ref : Ref} (unfolds : arena.Unfolds ref d.tree.reduce) :
    (arena.decisionsOf ref).ncard ≤ d.decisions.ncard := by
  have origin (g : Ref) (inside : g ∈ arena.decisionsOf ref) :
      ∃ x ∈ d.decisions, arena.Unfolds g x.tree.reduce := by
    obtain ⟨leads, _, _, _, holds⟩ := inside
    exact Detached.exists_decision_of_leads unfolds leads holds
  have : Nonempty Detached := ⟨d⟩
  choose! instanceOf among unfoldsOf using origin
  refine Set.ncard_le_ncard_of_injOn instanceOf among ?_ d.finite_decisions
  intro g insideG h insideH same
  exact (unfoldsOf g insideG).ref_eq proper (same ▸ unfoldsOf h insideH)

namespace Manager

open Detached (Among Made)

/--
An ordered diagram is attached without a look at the computed table and leaves that table as it is.
The result leads to every node made for it, and has at most as many decisions as the diagram, which
also bounds the number of nodes made.
-/
theorem Reached.ordered_attaching {m : Manager} (reached : m.Reached) {supply : Supply}
    {diagrams : List Detached} (made : Made supply diagrams) {d : Detached}
    (among : Among diagrams d) (ordered : d.tree.Ordered) :
    ∃ ref later, Forgoes (attach d) m ref later ∧
      (later.Represents ref fun a => d.tree.evaluate a) ∧
      later.nodeCount ≤ m.nodeCount + d.decisions.ncard ∧
      (∀ g, later.Resident g → ¬ m.Resident g → later.arena.Leads ref g) ∧
      (later.arena.decisionsOf ref).ncard ≤ d.decisions.ncard := by
  obtain ⟨ref, later, forgoes, sound, grown, mirrors, spans⟩ :=
    reached.sound.graft made among ordered
  have few := sound.proper.ncard_decisionsOf_le mirrors
  have finite := sound.proper.finite_decisionsOf ref
  -- Both leaves were there from the start, so that every new cell is a decision.
  have new (g : Ref) (isNew : m.arena.size ≤ g.slot) (inside : g.slot < later.arena.size) :
      g ∈ later.arena.decisionsOf ref := by
    refine ⟨spans g isNew inside, ?_⟩
    obtain ⟨node, holds⟩ := Arena.exists_holds inside
    cases node with
    | decision var high low => exact ⟨var, high, low, holds⟩
    | leaf value =>
        obtain rfl := sound.proper.ref_of_leaf holds
        exact absurd (reached.sound.proper.leaf value).slot_lt (Nat.not_lt_of_le isNew)
  have nodes := Arena.size_le_of_new finite new
  refine ⟨ref, later, forgoes, .of_denotes ⟨_, mirrors, d.tree.evaluate_reduce⟩,
    nodes.trans (Nat.add_le_add_left few _), ?_, few⟩
  intro g inside isNew
  exact spans g (Nat.le_of_not_lt isNew) inside

theorem ordered_attaching_ascending :
    Made ⟨6⟩ bothOrders.diagrams ∧ Among bothOrders.diagrams ascending ∧ ascending.tree.Ordered ∧
      ∃ ref later, Forgoes (attach ascending) twoLiterals ref later ∧
        (later.Represents ref fun a => ascending.tree.evaluate a) ∧
        later.nodeCount ≤ twoLiterals.nodeCount + 2 ∧
        (later.arena.decisionsOf ref).ncard ≤ 2 := by
  have made := reached_bothOrders.made
  have among : Among bothOrders.diagrams ascending := .self (.head _)
  have ordered : ascending.tree.Ordered := by
    simp [ascending, Bench.literal, Detached.tree, Tree.Ordered, Tree.After]
  have count : ascending.decisions.ncard = 2 := by
    rw [ascending, Bench.literal, Detached.decisions_node, Detached.decisions_node]
    simp only [Detached.decisions_leaf, Set.union_empty, insert_empty_eq]
    exact Set.ncard_pair (by simp)
  obtain ⟨ref, later, forgoes, represents, nodes, _, few⟩ :=
    reached_twoLiterals.ordered_attaching made among ordered
  rw [count] at nodes few
  exact ⟨made, among, ordered, ref, later, forgoes, represents, nodes, few⟩

end Manager

end DecisionDiagram
