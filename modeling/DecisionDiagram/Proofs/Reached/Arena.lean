import DecisionDiagram.Proofs.Reached.Canonicity

/-!
# The arena of a reached manager

The leaves lie in the first two cells. Every later cell holds a decision that is
irredundant, comes before its branches in the order of variables and after them
in the arena, and is found again when it is made again. No two cells hold nodes
with the same label and branches, and this includes the leaves.
-/

namespace DecisionDiagram

theorem Ref.ofBool_injective : ∀ {x y : Bool}, Ref.ofBool x = Ref.ofBool y → x = y := by
  decide

/-- The label zero tells leaves from decisions, and a leaf is its own branch. -/
theorem Arena.Proper.node_eq_of_parts {arena : Arena} (proper : arena.Proper) {p q : Ref}
    {a b : Node} (holdsP : arena.Holds p a) (holdsQ : arena.Holds q b) (vars : a.var = b.var)
    (highs : a.high = b.high) (lows : a.low = b.low) : a = b := by
  cases a with
  | leaf x =>
      cases b with
      | leaf y => exact congrArg Node.leaf (Ref.ofBool_injective highs)
      | decision w _ _ => exact absurd vars.symm (proper.orders holdsQ).var_ne_zero
  | decision v _ _ =>
      cases b with
      | leaf y => exact absurd vars (proper.orders holdsP).var_ne_zero
      | decision w _ _ =>
          cases vars
          cases highs
          cases lows
          rfl

namespace Manager

theorem decision_of_holds {m : Manager} (sound : m.Sound) {ref high low : Ref} {var : Nat}
    (holds : m.arena.Holds ref (.decision var high low)) :
    decision var high low m = .ok ref m := by
  obtain ⟨inside, run⟩ :=
    decision_of_ne sound.unlimited (sound.proper.branches_ne holds) (sound.proper.orders holds)
  rw [run, intern_of_holds sound holds inside]

/-- What is required of the decision in a cell after the leaves. -/
structure Stores (m : Manager) (ref : Ref) (var : Nat) (high low : Ref) : Prop where
  stored : m.table.get? ref = some (.decision var high low)
  var_pos : 1 ≤ var
  branches_ne : high ≠ low
  index_high : 1 ≤ high.index ∧ high.index < ref.index
  index_low : 1 ≤ low.index ∧ low.index < ref.index
  var_high : ∀ top onTrue onFalse, m.table.get? high = some (.decision top onTrue onFalse) →
    var < top
  var_low : ∀ top onTrue onFalse, m.table.get? low = some (.decision top onTrue onFalse) →
    var < top
  made_again : decision var high low m = .ok ref m

theorem Sound.stores {m : Manager} (sound : m.Sound) {ref high low : Ref} {var : Nat}
    (holds : m.arena.Holds ref (.decision var high low)) : m.Stores ref var high low where
  stored := holds
  var_pos := Nat.pos_of_ne_zero (sound.proper.orders holds).var_ne_zero
  branches_ne := sound.proper.branches_ne holds
  index_high := ⟨Nat.succ_pos _, Nat.succ_lt_succ (sound.proper.below holds).1⟩
  index_low := ⟨Nat.succ_pos _, Nat.succ_lt_succ (sound.proper.below holds).2⟩
  var_high _ _ _ := (sound.proper.orders holds).high.lt
  var_low _ _ _ := (sound.proper.orders holds).low.lt
  made_again := decision_of_holds sound holds

/--
In a reached manager, cells one and two hold the leaves, every later cell holds a decision as
required, and different cells hold nodes that differ in their label or a branch.
-/
theorem Reached.arena_stores {m : Manager} (reached : m.Reached) :
    m.table.get? Ref.falseLeaf = some (.leaf false) ∧
      m.table.get? Ref.trueLeaf = some (.leaf true) ∧
      (∀ ref : Ref, 3 ≤ ref.index → ref.index ≤ m.nodeCount →
        ∃ var high low, m.Stores ref var high low) ∧
      ∀ p q a b, m.table.get? p = some a → m.table.get? q = some b →
        a.var = b.var → a.high = b.high → a.low = b.low → p = q := by
  have sound := reached.sound
  refine ⟨sound.proper.leaf false, sound.proper.leaf true, ?_, ?_⟩
  · intro ref late inside
    obtain ⟨node, holds⟩ := resident_iff.mp inside
    cases node with
    | leaf value =>
        obtain rfl := sound.proper.ref_of_leaf holds
        have early := Ref.slot_ofBool_lt value
        exact absurd late (Nat.not_le_of_gt (Nat.succ_lt_succ early))
    | decision var high low => exact ⟨var, high, low, sound.stores holds⟩
  · intro p q a b holdsP holdsQ vars highs lows
    obtain rfl := sound.proper.node_eq_of_parts holdsP holdsQ vars highs lows
    exact sound.proper.unique holdsP holdsQ

def refusedDecision : Manager :=
  (Operation.decision 3 ⟨2⟩ ⟨3⟩).after twoLiterals

theorem arena_stores_refusedDecision :
    (Operation.decision 3 ⟨2⟩ ⟨3⟩).outcome twoLiterals = .error (.misordered 3 2 4) ∧
      refusedDecision.Stores ⟨3⟩ 4 Ref.trueLeaf Ref.falseLeaf := by
  have reached : refusedDecision.Reached := reached_twoLiterals.operated _
  obtain ⟨_, _, stores, _⟩ := reached.arena_stores
  obtain ⟨var, high, low, last⟩ := stores ⟨3⟩ (by decide) (by decide)
  have stored : refusedDecision.table.get? ⟨3⟩ =
      some (.decision 4 Ref.trueLeaf Ref.falseLeaf) := by decide
  cases last.stored.symm.trans stored
  exact ⟨by rfl, last⟩

end Manager

end DecisionDiagram
