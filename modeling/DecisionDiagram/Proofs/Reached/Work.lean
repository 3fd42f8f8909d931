import DecisionDiagram.Proofs.Reached.Subproblems

/-!
# The work of a connective

Every miss of a connective is for another subproblem, and every node it makes belongs to a miss. A
subproblem is a cell of the one operand with a cell of the other. Hence the product of the sizes of
both diagrams bounds misses, entries and nodes, whatever the manager remembered before.
-/

namespace DecisionDiagram.Manager

/-- The program makes no more nodes than its look-ups miss, but for a number of them. -/
def PaidBut {α : Type} (excess : Nat) (x : ManagerM α) (m : Manager) : Prop :=
  (left x m).nodeCount + m.computed.misses ≤ m.nodeCount + (left x m).computed.misses + excess

namespace PaidBut

variable {α β : Type} {excess more : Nat} {x : ManagerM α} {m later : Manager}

theorem of_same (left_eq : left x m = m) : PaidBut excess x m := by
  rw [PaidBut, left_eq]
  exact Nat.le_add_right _ _

theorem of_eq {y : ManagerM α} (same : x m = y m) (paid : PaidBut excess y m) :
    PaidBut excess x m := by
  rwa [PaidBut, left, same]

theorem bind {next : α → ManagerM β} (first : PaidBut excess x m)
    (rest : ∀ a later, PaidBut more (next a) later) : PaidBut (excess + more) (x >>= next) m := by
  unfold PaidBut at first
  cases run : x m with
  | ok a middle =>
      have second := rest a middle
      unfold PaidBut at second
      rw [left_of_ok run] at first
      rw [PaidBut, left_bind run]
      omega
  | error fault middle =>
      rw [left_of_error run] at first
      rw [PaidBut, left_of_error (bind_error run)]
      omega

/-- A computation is begun by a miss, which pays for one more node. -/
theorem memo {key : ComputedKey} {body : ManagerM Ref}
    (paid : PaidBut 1 body (m.counted key)) : PaidBut 0 (Manager.memo key body) m := by
  cases found : m.computed.entries[key]? with
  | some ref =>
      rw [PaidBut, left_of_ok (memo_of_some found body), counted,
        ComputedTable.lookup_of_some found]
      exact Nat.le_refl _
  | none =>
      have missed : (m.counted key).computed.misses = m.computed.misses + 1 := by
        rw [counted, ComputedTable.lookup_of_none found]
      have nodes : (m.counted key).nodeCount = m.nodeCount := rfl
      rw [PaidBut, missed, nodes] at paid
      cases run : body (m.counted key) with
      | ok ref middle =>
          have kept : (middle.learned key ref).nodeCount = middle.nodeCount ∧
            (middle.learned key ref).computed.misses = middle.computed.misses := ⟨rfl, rfl⟩
          rw [left_of_ok run] at paid
          -- Remembering the result neither makes a node nor looks anything up.
          rw [PaidBut, left_of_ok (memo_of_none found run), kept.1, kept.2]
          omega
      | error fault middle =>
          rw [left_of_error run] at paid
          rw [PaidBut, left_of_error (memo_of_error found run)]
          omega

end PaidBut

theorem nodeCount_intern_le (m : Manager) (node : Node) (inside : node.Below ⟨m.nodeCount⟩) :
    (m.intern node inside).2.nodeCount ≤ m.nodeCount + 1 := by
  have cells : (m.intern node inside).2.nodeCount = (m.table.put node).2.cells.size := by
    rw [nodeCount, table_intern, UniqueTable.size]
  rw [cells]
  rcases m.table.cells_put node with same | ⟨_, pushed⟩
  · rw [same]
    exact Nat.le_succ _
  · rw [pushed, Array.size_push]
    exact Nat.le_refl _

theorem paidBut_decision (m : Manager) (var : Nat) (high low : Ref) :
    PaidBut 1 (decision var high low) m := by
  rcases decision_ends m var high low with ⟨fault, refused⟩ | plain | ⟨inside, run⟩
  · exact .of_same (left_of_error refused)
  · exact .of_same (left_of_ok plain)
  · rw [PaidBut, left_of_ok run, computed_intern]
    have le := nodeCount_intern_le m (.decision var high low) inside
    omega

/-- A connective makes no more nodes than it has misses. -/
theorem paidBut_apply (m : Manager) (op : Connective) (p q : Ref) :
    PaidBut 0 (apply op p q) m := by
  induction m, p, q using apply_induction op with
  | refused failed => exact .of_same (left_of_error failed)
  | leaves run => exact .of_same (left_of_ok run)
  | @split m p q a b var holdsP holdsQ split ih =>
      refine .of_eq (apply_of_split op holdsP holdsQ split) (.memo ?_)
      exact (ih true _).bind fun _ later =>
        (ih false later).bind fun _ last => paidBut_decision last var _ _

structure AddsAtMost (bound : Nat) (m later : Manager) : Prop where
  misses : later.computed.misses ≤ m.computed.misses + bound
  entries : later.computed.size ≤ m.computed.size + bound
  nodes : later.nodeCount ≤ m.nodeCount + bound

/-- There are no more subproblems than pairs of cells. -/
theorem ncard_subproblems_le {arena : Arena} (proper : arena.Proper) (op : Connective)
    (p q : Ref) : (arena.subproblems op p q).ncard ≤
      (arena.cellsOf p).ncard * (arena.cellsOf q).ncard := by
  have finite := (proper.finite_cellsOf p).prod (proper.finite_cellsOf q)
  rw [Arena.subproblems, ← Set.image_uncurry_prod, ← Set.ncard_prod]
  exact Set.ncard_image_le finite

/--
A connective on stored diagrams adds no more misses, entries and nodes than there are pairs of a
cell of the one diagram and a cell of the other.
-/
theorem Reached.quadratic {m : Manager} (reached : m.Reached) {p q : Ref}
    (insideP : m.Resident p) (insideQ : m.Resident q) (op : Connective) :
    ∃ ref later, apply op p q m = .ok ref later ∧
      AddsAtMost ((m.arena.cellsOf p).ncard * (m.arena.cellsOf q).ncard) m later := by
  have sound := reached.sound
  obtain ⟨_, holdsP⟩ := resident_iff.mp insideP
  obtain ⟨_, holdsQ⟩ := resident_iff.mp insideQ
  obtain ⟨ref, later, run, _⟩ := sound.apply op holdsP holdsQ
  have fills := finishes_subproblems sound op p q
  have paid := paidBut_apply m op p q
  rw [Finishes, left_of_ok run] at fills
  rw [PaidBut, left_of_ok run] at paid
  have finite : (m.arena.subproblems op p q).Finite :=
    (sound.proper.finite_cellsOf p).image2 _ (sound.proper.finite_cellsOf q)
  have pairs := ncard_subproblems_le sound.proper op p q
  have entries := (fills.size_le finite).trans (Nat.add_le_add_left pairs _)
  -- Every miss has made an entry, and every node has been paid for by a miss.
  have balance := fills.size_add_misses
  exact ⟨ref, later, run, by omega, entries, by omega⟩

/-- A literal has three cells, its own and both leaves. -/
theorem ncard_cellsOf_literal {arena : Arena} (proper : arena.Proper) {f : Ref} {var : Nat}
    (holds : arena.Holds f (.decision var Ref.trueLeaf Ref.falseLeaf)) :
    (arena.cellsOf f).ncard = 3 := by
  have onTrue : arena.Holds Ref.trueLeaf (.leaf true) := proper.leaf true
  have onFalse : arena.Holds Ref.falseLeaf (.leaf false) := proper.leaf false
  have neTrue : f ≠ Ref.trueLeaf := by
    rintro rfl
    cases holds.inj onTrue
  have neFalse : f ≠ Ref.falseLeaf := by
    rintro rfl
    cases holds.inj onFalse
  rw [Arena.cellsOf_decision holds, Arena.cellsOf_leaf onTrue, Arena.cellsOf_leaf onFalse]
  exact Set.ncard_eq_three.mpr ⟨f, _, _, neTrue, neFalse, by decide, rfl⟩

theorem quadratic_twoLiterals :
    (twoLiterals.Resident ⟨2⟩ ∧ twoLiterals.Resident ⟨3⟩) ∧
      ∃ ref later, apply .xor ⟨2⟩ ⟨3⟩ twoLiterals = .ok ref later ∧
        AddsAtMost 9 twoLiterals later := by
  have inside : twoLiterals.Resident ⟨2⟩ ∧ twoLiterals.Resident ⟨3⟩ := by decide
  have proper := reached_twoLiterals.sound.proper
  have first := ncard_cellsOf_literal proper
    (by decide : twoLiterals.table.get? ⟨2⟩ = some (.decision 2 Ref.trueLeaf Ref.falseLeaf))
  have second := ncard_cellsOf_literal proper
    (by decide : twoLiterals.table.get? ⟨3⟩ = some (.decision 4 Ref.trueLeaf Ref.falseLeaf))
  have work := reached_twoLiterals.quadratic inside.1 inside.2 .xor
  rw [first, second] at work
  exact ⟨inside, work⟩

end DecisionDiagram.Manager
