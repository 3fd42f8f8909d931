import DecisionDiagram.Proofs.Arena.Settled
import DecisionDiagram.Proofs.Manager.Run
import DecisionDiagram.Proofs.UniqueTable.Index

/-!
# Sound managers

A manager is sound if its arena is proper, its index knows exactly the decisions,
every remembered result is settled, and references do not run out. On a sound
manager, an operation that performs an algorithm of the arena succeeds, goes
through the arenas that the algorithm goes through, and leaves a sound manager.
Remembering results does not change what is performed.
-/

namespace DecisionDiagram.Manager

/-- What holds between the operations on a manager. -/
structure Sound (m : Manager) : Prop where
  proper : m.arena.Proper
  index : m.table.Indexes fun ref => ∃ var high low, m.arena.Holds ref (.decision var high low)
  settled : ∀ key ref, m.computed.entries[key]? = some ref → m.arena.Settled key ref
  unlimited : m.limit? = none

/-- The operation succeeds with the result and the arena of a step, and stays sound. -/
def Performs (x : ManagerM Ref) (m : Manager) (step : Arena → Ref → Arena → Prop) : Prop :=
  ∃ ref later, x m = .ok ref later ∧ later.Sound ∧ step m.arena ref later.arena

/-! ## The new manager -/

theorem holds_leafTable {bits : Nat} {ref : Ref} {node : Node} :
    Arena.Holds (leafTable bits).cells ref node ↔
      ∃ value, ref = Ref.ofBool value ∧ node = .leaf value := by
  rw [cells_leafTable]
  constructor
  · intro holds
    match ref with
    | ⟨0⟩ => exact ⟨false, rfl, (Option.some.inj holds).symm⟩
    | ⟨1⟩ => exact ⟨true, rfl, (Option.some.inj holds).symm⟩
    | ⟨_ + 2⟩ => cases holds
  · rintro ⟨value, rfl, rfl⟩
    cases value <;> rfl

theorem sound_fresh (bits : Nat) : (fresh bits).Sound where
  proper := by
    refine ⟨fun value => holds_leafTable.mpr ⟨value, rfl, rfl⟩, ?_, ?_, ?_, ?_, ?_⟩
    · intro ref value holds
      obtain ⟨_, rfl, same⟩ := holds_leafTable.mp holds
      cases same
      rfl
    · intro ref node holds
      exact below_of_leafTable bits ref node holds
    · intro ref var high low holds
      obtain ⟨_, _, same⟩ := holds_leafTable.mp holds
      cases same
    · intro ref var high low holds
      obtain ⟨_, _, same⟩ := holds_leafTable.mp holds
      cases same
    · intro p q node first second
      obtain ⟨_, rfl, rfl⟩ := holds_leafTable.mp first
      obtain ⟨_, rfl, same⟩ := holds_leafTable.mp second
      cases same
      rfl
  index := by
    have noDecision (ref : Ref) :
        ¬ ∃ var high low, (fresh bits).arena.Holds ref (.decision var high low) := by
      rintro ⟨var, high, low, holds⟩
      obtain ⟨_, _, same⟩ := holds_leafTable.mp holds
      cases same
    have index := ((UniqueTable.Indexes.empty bits).add (Node.leaf false)).add (Node.leaf true)
    exact index.congr fun ref => (iff_false_intro (noDecision ref)).symm
  settled key ref found := by simp [fresh, ComputedTable.empty] at found
  unlimited := rfl

/-! ## The computed table -/

namespace Sound

variable {m : Manager}

theorem counted (sound : m.Sound) (key : ComputedKey) : (m.counted key).Sound where
  proper := sound.proper
  index := sound.index
  settled other ref found := by
    apply sound.settled other ref
    simpa [Manager.counted] using found
  unlimited := sound.unlimited

theorem learned (sound : m.Sound) {key : ComputedKey} {ref : Ref}
    (settled : m.arena.Settled key ref) : (m.learned key ref).Sound where
  proper := sound.proper
  index := sound.index
  settled other result found := by
    simp only [Manager.learned, ComputedTable.entries_insert, Std.TreeMap.getElem?_insert] at found
    split at found
    next same =>
      cases Std.LawfulEqCmp.eq_of_compare same
      cases found
      exact settled
    next => exact sound.settled other result found
  unlimited := sound.unlimited

theorem cleared (sound : m.Sound) : Manager.Sound { m with computed := m.computed.clear } where
  proper := sound.proper
  index := sound.index
  settled key ref found := by simp [ComputedTable.clear, ComputedTable.empty] at found
  unlimited := sound.unlimited

/-- A remembered result may stand for the computation, if what was computed is settled. -/
theorem memo (sound : m.Sound) {key : ComputedKey} {body : ManagerM Ref}
    {step : Arena → Ref → Arena → Prop}
    (recalled : ∀ {ref}, m.arena.Settled key ref → step m.arena ref m.arena)
    (settles : ∀ {ref later}, step m.arena ref later → later.Settled key ref)
    (performs : Performs body (m.counted key) step) : Performs (memo key body) m step := by
  cases found : m.computed.entries[key]? with
  | some ref =>
      exact ⟨ref, m.counted key, memo_of_some found body, sound.counted key,
        recalled (sound.settled key ref found)⟩
  | none =>
      obtain ⟨ref, later, run, soundLater, done⟩ := performs
      exact ⟨ref, later.learned key ref, memo_of_none found run, soundLater.learned (settles done),
        done⟩

end Sound

/-! ## Making decisions -/

theorem eq_of_parts {m n : Manager} (tables : m.table = n.table)
    (results : m.computed = n.computed) (limits : m.limit? = n.limit?) : m = n := by
  obtain ⟨table, computed, below, limit?⟩ := m
  obtain ⟨table', computed', below', limit?'⟩ := n
  cases tables
  cases results
  cases limits
  rfl

theorem intern_fst (m : Manager) (node : Node) (inside : node.Below ⟨m.nodeCount⟩) :
    (m.intern node inside).1 = (m.table.put node).1 := rfl

theorem table_intern (m : Manager) (node : Node) (inside : node.Below ⟨m.nodeCount⟩) :
    (m.intern node inside).2.table = (m.table.put node).2 := rfl

theorem computed_intern (m : Manager) (node : Node) (inside : node.Below ⟨m.nodeCount⟩) :
    (m.intern node inside).2.computed = m.computed := rfl

theorem limit?_intern (m : Manager) (node : Node) (inside : node.Below ⟨m.nodeCount⟩) :
    (m.intern node inside).2.limit? = m.limit? := rfl

def Indexed (m : Manager) : Prop :=
  m.table.Indexes fun ref => ∃ var high low, m.arena.Holds ref (.decision var high low)

theorem Indexed.intern {m : Manager} (indexed : m.Indexed) {var : Nat} {high low : Ref}
    (inside : (Node.decision var high low).Below ⟨m.nodeCount⟩) :
    (m.intern (.decision var high low) inside).2.Indexed := by
  cases found : m.table.find? (.decision var high low) with
  | some ref =>
      have put : (m.table.put (.decision var high low)).2 = m.table := by
        rw [UniqueTable.put, found]
      rw [Indexed, arena, table_intern, put]
      exact indexed
  | none =>
      have put : (m.table.put (.decision var high low)).2 =
          m.table.insertNew (.decision var high low) := by
        rw [UniqueTable.put, found]
      have pushed : (m.intern (.decision var high low) inside).2.arena =
          m.arena.push (.decision var high low) := by
        rw [arena, table_intern, put]
        exact UniqueTable.cells_insertNew _ _
      rw [Indexed, table_intern, put, pushed]
      refine (UniqueTable.Indexes.insertNew indexed found).congr fun ref => ?_
      constructor
      · rintro (⟨top, onTrue, onFalse, holds⟩ | rfl)
        · exact ⟨top, onTrue, onFalse, Arena.extends_push _ _ _ _ holds⟩
        · exact ⟨var, high, low, Arena.holds_push_self _ _⟩
      · rintro ⟨top, onTrue, onFalse, holds⟩
        rcases Arena.holds_push.mp holds with ⟨last, _⟩ | before
        · exact Or.inr last
        · exact Or.inl ⟨top, onTrue, onFalse, before⟩

/-- A decision that is stored is found. -/
theorem intern_of_holds {m : Manager} (sound : m.Sound) {ref high low : Ref} {var : Nat}
    (holds : m.arena.Holds ref (.decision var high low))
    (inside : (Node.decision var high low).Below ⟨m.nodeCount⟩) :
    m.intern (.decision var high low) inside = (ref, m) := by
  have found : m.table.find? (.decision var high low) = some ref :=
    (sound.index.find?_eq_some_iff _ ref).mpr ⟨⟨var, high, low, holds⟩, _, holds, BEq.rfl⟩
  have put : m.table.put (.decision var high low) = (ref, m.table) := by
    rw [UniqueTable.put, found]
  refine Prod.ext ?_ (eq_of_parts ?_ (computed_intern m _ inside) (limit?_intern m _ inside))
  · rw [intern_fst, put]
  · rw [table_intern, put]

/-- A decision that is not stored is stored last and then known to the index. -/
theorem intern_of_missing {m : Manager} (sound : m.Sound) {high low : Ref} {var : Nat}
    (ne : high ≠ low) (orders : m.arena.Orders var high low)
    (missing : ∀ ref, ¬ m.arena.Holds ref (.decision var high low))
    (inside : (Node.decision var high low).Below ⟨m.nodeCount⟩) :
    ∃ later, m.intern (.decision var high low) inside = (⟨m.nodeCount⟩, later) ∧ later.Sound ∧
      later.arena = m.arena.push (.decision var high low) := by
  have unknown : m.table.find? (.decision var high low) = none := by
    refine (sound.index.find?_eq_none_iff _).mpr fun ref other _ stored same => missing ref ?_
    rwa [eq_of_beq same]
  have put : m.table.put (.decision var high low) =
      (⟨m.nodeCount⟩, m.table.insertNew (.decision var high low)) := by
    rw [UniqueTable.put, unknown]
    rfl
  have pushed : (m.intern (.decision var high low) inside).2.arena =
      m.arena.push (.decision var high low) := by
    rw [arena, table_intern, put]
    exact UniqueTable.cells_insertNew _ _
  refine ⟨(m.intern (.decision var high low) inside).2, ?_, ⟨?_, ?_, ?_, sound.unlimited⟩, pushed⟩
  · refine Prod.ext ?_ rfl
    rw [intern_fst, put]
  · rw [pushed]
    exact sound.proper.push ne orders missing
  · exact Indexed.intern sound.index inside
  · intro key ref found
    rw [computed_intern] at found
    rw [pushed]
    exact (sound.settled key ref found).extend sound.proper
      (sound.proper.push ne orders missing) (Arena.extends_push _ _)

/-- A decision is refused, needs no node, or is in order, and which of it depends on the nodes. -/
theorem decision_cases (m : Manager) (var : Nat) (high low : Ref) :
    (∃ fault, ∀ n : Manager, n.arena = m.arena → decision var high low n = .error fault n) ∨
      (high = low ∧ ∀ n : Manager, decision var high low n = .ok high n) ∨
      high ≠ low ∧ m.arena.Orders var high low := by
  by_cases zero : var = 0
  · subst zero
    exact Or.inl ⟨_, fun n _ => decision_of_zero n high low⟩
  by_cases same : high = low
  · subst same
    exact Or.inr (Or.inl ⟨rfl, fun n => decision_of_eq n zero high⟩)
  have foreign {n : Manager} (arena : n.arena = m.arena) {ref : Ref} (foreign : ¬ m.Resident ref) :
      ¬ n.Resident ref := by
    rwa [resident_iff, arena, ← resident_iff]
  by_cases residentHigh : m.Resident high
  case neg =>
    exact Or.inl ⟨_, fun n arena =>
      decision_of_foreign_high zero same (foreign arena residentHigh)⟩
  obtain ⟨a, holdsHigh⟩ := resident_iff.mp residentHigh
  by_cases residentLow : m.Resident low
  case neg =>
    exact Or.inl ⟨_, fun n arena =>
      decision_of_foreign_low zero same (arena ▸ holdsHigh) (foreign arena residentLow)⟩
  obtain ⟨b, holdsLow⟩ := resident_iff.mp residentLow
  by_cases ordered : a.admits var && b.admits var
  case neg =>
    exact Or.inl ⟨_, fun n arena =>
      decision_of_disordered zero same (arena ▸ holdsHigh) (arena ▸ holdsLow) ordered⟩
  exact Or.inr (Or.inr ⟨same, Arena.Proper.orders_nodes zero holdsHigh holdsLow ordered⟩)

/-- A decision in order is stored if there is room for it. -/
theorem decision_of_orders {m : Manager} {var : Nat} {high low : Ref} (ne : high ≠ low)
    (orders : m.arena.Orders var high low) :
    ∃ inside, decision var high low m =
      match m.checkRoom (.decision var high low) with
      | .error fault => .error fault m
      | .ok () => .ok (m.intern (.decision var high low) inside).1
          (m.intern (.decision var high low) inside).2 := by
  obtain ⟨nonzero, ⟨a, holdsHigh, admitsHigh⟩, ⟨b, holdsLow, admitsLow⟩⟩ := orders
  unfold decision
  rw [if_neg nonzero, if_neg ne]
  split
  next stored => cases stored.symm.trans holdsHigh
  next stored => cases stored.symm.trans holdsLow
  next storedHigh storedLow =>
    cases storedHigh.symm.trans holdsHigh
    cases storedLow.symm.trans holdsLow
    rw [admitsHigh, admitsLow]
    exact ⟨⟨holdsHigh.slot_lt, holdsLow.slot_lt⟩, rfl⟩

theorem checkRoom_of_unlimited {m : Manager} (unlimited : m.limit? = none) (node : Node) :
    m.checkRoom node = .ok () := by
  rw [checkRoom, unlimited]

theorem decision_of_ne {m : Manager} (unlimited : m.limit? = none) {var : Nat} {high low : Ref}
    (ne : high ≠ low) (orders : m.arena.Orders var high low) :
    ∃ inside, decision var high low m =
      .ok (m.intern (.decision var high low) inside).1
        (m.intern (.decision var high low) inside).2 := by
  obtain ⟨inside, run⟩ := decision_of_orders ne orders
  rw [checkRoom_of_unlimited unlimited] at run
  exact ⟨inside, run⟩

/-- A decision is refused, is the branch that it has twice, or is stored. -/
theorem decision_ends (m : Manager) (var : Nat) (high low : Ref) :
    (∃ fault, decision var high low m = .error fault m) ∨
      decision var high low m = .ok high m ∨
      ∃ inside, decision var high low m =
        .ok (m.intern (.decision var high low) inside).1
          (m.intern (.decision var high low) inside).2 := by
  rcases decision_cases m var high low with ⟨fault, refused⟩ | ⟨_, plain⟩ | ⟨ne, orders⟩
  · exact Or.inl ⟨fault, refused m rfl⟩
  · exact Or.inr (Or.inl (plain m))
  · obtain ⟨inside, run⟩ := decision_of_orders ne orders
    cases room : m.checkRoom (.decision var high low) with
    | error fault =>
        rw [room] at run
        exact Or.inl ⟨fault, run⟩
    | ok free =>
        rw [room] at run
        exact Or.inr (Or.inr ⟨inside, run⟩)

/-- On a sound manager, a decision that is in order is made as in the arena. -/
theorem Sound.decision {m : Manager} (sound : m.Sound) {var : Nat} {high low : Ref}
    (orders : m.arena.Orders var high low) :
    Performs (decision var high low) m fun arena ref later =>
      arena.decision var high low = (ref, later) := by
  by_cases same : high = low
  · subst same
    refine ⟨high, m, decision_of_eq m orders.var_ne_zero high, sound, ?_⟩
    change m.arena.decision var high high = _
    rw [Arena.decision, if_pos rfl]
  · obtain ⟨inside, run⟩ := decision_of_ne sound.unlimited same orders
    rcases Arena.intern_cases sound.proper (.decision var high low) with
      ⟨ref, holds, found⟩ | ⟨missing, stored⟩
    · rw [intern_of_holds sound holds inside] at run
      refine ⟨ref, m, run, sound, ?_⟩
      change m.arena.decision var high low = _
      rw [Arena.decision, if_neg same, found]
    · obtain ⟨later, interned, soundLater, pushed⟩ :=
        intern_of_missing sound same orders missing inside
      rw [interned] at run
      refine ⟨⟨m.nodeCount⟩, later, run, soundLater, ?_⟩
      change m.arena.decision var high low = _
      rw [Arena.decision, if_neg same, stored, pushed]
      rfl

end DecisionDiagram.Manager
