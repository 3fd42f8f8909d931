import DecisionDiagram.Proofs.History
import DecisionDiagram.Proofs.Manager.Closed

/-!
# The sizes of the tables

The sizes that a manager starts with decide in which buckets its nodes lie, when the buckets double
and in which order their chains run. No operation sees any of this. Managers with the same contents
stay such under every program, and a program brings the same on both.
-/

namespace DecisionDiagram

namespace Manager

/-- The managers store the same nodes and results, in whatever buckets they find the nodes. -/
structure SameContents (m n : Manager) : Prop where
  left : m.Indexed
  right : n.Indexed
  arena : m.arena = n.arena
  computed : m.computed = n.computed
  limits : m.limit? = n.limit?

inductive SameRun {α : Type} :
    EStateM.Result Fault Manager α → EStateM.Result Fault Manager α → Prop where
  | ok {m n : Manager} (answer : α) (same : SameContents m n) :
      SameRun (.ok answer m) (.ok answer n)
  | error {m n : Manager} (fault : Fault) (same : SameContents m n) :
      SameRun (.error fault m) (.error fault n)

/-- The program does not see in which buckets the nodes are found. -/
def Sizeless {α : Type} (x : ManagerM α) : Prop :=
  ∀ m n : Manager, SameContents m n → SameRun (x m) (x n)

/-! ## Making nodes -/

theorem SameContents.find? {m n : Manager} (same : SameContents m n) (node : Node) :
    m.table.find? node = n.table.find? node := by
  have known : n.table.Indexes fun ref =>
      ∃ top onTrue onFalse, m.arena.Holds ref (.decision top onTrue onFalse) := by
    rw [same.arena]
    exact same.right
  exact UniqueTable.Indexes.find?_congr same.left known same.arena node

theorem SameContents.checkRoom {m n : Manager} (same : SameContents m n) (node : Node) :
    m.checkRoom node = n.checkRoom node := by
  have sizes : m.table.size = n.table.size := congrArg Array.size same.arena
  simp only [Manager.checkRoom, UniqueTable.checkPut, UniqueTable.checkRoom, same.limits,
    same.find?, sizes]

/-- Two indexes over the same nodes find the same decisions, and they store new ones alike. -/
theorem SameContents.intern {m n : Manager} (same : SameContents m n) {var : Nat} {high low : Ref}
    (insideM : (Node.decision var high low).Below ⟨m.nodeCount⟩)
    (insideN : (Node.decision var high low).Below ⟨n.nodeCount⟩) :
    (m.intern (.decision var high low) insideM).1 = (n.intern (.decision var high low) insideN).1 ∧
      SameContents (m.intern (.decision var high low) insideM).2
        (n.intern (.decision var high low) insideN).2 := by
  have cells : m.table.cells = n.table.cells := same.arena
  have sizes : m.table.size = n.table.size := congrArg Array.size cells
  have found := same.find? (.decision var high low)
  have put : (m.table.put (.decision var high low)).1 = (n.table.put (.decision var high low)).1 ∧
      (m.table.put (.decision var high low)).2.cells =
        (n.table.put (.decision var high low)).2.cells := by
    rw [UniqueTable.put, UniqueTable.put, ← found]
    cases m.table.find? (.decision var high low) with
    | some ref => exact ⟨rfl, cells⟩
    | none =>
        refine ⟨congrArg Ref.mk sizes, ?_⟩
        rw [UniqueTable.cells_insertNew, UniqueTable.cells_insertNew, cells]
  exact ⟨put.1, same.left.intern insideM, same.right.intern insideN, put.2, same.computed,
    same.limits⟩

/-! ## Programs -/

namespace Sizeless

variable {α β : Type}

theorem pure (a : α) : Sizeless (Pure.pure a) :=
  fun _ _ same => .ok a same

theorem bind {x : ManagerM α} {next : α → ManagerM β} (first : Sizeless x)
    (rest : ∀ a, Sizeless (next a)) : Sizeless (x >>= next) := by
  intro m n same
  have run := first m n same
  generalize runM : x m = resultM, runN : x n = resultN at run
  cases run with
  | ok answer later =>
      rw [bind_ok runM, bind_ok runN]
      exact rest answer _ _ later
  | error fault later =>
      rw [bind_error runM, bind_error runN]
      exact .error fault later

theorem ask {question : Manager → Except Fault α}
    (reads : ∀ {m n : Manager}, m.arena = n.arena → question m = question n) :
    Sizeless (ask question) := by
  intro m n same
  rw [Manager.ask, Manager.ask, reads same.arena]
  cases question n with
  | ok answer => exact .ok answer same
  | error fault => exact .error fault same

theorem remembered (key : ComputedKey) : Sizeless (remembered key) := by
  intro m n same
  rw [remembered_eq, remembered_eq, same.computed]
  have counted : SameContents (m.counted key) (n.counted key) :=
    ⟨same.left, same.right, same.arena, by rw [counted, counted, same.computed], same.limits⟩
  exact .ok _ counted

theorem remember (key : ComputedKey) (ref : Ref) : Sizeless (remember key ref) := by
  intro m n same
  rw [remember_eq, remember_eq]
  have learned : SameContents (m.learned key ref) (n.learned key ref) :=
    ⟨same.left, same.right, same.arena, by rw [learned, learned, same.computed], same.limits⟩
  exact .ok () learned

theorem clearComputed : Sizeless clearComputed :=
  fun _ _ same => .ok () ⟨same.left, same.right, same.arena, rfl, same.limits⟩

theorem decision (var : Nat) (high low : Ref) : Sizeless (decision var high low) := by
  intro m n same
  rcases decision_cases m var high low with ⟨fault, refused⟩ | ⟨_, plain⟩ | ⟨ne, orders⟩
  · rw [refused m rfl, refused n same.arena.symm]
    exact .error fault same
  · rw [plain m, plain n]
    exact .ok high same
  · obtain ⟨insideM, runM⟩ := decision_of_orders ne orders
    obtain ⟨insideN, runN⟩ := decision_of_orders ne (same.arena ▸ orders)
    rw [runM, runN, same.checkRoom]
    cases n.checkRoom (.decision var high low) with
    | error fault => exact .error fault same
    | ok free =>
        obtain ⟨refs, later⟩ := same.intern insideM insideN
        rw [refs]
        exact .ok _ later

theorem composed : Composed Sizeless :=
  ⟨pure, bind, ask, remembered, remember, decision⟩

end Sizeless

end Manager

open Manager

/-- No operation sees in which buckets the nodes are found. -/
theorem Operation.sizeless (op : Operation) : Sizeless op.perform :=
  Sizeless.composed.perform .clearComputed op

namespace Manager

/-! ## Histories -/

theorem SameContents.operated {m n : Manager} (same : SameContents m n) (op : Operation) :
    op.outcome m = op.outcome n ∧ SameContents (op.after m) (op.after n) := by
  have run := op.sizeless m n same
  unfold Operation.outcome Operation.after
  generalize op.perform m = first, op.perform n = second at run
  cases run with
  | ok answer later => exact ⟨rfl, later⟩
  | error fault later => exact ⟨rfl, later⟩

theorem SameContents.run {m n : Manager} (same : SameContents m n) (history : List Operation) :
    (Operation.run history m).1 = (Operation.run history n).1 ∧
      SameContents (Operation.run history m).2 (Operation.run history n).2 := by
  induction history generalizing m n with
  | nil => exact ⟨rfl, same⟩
  | cons op rest ih =>
      obtain ⟨outcome, later⟩ := same.operated op
      obtain ⟨outcomes, final⟩ := ih later
      exact ⟨congrArg₂ List.cons outcome outcomes, final⟩

theorem sameContents_fresh (first second : Nat) :
    SameContents (fresh first) (fresh second) where
  left := (sound_fresh first).index
  right := (sound_fresh second).index
  arena := (cells_leafTable first).trans (cells_leafTable second).symm
  computed := rfl
  limits := rfl

def summaryWith (m : Manager) (capacity bucketCount : Nat) : String :=
  s!"Bdd \x7b capacity: {capacity}, size: {m.nodeCount}, " ++
    s!"buckets: {bucketCount}, cache_size: {m.computed.size} \x7d"

theorem summary_eq (m : Manager) :
    m.summary = m.summaryWith m.table.capacity m.table.bucketCount := by
  unfold summary summaryWith
  simp only

/-- All that can be seen of the managers is the same, but for the capacity and the bucket count. -/
structure SeemAlike (m n : Manager) : Prop where
  nodeCount : m.nodeCount = n.nodeCount
  get? : ∀ ref, m.table.get? ref = n.table.get? ref
  size : m.computed.size = n.computed.size
  hits : m.computed.hits = n.computed.hits
  misses : m.computed.misses = n.computed.misses
  entries : ∀ key : ComputedKey, m.computed.entries[key]? = n.computed.entries[key]?
  summary : m.summary = n.summaryWith m.table.capacity m.table.bucketCount

theorem SameContents.seemAlike {m n : Manager} (same : SameContents m n) : SeemAlike m n := by
  have cells : m.table.cells = n.table.cells := same.arena
  have nodes : m.nodeCount = n.nodeCount := congrArg Array.size cells
  refine ⟨nodes, fun ref => congrArg (fun arena : Arena => arena[ref.slot]?) cells,
    congrArg ComputedTable.size same.computed, congrArg ComputedTable.hits same.computed,
    congrArg ComputedTable.misses same.computed,
    fun key => congrArg (fun computed => computed.entries[key]?) same.computed, ?_⟩
  rw [summary_eq]
  unfold summaryWith
  rw [nodes, same.computed]

/--
Managers can be created with all allowed sizes. Whatever two of them are created with, every history
brings the same on both, and after it they seem alike. So they do after each operation of a history.
-/
theorem create_sizeless {first second : Config}
    (allowed : first.storageBits ≤ 31 ∧ first.computedBits ≤ 31)
    (allowedToo : second.storageBits ≤ 31 ∧ second.computedBits ≤ 31) :
    ∃ m n, create first = .ok m ∧ create second = .ok n ∧ ∀ history : List Operation,
      (Operation.run history m).1 = (Operation.run history n).1 ∧
        SeemAlike (Operation.run history m).2 (Operation.run history n).2 := by
  refine ⟨fresh first.storageBits, fresh second.storageBits,
    create_eq_ok_iff.mpr ⟨allowed.1, allowed.2, rfl⟩,
    create_eq_ok_iff.mpr ⟨allowedToo.1, allowedToo.2, rfl⟩, fun history => ?_⟩
  obtain ⟨outcomes, same⟩ :=
    (sameContents_fresh first.storageBits second.storageBits).run history
  exact ⟨outcomes, same.seemAlike⟩

def negatedConjunction : List Operation :=
  [.literal 2 true, .literal 4 true, .apply .and ⟨2⟩ ⟨3⟩, .neg ⟨4⟩, .literal 6 false,
    .rename .next ⟨9⟩]

theorem create_sizeless_negatedConjunction :
    (Operation.run negatedConjunction (fresh 0)).2.table.bucketCount = 4 ∧
      (Operation.run negatedConjunction (fresh 3)).2.table.bucketCount = 8 ∧
      (Operation.run negatedConjunction (fresh 0)).1 =
        (Operation.run negatedConjunction (fresh 3)).1 ∧
      SeemAlike (Operation.run negatedConjunction (fresh 0)).2
        (Operation.run negatedConjunction (fresh 3)).2 := by
  obtain ⟨m, n, createdM, createdN, alike⟩ := create_sizeless
    (by decide : (⟨0, 0⟩ : Config).storageBits ≤ 31 ∧ (⟨0, 0⟩ : Config).computedBits ≤ 31)
    (by decide : (⟨3, 31⟩ : Config).storageBits ≤ 31 ∧ (⟨3, 31⟩ : Config).computedBits ≤ 31)
  obtain ⟨_, _, rfl⟩ := create_eq_ok_iff.mp createdM
  obtain ⟨_, _, rfl⟩ := create_eq_ok_iff.mp createdN
  obtain ⟨outcomes, seemAlike⟩ := alike negatedConjunction
  exact ⟨by decide +kernel, by decide +kernel, outcomes, seemAlike⟩

end Manager

end DecisionDiagram
