import DecisionDiagram.ComputedKey
import DecisionDiagram.Node
import DecisionDiagram.UniqueTable

/-!
# Managers

A manager owns the arena of all its nodes, kept free of duplicates by a unique
table, and the results of its memoised operations. Every decision node is made
by `decision`, which leaves out redundant tests and finds nodes that exist, so
that a Boolean function has one reference at most. Branches always lie in cells
before their node, which bounds every recursion over a diagram.

Operations run in `ManagerM`. One that fails keeps what it did to the manager
before it failed.
-/

namespace DecisionDiagram

/-- The sizes that a manager starts with; both tables grow when needed. -/
structure Config where
  /-- There is room for `2 ^ storageBits` cells at first. -/
  storageBits : Nat := 20
  /-- There is room for `2 ^ computedBits` results at first. -/
  computedBits : Nat := 16
  deriving Repr

def Config.ofBits (bits : Nat) : Config where
  storageBits := bits
  computedBits := min bits 16

/-- The nodes of a family of diagrams and the results remembered about them. -/
structure Manager where
  /-- All nodes; the first two cells hold the leaves. -/
  table : UniqueTable Node
  /-- The results of memoised operations. -/
  computed : ComputedTable ComputedKey Ref
  /-- The branches of a node lie in cells before it. -/
  branches_below : ∀ ref node, table.get? ref = some node → node.Below ref
  /-- The number of nodes for which there are references, if they can run out. -/
  limit? : Option Nat := none

/-- Operations of a manager, which may fail and keep their effects when they do. -/
abbrev ManagerM := EStateM Fault Manager

namespace Manager

/-! ## Making a manager -/

def leafTable (bits : Nat) : UniqueTable Node :=
  let ⟨_, table⟩ := (UniqueTable.empty bits).add (.leaf false)
  (table.add (.leaf true)).2

theorem cells_leafTable (bits : Nat) :
    (leafTable bits).cells = #[.leaf false, .leaf true] := rfl

theorem below_of_leafTable (bits : Nat) (ref : Ref) (node : Node)
    (stored : (leafTable bits).get? ref = some node) : node.Below ref := by
  rw [UniqueTable.get?, cells_leafTable] at stored
  obtain ⟨_, rfl⟩ := Array.getElem?_eq_some_iff.mp stored
  match ref with
  | ⟨0⟩ => trivial
  | ⟨1⟩ => trivial

def fresh (bits : Nat) : Manager where
  table := leafTable bits
  computed := .empty
  branches_below := below_of_leafTable bits

def create (config : Config) : Except Fault Manager := do
  UniqueTable.checkBits config.storageBits
  ComputedTable.checkBits config.computedBits
  return fresh config.storageBits

/-- The manager with references for at most the given number of nodes. -/
def within (m : Manager) (limit : Nat) : Manager :=
  { m with limit? := some limit }

/-! ## Reading nodes -/

/-- The number of nodes, leaves included. -/
def nodeCount (m : Manager) : Nat :=
  m.table.size

def Resident (m : Manager) (ref : Ref) : Prop :=
  ref.slot < m.nodeCount

instance (m : Manager) (ref : Ref) : Decidable (m.Resident ref) :=
  inferInstanceAs (Decidable (ref.slot < m.nodeCount))

def node (m : Manager) (ref : Ref) : Except Fault { node : Node // node.Below ref } :=
  match stored : m.table.get? ref with
  | some node => .ok ⟨node, m.branches_below ref node stored⟩
  | none => .error (.foreignRef ref)

def ask {α : Type} (question : Manager → Except Fault α) : ManagerM α := fun m =>
  match question m with
  | .ok answer => .ok answer m
  | .error fault => .error fault m

def fetch (ref : Ref) : ManagerM { node : Node // node.Below ref } :=
  ask (·.node ref)

/-! ## The computed table -/

def remembered (key : ComputedKey) : ManagerM (Option Ref) := fun
    ⟨table, computed, below, limit?⟩ =>
  let ⟨result, computed⟩ := computed.lookup key
  .ok result ⟨table, computed, below, limit?⟩

def remember (key : ComputedKey) (result : Ref) : ManagerM Unit :=
  fun ⟨table, computed, below, limit?⟩ =>
    .ok () ⟨table, computed.insert key result, below, limit?⟩

/-- Forget all results and look-up counts; nodes stay. -/
def clearComputed : ManagerM Unit :=
  fun ⟨table, computed, below, limit?⟩ => .ok () ⟨table, computed.clear, below, limit?⟩

/-! ## Making nodes -/

theorem below_of_put {table : UniqueTable Node} {node : Node}
    (below : ∀ ref node, table.get? ref = some node → node.Below ref)
    (inside : node.Below ⟨table.size⟩) (ref : Ref) (other : Node)
    (stored : (table.put node).2.get? ref = some other) : other.Below ref := by
  rw [UniqueTable.get?] at stored
  rcases table.cells_put node with same | ⟨_, pushed⟩
  · rw [same] at stored
    exact below ref other stored
  · rw [pushed, Array.getElem?_push] at stored
    split at stored
    next last =>
      obtain rfl : node = other := Option.some.inj stored
      obtain rfl : ref = ⟨table.size⟩ := congrArg Ref.mk last
      exact inside
    next => exact below ref other stored

/-- The node with the given content, stored first if it is new. -/
def intern (m : Manager) (node : Node) (inside : node.Below ⟨m.nodeCount⟩) : Ref × Manager :=
  match m, inside with
  | ⟨table, computed, below, limit?⟩, inside =>
      let stored := below_of_put below inside
      match table.put node, stored with
      | (ref, table), stored => (ref, ⟨table, computed, stored, limit?⟩)

def checkRoom (m : Manager) (node : Node) : Except Fault Unit :=
  match m.limit? with
  | none => .ok ()
  | some limit => m.table.checkPut limit node

theorem resident_of_get? {m : Manager} {ref : Ref} {node : Node}
    (stored : m.table.get? ref = some node) : m.Resident ref :=
  (Array.getElem?_eq_some_iff.mp stored).1

/--
The node that decides on `var` between the given branches. Equal branches need no decision, and the
variable has to precede those of both branches.
-/
def decision (var : Nat) (high low : Ref) : ManagerM Ref := fun m =>
  if var = 0 then .error .zeroVariable m
  else if high = low then .ok high m
  else
    match storedHigh : m.table.get? high, storedLow : m.table.get? low with
    | none, _ => .error (.foreignRef high) m
    | some _, none => .error (.foreignRef low) m
    | some above, some below =>
        if above.admits var && below.admits var then
          match m.checkRoom (.decision var high low) with
          | .error fault => .error fault m
          | .ok () =>
              let ⟨ref, m⟩ := m.intern (.decision var high low)
                ⟨resident_of_get? storedHigh, resident_of_get? storedLow⟩
              .ok ref m
        else .error (.misordered var above.var below.var) m

def literal (var : Nat) (positive : Bool) : ManagerM Ref :=
  decision var (Ref.ofBool positive) (Ref.ofBool !positive)

/-! ## Summary -/

def summary (m : Manager) : String :=
  s!"Bdd \x7b capacity: {m.table.capacity}, size: {m.nodeCount}, " ++
    s!"buckets: {m.table.bucketCount}, cache_size: {m.computed.size} \x7d"

end Manager

end DecisionDiagram
