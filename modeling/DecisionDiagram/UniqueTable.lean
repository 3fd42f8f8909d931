import DecisionDiagram.Ref
import DecisionDiagram.Fault

/-!
# Unique tables

A unique table is an arena of values that only grows, together with a hash index
that finds the cell of a value already stored. A value that is `put` twice gets
the same cell. A value that is merely added gets a cell of its own, and the
index never leads to it. The index consists of buckets; the chain of a bucket
lists the cells whose values hash into it. When chains hold more than two cells
on average, the number of buckets doubles.

The room of a table grows as needed, but there are only so many references. What
needs a cell when all of them are taken is refused. Storing comes in two forms:
`add` and `put` leave it to their callers that there is a reference to spare,
`addWithin` and `putWithin` check it.
-/

namespace DecisionDiagram

/-- An arena of values with a hash index over some of its cells. -/
structure UniqueTable (α : Type) where
  /-- The stored values, slot by slot. -/
  cells : Array α
  /-- The chains of indexed cells, each from its head on. -/
  buckets : Array (List Ref)
  /-- The number of indexed cells. -/
  hashed : Nat
  /-- The number of cells for which there is room, one more than can hold values. -/
  capacity : Nat

namespace UniqueTable

variable {α : Type}

/-! ## Making a table -/

/-- A new table has at most this number of bucket bits. -/
def maxInitialBucketBits : Nat := 16

/-- The number of buckets at which the index stops growing. -/
def maxBuckets : Nat := 1 <<< 24

/-- The number of cells for which there are indices of 32 bits, of which zero names no cell. -/
def maxSize : Nat := 0xFFFFFFFF

def checkBits (bits : Nat) : Except Fault Unit :=
  if bits ≤ 31 then .ok () else .error .storageBits

def empty (bits : Nat) : UniqueTable α where
  cells := #[]
  buckets := Array.replicate (1 <<< min bits maxInitialBucketBits) []
  hashed := 0
  capacity := 1 <<< bits

def create (bits : Nat) : Except Fault (UniqueTable α) := do
  checkBits bits
  return empty bits

/-! ## Reading cells -/

def size (table : UniqueTable α) : Nat :=
  table.cells.size

def bucketCount (table : UniqueTable α) : Nat :=
  table.buckets.size

def get? (table : UniqueTable α) (ref : Ref) : Option α :=
  table.cells[ref.slot]?

/-- The cell of an index, where cells are counted from one. -/
def refAt (table : UniqueTable α) : Nat → Except Fault Ref
  | 0 => .error .zeroIndex
  | slot + 1 =>
      if slot < table.size then .ok ⟨slot⟩
      else .error (.indexOutOfBounds (table.size + 1) (slot + 1))

def valueAt (table : UniqueTable α) (index : Nat) : Except Fault α := do
  let ref ← table.refAt index
  match table.get? ref with
  | some value => return value
  | none => throw (.indexOutOfBounds (table.size + 1) index)

/-! ## Storing values -/

/-- The room when one more cell is taken: it doubles when all is used, to four cells at least. -/
def roomAfter (used capacity : Nat) : Nat :=
  if used = capacity then max (2 * capacity) 4 else capacity

/-- Store a value in a new cell that the index does not know. There has to be a reference for it. -/
def add : UniqueTable α → α → Ref × UniqueTable α
  | ⟨cells, buckets, hashed, capacity⟩, value =>
      let size := cells.size
      (⟨size⟩, ⟨cells.push value, buckets, hashed, roomAfter (size + 1) capacity⟩)

section Index

variable [Hashable α]

def bucketOf (table : UniqueTable α) (value : α) : Nat :=
  (hash value).toNat % table.bucketCount

def chainOf (table : UniqueTable α) (value : α) : List Ref :=
  table.buckets.getD (table.bucketOf value) []

/-- Put an already stored cell at the front of its chain. -/
def link (table : UniqueTable α) (ref : Ref) : UniqueTable α :=
  match table.get? ref with
  | none => table
  | some value =>
      let bucket := table.bucketOf value
      { table with buckets := table.buckets.modify bucket (ref :: ·) }

def indexed (table : UniqueTable α) : List Ref :=
  table.buckets.toList.flatten

/-- Build the index anew over the given number of buckets, linking the cells in the old order. -/
def rehash (table : UniqueTable α) (bucketCount : Nat) : UniqueTable α :=
  table.indexed.foldl link { table with buckets := Array.replicate bucketCount [] }

/-- Double the number of buckets once the average chain is longer than two. -/
def grow (table : UniqueTable α) : UniqueTable α :=
  if table.hashed ≤ 2 * table.bucketCount ∨ maxBuckets ≤ table.bucketCount then table
  else table.rehash (2 * table.bucketCount)

def insertNew (table : UniqueTable α) (value : α) : UniqueTable α :=
  let bucket := table.bucketOf value
  match table.add value with
  | (ref, ⟨cells, buckets, hashed, capacity⟩) =>
      grow ⟨cells, buckets.modify bucket (· ++ [ref]), hashed + 1, capacity⟩

def next? (table : UniqueTable α) (ref : Ref) : Option Ref := do
  let value ← table.get? ref
  ((table.chainOf value).dropWhile (· ≠ ref))[1]?

/-- The index of the next cell in the chain, where zero ends the chain. -/
def nextAt (table : UniqueTable α) (index : Nat) : Except Fault Nat := do
  let ref ← table.refAt index
  return (table.next? ref).elim 0 Ref.index

def links (table : UniqueTable α) : List Nat :=
  (List.range table.size).map fun slot => (table.next? ⟨slot⟩).elim 0 Ref.index

variable [BEq α]

def find? (table : UniqueTable α) (value : α) : Option Ref :=
  (table.chainOf value).find? fun ref => (table.get? ref).any (value == ·)

/--
The cell of a value, which is stored first if the index does not lead to an equal one. Then there
has to be a reference for it.
-/
def put (table : UniqueTable α) (value : α) : Ref × UniqueTable α :=
  match table.find? value with
  | some ref => (ref, table)
  | none =>
      let ref : Ref := ⟨table.size⟩
      (ref, table.insertNew value)

end Index

/-! ## Storing values while there are references -/

/-- Refuse to take another cell when there is none for it among the first `limit` cells. -/
def checkRoom (limit : Nat) (table : UniqueTable α) : Except Fault Unit :=
  if table.size < limit then .ok () else .error .storageFull

/-- Store a value in a new cell that the index does not know, if there is one. -/
def addWithin (limit : Nat) (table : UniqueTable α) (value : α) :
    Except Fault (Ref × UniqueTable α) := do
  table.checkRoom limit
  return table.add value

section Room

variable [Hashable α] [BEq α]

/-- Refuse to put a value that the index does not lead to when there is no cell for it. -/
def checkPut (limit : Nat) (table : UniqueTable α) (value : α) : Except Fault Unit :=
  match table.find? value with
  | some _ => .ok ()
  | none => table.checkRoom limit

/-- The cell of a value, which is stored first if it is new and there is a cell for it. -/
def putWithin (limit : Nat) (table : UniqueTable α) (value : α) :
    Except Fault (Ref × UniqueTable α) := do
  table.checkPut limit value
  return table.put value

end Room

/-! ## The arena under each operation -/

@[simp]
theorem cells_empty (bits : Nat) : (empty bits : UniqueTable α).cells = #[] := rfl

@[simp]
theorem cells_add (table : UniqueTable α) (value : α) :
    (table.add value).2.cells = table.cells.push value := rfl

section Arena

variable [Hashable α]

@[simp]
theorem cells_link (table : UniqueTable α) (ref : Ref) :
    (table.link ref).cells = table.cells := by
  unfold link
  split <;> rfl

theorem cells_foldl_link (refs : List Ref) (table : UniqueTable α) :
    (refs.foldl link table).cells = table.cells := by
  induction refs generalizing table with
  | nil => rfl
  | cons ref rest ih => rw [List.foldl_cons, ih, cells_link]

@[simp]
theorem cells_rehash (table : UniqueTable α) (bucketCount : Nat) :
    (table.rehash bucketCount).cells = table.cells :=
  cells_foldl_link _ _

@[simp]
theorem cells_grow (table : UniqueTable α) : table.grow.cells = table.cells := by
  unfold grow
  split
  · rfl
  · exact cells_rehash _ _

@[simp]
theorem cells_insertNew (table : UniqueTable α) (value : α) :
    (table.insertNew value).cells = table.cells.push value := by
  simp [insertNew, add]

variable [BEq α]

/-- A value that is put is found, or it is stored in a new last cell. -/
theorem cells_put (table : UniqueTable α) (value : α) :
    (table.put value).2.cells = table.cells ∨
      (table.put value).1 = ⟨table.size⟩ ∧
        (table.put value).2.cells = table.cells.push value := by
  unfold put
  split
  · exact Or.inl rfl
  · exact Or.inr ⟨rfl, cells_insertNew _ _⟩

end Arena

end UniqueTable

end DecisionDiagram
