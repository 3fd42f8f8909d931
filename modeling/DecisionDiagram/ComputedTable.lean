import Std.Data.TreeMap
import DecisionDiagram.Fault

/-!
# Computed tables

A computed table remembers results by key and counts how often a look-up found
one. Entries stay until the table is cleared, which also resets the counts.
-/

namespace DecisionDiagram

/-- Remembered results with counts of the look-ups so far. -/
structure ComputedTable (κ ν : Type) [Ord κ] where
  /-- The remembered results. -/
  entries : Std.TreeMap κ ν compare := ∅
  /-- The number of look-ups that found a result. -/
  hits : Nat := 0
  /-- The number of look-ups that found none. -/
  misses : Nat := 0

namespace ComputedTable

variable {κ ν : Type} [Ord κ]

def defaultBits : Nat := 14

def empty : ComputedTable κ ν := {}

def checkBits (bits : Nat) : Except Fault Unit :=
  if bits ≤ 31 then .ok () else .error (.computedBits bits)

/-- An empty table, if the size asked for is allowed; the size does not limit the entries. -/
def create (bits : Nat) : Except Fault (ComputedTable κ ν) := do
  checkBits bits
  return empty

def size (table : ComputedTable κ ν) : Nat :=
  table.entries.size

def isEmpty (table : ComputedTable κ ν) : Bool :=
  table.entries.isEmpty

def lookup (table : ComputedTable κ ν) (key : κ) : Option ν × ComputedTable κ ν :=
  match table.entries[key]? with
  | some result => (some result, { table with hits := table.hits + 1 })
  | none => (none, { table with misses := table.misses + 1 })

def insert (table : ComputedTable κ ν) (key : κ) (result : ν) : ComputedTable κ ν :=
  { table with entries := table.entries.insert key result }

def clear (_ : ComputedTable κ ν) : ComputedTable κ ν :=
  empty

@[simp]
theorem lookup_fst (table : ComputedTable κ ν) (key : κ) :
    (table.lookup key).1 = table.entries[key]? := by
  unfold lookup
  split <;> simp_all

@[simp]
theorem entries_lookup (table : ComputedTable κ ν) (key : κ) :
    (table.lookup key).2.entries = table.entries := by
  unfold lookup
  split <;> rfl

@[simp]
theorem entries_insert (table : ComputedTable κ ν) (key : κ) (result : ν) :
    (table.insert key result).entries = table.entries.insert key result := rfl

end ComputedTable

end DecisionDiagram
