import Mathlib.Data.PFun
import DecisionDiagram.Proofs.UniqueTable.Chains

/-!
# Unique tables linked through their cells

The same table with its chains spread over the cells: a cell names the next cell
of its chain by index, and a bucket names the first. Searching and collecting are
loops that go where the links lead. So a loop may meet an index without a cell,
and it may go round for ever; `Walk` has room for both. Nothing in the form of a
linked table excludes either.
-/

namespace DecisionDiagram.UniqueTable

/-! ## Loops -/

/-- Computations that follow links, which may fail, and which are undefined if they do not end. -/
abbrev Walk := ExceptT Fault Part

section Loop

variable {β σ : Type}

/-- What follows a turn of a loop: its end, with or without a fault, or the next turn. -/
def turn : Except Fault (β ⊕ σ) → Except Fault β ⊕ σ
  | .error fault => .inl (.error fault)
  | .ok (.inl result) => .inl (.ok result)
  | .ok (.inr state) => .inr state

def loop (step : σ → Except Fault (β ⊕ σ)) (start : σ) : Walk β :=
  ExceptT.mk (PFun.fix (fun state => Part.some (turn (step state))) start)

theorem loop_of_result {step : σ → Except Fault (β ⊕ σ)} {state : σ} {result : β}
    (ends : step state = pure (.inl result)) : loop step state = pure result := by
  refine Part.eq_some_iff.mpr (PFun.fix_stop ?_)
  rw [ends]
  exact Part.mem_some _

theorem loop_of_next {step : σ → Except Fault (β ⊕ σ)} {state next : σ}
    (goesOn : step state = pure (.inr next)) : loop step state = loop step next := by
  refine PFun.fix_fwd_eq ?_
  rw [goesOn]
  exact Part.mem_some _

theorem liftM_pure_bind {γ : Type} (result : β) (next : β → Walk γ) :
    (liftM (pure result : Except Fault β) >>= next : Walk γ) = next result :=
  pure_bind result next

theorem liftM_throw_bind {γ : Type} (fault : Fault) (next : β → Walk γ) :
    (liftM (throw fault : Except Fault β) >>= next : Walk γ) =
      liftM (throw fault : Except Fault γ) :=
  Part.bind_some (Except.error fault) (ExceptT.bindCont next)

end Loop

/-! ## Linked tables -/

/-- A value and the index of the next cell in its chain, where zero ends the chain. -/
structure LinkedCell (α : Type) where
  value : α
  next : Nat

structure Linked (α : Type) where
  /-- All cells by index; cell zero is no cell of the table. -/
  cells : Array (LinkedCell α)
  /-- The index of the first cell in the chain of each bucket, or zero. -/
  heads : Array Nat
  /-- The bits of a hash that select the bucket. -/
  mask : UInt64
  /-- The number of cells in chains. -/
  hashed : Nat

namespace Linked

variable {α : Type}

def maskOf (bucketCount : Nat) : UInt64 :=
  .ofNat (bucketCount - 1)

def empty [Inhabited α] (bits : Nat) : Linked α where
  cells := #[⟨default, 0⟩]
  heads := Array.replicate (1 <<< min bits maxInitialBucketBits) 0
  mask := maskOf (1 <<< min bits maxInitialBucketBits)
  hashed := 0

/-! ## Cells and heads -/

def cellAt (table : Linked α) (index : Nat) : Except Fault (LinkedCell α) :=
  if index = 0 then throw .zeroIndex
  else
    match table.cells[index]? with
    | some cell => return cell
    | none => throw (.indexOutOfBounds table.cells.size index)

def headAt (table : Linked α) (bucket : Nat) : Except Fault Nat :=
  match table.heads[bucket]? with
  | some head => return head
  | none => throw (.indexOutOfBounds table.heads.size bucket)

def setNext (table : Linked α) (index next : Nat) : Except Fault (Linked α) := do
  let cell ← table.cellAt index
  return { table with cells := table.cells.setIfInBounds index { cell with next } }

def setHead (table : Linked α) (bucket index : Nat) : Except Fault (Linked α) := do
  let _ ← table.headAt bucket
  return { table with heads := table.heads.setIfInBounds bucket index }

def push (table : Linked α) (value : α) : Linked α :=
  { table with cells := table.cells.push ⟨value, 0⟩ }

def add (table : Linked α) (value : α) (limit? : Option Nat := none) :
    Except Fault (Nat × Linked α) :=
  if limit?.any (· < table.cells.size) then throw .storageFull
  else return (table.cells.size, table.push value)

/-! ## Loops along chains -/

def collectStep (table : Linked α) (state : List Nat × Nat) :
    Except Fault (List Nat ⊕ List Nat × Nat) := do
  if state.2 = 0 then
    return .inl state.1
  else
    let cell ← table.cellAt state.2
    return .inr (state.1 ++ [state.2], cell.next)

def collect (table : Linked α) (head : Nat) : Walk (List Nat) :=
  loop table.collectStep ([], head)

/-- Where the search for a value along a chain ends. -/
inductive Sought where
  /-- At a cell with an equal value. -/
  | found (index : Nat)
  /-- At the last cell of the chain. -/
  | last (index : Nat)

/-- Compare a value with that of a cell and go on to the next, if there is one. -/
def seekStep [BEq α] (table : Linked α) (value : α) (index : Nat) :
    Except Fault (Sought ⊕ Nat) := do
  let cell ← table.cellAt index
  if value == cell.value then
    return .inl (.found index)
  else if cell.next = 0 then
    return .inl (.last index)
  else
    return .inr cell.next

def seek [BEq α] (table : Linked α) (value : α) (index : Nat) : Walk Sought :=
  loop (table.seekStep value) index

section Index

variable [Hashable α]

def bucketOf (table : Linked α) (value : α) : Nat :=
  (hash value &&& table.mask).toNat

/-- Put a cell at the front of the chain of its value, whatever followed it before. -/
def relink (table : Linked α) (index : Nat) : Except Fault (Linked α) := do
  let cell ← table.cellAt index
  let bucket := table.bucketOf cell.value
  let head ← table.headAt bucket
  let table ← table.setNext index head
  table.setHead bucket index

def rehash (table : Linked α) (bucketCount : Nat) (indices : List Nat) :
    Except Fault (Linked α) :=
  indices.foldlM relink
    { table with heads := Array.replicate bucketCount 0, mask := maskOf bucketCount }

def grow (table : Linked α) : Walk (Linked α) := do
  if table.hashed ≤ 2 * table.heads.size ∨ maxBuckets ≤ table.heads.size then
    return table
  else
    let chains ← table.heads.toList.mapM table.collect
    table.rehash (2 * table.heads.size) chains.flatten

variable [BEq α]

def put (table : Linked α) (value : α) (limit? : Option Nat := none) :
    Walk (Nat × Linked α) := do
  let bucket := table.bucketOf value
  let head ← table.headAt bucket
  if head = 0 then
    let ⟨index, table⟩ ← table.add value limit?
    let table ← table.setHead bucket index
    let table ← grow { table with hashed := table.hashed + 1 }
    return (index, table)
  else
    match ← table.seek value head with
    | .found index => return (index, table)
    | .last last =>
        let ⟨index, table⟩ ← table.add value limit?
        let table ← table.setNext last index
        let table ← grow { table with hashed := table.hashed + 1 }
        return (index, table)

def perform (table : Linked α) (call : Call α) (limit? : Option Nat := none) :
    Walk (Nat × Linked α) :=
  match call with
  | .add value => table.add value limit?
  | .put value => table.put value limit?

def serve (table : Linked α) : List (Call α) → Walk (List Nat × Linked α)
  | [] => return ([], table)
  | call :: rest => do
      let ⟨index, next⟩ ← table.perform call
      let ⟨indices, last⟩ ← next.serve rest
      return (index :: indices, last)

end Index

/-! ## Paths -/

theorem cellAt_index {table : Linked α} {ref : Ref} {cell : LinkedCell α}
    (stored : table.cells[ref.index]? = some cell) : table.cellAt ref.index = pure cell := by
  rw [cellAt, if_neg ref.index_ne_zero, stored]

theorem getElem?_push_of_some {cells : Array (LinkedCell α)} {index : Nat} {cell : LinkedCell α}
    (stored : cells[index]? = some cell) (new : LinkedCell α) :
    (cells.push new)[index]? = some cell := by
  have inside := (Array.getElem?_eq_some_iff.mp stored).1
  rwa [Array.getElem?_push, if_neg (Nat.ne_of_lt inside)]

/-- From the index, links lead through the cells of the list and then to zero. -/
def Path (cells : Array (LinkedCell α)) : Nat → List Ref → Prop
  | index, [] => index = 0
  | index, ref :: rest =>
      index = ref.index ∧ ∃ cell, cells[ref.index]? = some cell ∧ Path cells cell.next rest

namespace Path

variable {cells other : Array (LinkedCell α)} {index : Nat} {chain : List Ref}

/-- A path depends on its own cells only. -/
theorem congr (path : Path cells index chain)
    (same : ∀ ref ∈ chain, other[ref.index]? = cells[ref.index]?) : Path other index chain := by
  induction chain generalizing index with
  | nil => exact path
  | cons ref rest ih =>
      obtain ⟨rfl, cell, stored, further⟩ := path
      have sameRest := fun later inside => same later (List.mem_cons_of_mem ref inside)
      exact ⟨rfl, cell, (same ref List.mem_cons_self).trans stored, ih further sameRest⟩

theorem eq_nil (path : Path cells 0 chain) : chain = [] := by
  cases chain with
  | nil => rfl
  | cons ref rest => exact absurd path.1.symm ref.index_ne_zero

theorem stored (path : Path cells index chain) {ref : Ref} (inside : ref ∈ chain) :
    ∃ cell, cells[ref.index]? = some cell := by
  induction chain generalizing index with
  | nil => cases inside
  | cons first rest ih =>
      obtain ⟨_, cell, stored, further⟩ := path
      rcases List.mem_cons.mp inside with rfl | later
      · exact ⟨cell, stored⟩
      · exact ih further later

theorem push (path : Path cells index chain) (cell : LinkedCell α) :
    Path (cells.push cell) index chain := by
  refine path.congr fun ref inside => ?_
  obtain ⟨_, stored⟩ := path.stored inside
  rw [getElem?_push_of_some stored, stored]

/-- A path goes on to a new cell once its last cell is followed by that cell. -/
theorem concat {front : List Ref} {last new : Ref} {lastValue value : α}
    (path : Path cells index (front ++ [last]))
    (same : ∀ ref ∈ front, other[ref.index]? = cells[ref.index]?)
    (changed : other[last.index]? = some ⟨lastValue, new.index⟩)
    (added : other[new.index]? = some ⟨value, 0⟩) :
    Path other index (front ++ [last] ++ [new]) := by
  induction front generalizing index with
  | nil => exact ⟨path.1, _, changed, rfl, _, added, rfl⟩
  | cons ref rest ih =>
      obtain ⟨rfl, cell, storedRef, further⟩ := path
      have sameRest := fun later inside => same later (List.mem_cons_of_mem ref inside)
      exact ⟨rfl, cell, (same ref List.mem_cons_self).trans storedRef, ih further sameRest⟩

/-- The link of a cell on a path names the next cell of the path. -/
theorem next_eq (path : Path cells index chain) {ref : Ref} {cell : LinkedCell α}
    (inside : ref ∈ chain) (stored : cells[ref.index]? = some cell) :
    cell.next = ((chain.dropWhile (· ≠ ref))[1]?).elim 0 Ref.index := by
  induction chain generalizing index with
  | nil => cases inside
  | cons first rest ih =>
      obtain ⟨_, firstCell, storedFirst, further⟩ := path
      by_cases here : first = ref
      · subst here
        obtain rfl : firstCell = cell := Option.some.inj (storedFirst.symm.trans stored)
        rw [List.dropWhile_cons_of_neg (by simp)]
        cases rest with
        | nil => exact further
        | cons second _ => exact further.1
      · have later := (List.mem_cons.mp inside).resolve_left (Ne.symm here)
        rw [List.dropWhile_cons_of_pos (by simpa using here)]
        exact ih further later

end Path

/-- Going on along a path ends, and all its cells are noted. -/
theorem loop_collectStep {table : Linked α} {index : Nat} {chain : List Ref}
    (path : Path table.cells index chain) (met : List Nat) :
    loop table.collectStep (met, index) = pure (met ++ chain.map Ref.index) := by
  induction chain generalizing index met with
  | nil =>
      obtain rfl : index = 0 := path
      rw [List.map_nil, List.append_nil]
      exact loop_of_result rfl
  | cons ref rest ih =>
      obtain ⟨rfl, cell, stored, further⟩ := path
      have goesOn : table.collectStep (met, ref.index) =
          pure (.inr (met ++ [ref.index], cell.next)) := by
        rw [collectStep, if_neg ref.index_ne_zero, cellAt_index stored, pure_bind]
      rw [loop_of_next goesOn, ih further, List.append_assoc]
      rfl

theorem collect_of_path {table : Linked α} {index : Nat} {chain : List Ref}
    (path : Path table.cells index chain) :
    table.collect index = pure (chain.map Ref.index) :=
  loop_collectStep path []

section Seek

variable [BEq α]

def isHit (cells : Array (LinkedCell α)) (value : α) (ref : Ref) : Bool :=
  cells[ref.index]?.any (value == ·.value)

theorem isHit_of_get? {cells : Array (LinkedCell α)} {ref : Ref} {cell : LinkedCell α}
    (stored : cells[ref.index]? = some cell) (value : α) :
    isHit cells value ref = (value == cell.value) := by
  rw [isHit, stored, Option.any_some]

/-- A search along a path ends at the first cell with an equal value. -/
theorem seek_of_some {table : Linked α} {value : α} {index : Nat} {chain : List Ref} {ref : Ref}
    (path : Path table.cells index chain)
    (found : chain.find? (isHit table.cells value) = some ref) :
    table.seek value index = pure (.found ref.index) := by
  induction chain generalizing index with
  | nil => cases found
  | cons first rest ih =>
      obtain ⟨rfl, cell, stored, further⟩ := path
      rw [List.find?_cons, isHit_of_get? stored] at found
      cases equal : value == cell.value with
      | true =>
          rw [equal] at found
          cases found
          refine loop_of_result ?_
          rw [seekStep, cellAt_index stored, pure_bind, if_pos equal]
      | false =>
          rw [equal] at found
          have more : cell.next ≠ 0 := by
            intro zero
            rw [zero] at further
            rw [further.eq_nil] at found
            cases found
          refine (loop_of_next ?_).trans (ih further found)
          rw [seekStep, cellAt_index stored, pure_bind, equal, if_neg Bool.false_ne_true,
            if_neg more]

/-- A search along a path without an equal value ends at the last cell. -/
theorem seek_of_none {table : Linked α} {value : α} {index : Nat} {front : List Ref} {last : Ref}
    (path : Path table.cells index (front ++ [last]))
    (missing : (front ++ [last]).find? (isHit table.cells value) = none) :
    table.seek value index = pure (.last last.index) := by
  induction front generalizing index with
  | nil =>
      obtain ⟨rfl, cell, stored, further⟩ := path
      have differs := List.find?_eq_none.mp missing last List.mem_cons_self
      rw [isHit_of_get? stored] at differs
      have done : cell.next = 0 := further
      refine loop_of_result ?_
      rw [seekStep, cellAt_index stored, pure_bind, if_neg differs, if_pos done]
  | cons first rest ih =>
      obtain ⟨rfl, cell, stored, further⟩ := path
      have differs := List.find?_eq_none.mp missing first List.mem_cons_self
      rw [isHit_of_get? stored] at differs
      have more : cell.next ≠ 0 := by
        intro zero
        rw [zero] at further
        exact List.append_ne_nil_of_right_ne_nil rest (List.cons_ne_nil last []) further.eq_nil
      have missingRest : (rest ++ [last]).find? (isHit table.cells value) = none :=
        List.find?_eq_none.mpr fun ref inside =>
          List.find?_eq_none.mp missing ref (List.mem_cons_of_mem first inside)
      refine (loop_of_next ?_).trans (ih further missingRest)
      rw [seekStep, cellAt_index stored, pure_bind, if_neg differs, if_neg more]

end Seek

end Linked

end DecisionDiagram.UniqueTable
