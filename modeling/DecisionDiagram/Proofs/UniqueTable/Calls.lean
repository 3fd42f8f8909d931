import DecisionDiagram.Proofs.UniqueTable.Index

/-!
# Calls of a unique table

To its callers a unique table is a plain list with linear search. The list keeps
the calls that made a cell, in the order of the cells. A value that is put has
the place of the first put of an equal value in the list; all other calls make a
cell at the end. Buckets, chains and their growth never show in an answer.
-/

namespace DecisionDiagram.UniqueTable

variable {α β σ : Type}

inductive Call (α : Type) where
  | add (value : α)
  | put (value : α)
  deriving DecidableEq, Repr

namespace Call

def value : Call α → α
  | add value => value
  | put value => value

def isPut : Call α → Bool
  | add _ => false
  | put _ => true

def puts [BEq α] (value : α) : Call α → Bool
  | add _ => false
  | put other => value == other

end Call

def serve (step : σ → Call α → β × σ) : σ → List (Call α) → List β × σ
  | state, [] => ([], state)
  | state, call :: rest =>
      let ⟨answer, next⟩ := step state call
      let ⟨answers, last⟩ := serve step next rest
      (answer :: answers, last)

theorem serve_cons (step : σ → Call α → β × σ) (state : σ) (call : Call α)
    (rest : List (Call α)) :
    serve step state (call :: rest) =
      ((step state call).1 :: (serve step (step state call).2 rest).1,
        (serve step (step state call).2 rest).2) := rfl

/-- What every call keeps is kept by any number of them. -/
theorem serve_kept {P : σ → Prop} {step : σ → Call α → β × σ}
    (kept : ∀ state call, P state → P (step state call).2) {state : σ} (now : P state)
    (calls : List (Call α)) : P (serve step state calls).2 := by
  induction calls generalizing state with
  | nil => exact now
  | cons call rest ih => exact ih (kept state call now)

/-- A call of a list of the calls that made a cell each; cells are counted from one. -/
def search [BEq α] (made : List (Call α)) (call : Call α) : Nat × List (Call α) :=
  match call with
  | .add _ => (made.length + 1, made ++ [call])
  | .put value =>
      match made.findIdx? (Call.puts value) with
      | some place => (place + 1, made)
      | none => (made.length + 1, made ++ [call])

def perform [Hashable α] [BEq α] (table : UniqueTable α) : Call α → Ref × UniqueTable α
  | .add value => table.add value
  | .put value => table.put value

/-! ## The list -/

theorem exists_put_concat {made : List (Call α)} {call : Call α} {place : Nat} :
    (∃ value, (made ++ [call])[place]? = some (.put value)) ↔
      (∃ value, made[place]? = some (.put value)) ∨ call.isPut ∧ place = made.length := by
  rcases Nat.lt_trichotomy place made.length with before | rfl | after
  · rw [List.getElem?_append_left before]
    simp [Nat.ne_of_lt before]
  · rw [List.getElem?_concat_length]
    cases call <;> simp [Call.isPut]
  · have beyond : made.length ≤ place := Nat.le_of_lt after
    rw [List.getElem?_append_right beyond]
    simp [beyond, Nat.ne_of_gt after, Nat.sub_ne_zero_of_lt after]

section List

variable [BEq α] {made : List (Call α)}

theorem search_put_of_some {value : α} {place : Nat}
    (found : made.findIdx? (Call.puts value) = some place) :
    search made (.put value) = (place + 1, made) := by
  simp only [search, found]

theorem search_put_of_none {value : α} (missing : made.findIdx? (Call.puts value) = none) :
    search made (.put value) = (made.length + 1, made ++ [.put value]) := by
  simp only [search, missing]

theorem exists_put_of_findIdx? {value : α} {place : Nat}
    (found : made.findIdx? (Call.puts value) = some place) :
    ∃ other, made[place]? = some (.put other) ∧ value == other := by
  obtain ⟨inside, puts, _⟩ := List.findIdx?_eq_some_iff_getElem.mp found
  cases entry : made[place] with
  | add other => simp [entry, Call.puts] at puts
  | put other =>
      rw [entry] at puts
      exact ⟨other, List.getElem?_eq_some_iff.mpr ⟨inside, entry⟩, puts⟩

/-- A call has an earlier place in the list, or it adds itself at the end. -/
theorem search_cases (made : List (Call α)) (call : Call α) :
    (∃ place < made.length, search made call = (place + 1, made)) ∨
      search made call = (made.length + 1, made ++ [call]) := by
  cases call with
  | add value => exact Or.inr rfl
  | put value =>
      cases found : made.findIdx? (Call.puts value) with
      | some place =>
          obtain ⟨_, entry, _⟩ := exists_put_of_findIdx? found
          have before := (List.getElem?_eq_some_iff.mp entry).1
          exact Or.inl ⟨place, before, search_put_of_some found⟩
      | none => exact Or.inr (search_put_of_none found)

theorem search_snd (made : List (Call α)) (call : Call α) :
    (search made call).2 = made ∨ (search made call).2 = made ++ [call] := by
  rcases search_cases made call with ⟨_, _, found⟩ | missing
  · exact Or.inl (congrArg Prod.snd found)
  · exact Or.inr (congrArg Prod.snd missing)

theorem getElem?_search {made : List (Call α)} {place : Nat} {entry : Call α}
    (stored : made[place]? = some entry) (call : Call α) :
    (search made call).2[place]? = some entry := by
  rcases search_snd made call with same | added
  · rwa [same]
  · rw [added, List.getElem?_append_left (List.getElem?_eq_some_iff.mp stored).1, stored]

theorem getElem?_serve_search {made : List (Call α)} {place : Nat} {entry : Call α}
    (stored : made[place]? = some entry) (calls : List (Call α)) :
    (serve search made calls).2[place]? = some entry :=
  serve_kept (P := fun made : List (Call α) => made[place]? = some entry)
    (fun _ call held => getElem?_search held call) stored calls

end List

/-! ## The table -/

/-- The call is answered by a new last cell with the value. -/
def Appends (table : UniqueTable α) (value : α) (result : Ref × UniqueTable α) : Prop :=
  result.1.index = table.size + 1 ∧ result.2.cells = table.cells.push value

section Table

variable [Hashable α] [BEq α]

theorem put_of_some {table : UniqueTable α} {value : α} {ref : Ref}
    (found : table.find? value = some ref) : table.put value = (ref, table) := by
  rw [put, found]

theorem put_of_none {table : UniqueTable α} {value : α} (missing : table.find? value = none) :
    table.put value = (⟨table.size⟩, table.insertNew value) := by
  rw [put, missing]

theorem appends_put_of_none {table : UniqueTable α} {value : α}
    (missing : table.find? value = none) : table.Appends value (table.put value) := by
  rw [put_of_none missing]
  exact ⟨rfl, cells_insertNew table value⟩

theorem cells_perform (table : UniqueTable α) (call : Call α) :
    (perform table call).2.cells = table.cells ∨
      (perform table call).2.cells = table.cells.push call.value := by
  cases call with
  | add value => exact Or.inr rfl
  | put value => exact (table.cells_put value).imp_right And.right

/-- The table stores the values of the calls in the list, and its index knows those put. -/
structure Lists (table : UniqueTable α) (made : List (Call α)) : Prop where
  contents : table.cells.toList = made.map Call.value
  index : table.Indexes fun ref => ∃ value, made[ref.slot]? = some (.put value)

namespace Lists

variable {table : UniqueTable α} {made : List (Call α)}

theorem empty (bits : Nat) : (UniqueTable.empty bits : UniqueTable α).Lists [] where
  contents := rfl
  index := (Indexes.empty bits).congr fun ref => by simp

theorem size (lists : table.Lists made) : table.size = made.length := by
  rw [UniqueTable.size, ← Array.length_toList, lists.contents, List.length_map]

theorem get? (lists : table.Lists made) (ref : Ref) :
    table.get? ref = made[ref.slot]?.map Call.value := by
  rw [UniqueTable.get?, ← Array.getElem?_toList, lists.contents, List.getElem?_map]

theorem get?_of_entry (lists : table.Lists made) {ref : Ref} {call : Call α}
    (entry : made[ref.slot]? = some call) : table.get? ref = some call.value := by
  rw [lists.get?, entry]
  rfl

/-- The chain of a bucket lists the cells that were put there. -/
theorem mem_chain_iff (lists : table.Lists made) {bucket : Nat} {ref : Ref} :
    ref ∈ table.chain bucket ↔
      ∃ value, made[ref.slot]? = some (.put value) ∧ table.bucketOf value = bucket := by
  rw [lists.index.mem_chain]
  have there {value : α} (entry : made[ref.slot]? = some (.put value)) :
      table.inBucket bucket ref = (table.bucketOf value == bucket) :=
    inBucket_of_get? (lists.get?_of_entry entry) bucket
  constructor
  · rintro ⟨⟨value, entry⟩, inside⟩
    rw [there entry, beq_iff_eq] at inside
    exact ⟨value, entry, inside⟩
  · rintro ⟨value, entry, inside⟩
    exact ⟨⟨value, entry⟩, (there entry).trans (beq_iff_eq.mpr inside)⟩

/-- A call makes a last cell in the table and in the list, which is known if its value is put. -/
theorem push (lists : table.Lists made) {later : UniqueTable α} {call : Call α}
    (cells : later.cells = table.cells.push call.value)
    (index : later.Indexes fun ref =>
      (∃ value, made[ref.slot]? = some (.put value)) ∨ call.isPut ∧ ref = ⟨table.size⟩) :
    later.Lists (made ++ [call]) where
  contents := by
    rw [cells, Array.toList_push, lists.contents, List.map_append]
    rfl
  index := by
    refine index.congr fun ref => ?_
    have last : ref = ⟨table.size⟩ ↔ ref.slot = made.length := by
      rw [← lists.size]
      exact ⟨congrArg Ref.slot, congrArg Ref.mk⟩
    rw [last, exists_put_concat]

variable [EquivBEq α] [LawfulHashable α]

theorem put_of_entry (lists : table.Lists made) {value other : α} {place : Nat}
    (entry : made[place]? = some (.put other)) (equal : value == other) :
    table.put value = (⟨place⟩, table) := by
  refine put_of_some ((lists.index.find?_eq_some_iff value ⟨place⟩).mpr ?_)
  exact ⟨⟨other, entry⟩, other, lists.get?_of_entry entry, equal⟩

theorem find?_of_none (lists : table.Lists made) {value : α}
    (missing : ∀ other, .put other ∈ made → ¬ value == other) : table.find? value = none := by
  refine (lists.index.find?_eq_none_iff value).mpr ?_
  rintro ref content ⟨other, entry⟩ stored equal
  obtain rfl : other = content := Option.some.inj ((lists.get?_of_entry entry).symm.trans stored)
  exact missing other (List.mem_of_getElem? entry) equal

theorem find?_of_findIdx? (lists : table.Lists made) {value : α}
    (missing : made.findIdx? (Call.puts value) = none) : table.find? value = none := by
  refine lists.find?_of_none fun other inside equal => ?_
  have differs := List.findIdx?_eq_none_iff.mp missing _ inside
  simp [Call.puts, equal] at differs

/-- One call of the table and of the list. -/
theorem perform (lists : table.Lists made) (call : Call α) :
    (UniqueTable.perform table call).1.index = (search made call).1 ∧
      (UniqueTable.perform table call).2.Lists (search made call).2 := by
  cases call with
  | add value =>
      refine ⟨congrArg Nat.succ lists.size, lists.push rfl ?_⟩
      exact (lists.index.add value).congr fun ref => by simp [Call.isPut]
  | put value =>
      cases found : made.findIdx? (Call.puts value) with
      | some place =>
          obtain ⟨other, entry, equal⟩ := exists_put_of_findIdx? found
          rw [UniqueTable.perform, lists.put_of_entry entry equal, search_put_of_some found]
          exact ⟨rfl, lists⟩
      | none =>
          have missing := lists.find?_of_findIdx? found
          rw [UniqueTable.perform, put_of_none missing, search_put_of_none found]
          refine ⟨congrArg Nat.succ lists.size, lists.push (cells_insertNew table value) ?_⟩
          exact (lists.index.insertNew missing).congr fun ref => by simp [Call.isPut]

/-- Any number of calls of the table and of the list. -/
theorem serve (lists : table.Lists made) (calls : List (Call α)) :
    (UniqueTable.serve UniqueTable.perform table calls).1.map Ref.index =
        (UniqueTable.serve search made calls).1 ∧
      (UniqueTable.serve UniqueTable.perform table calls).2.Lists
        (UniqueTable.serve search made calls).2 := by
  induction calls generalizing table made with
  | nil => exact ⟨rfl, lists⟩
  | cons call rest ih =>
      obtain ⟨answer, next⟩ := lists.perform call
      obtain ⟨answers, last⟩ := ih next
      exact ⟨List.cons_eq_cons.mpr ⟨answer, answers⟩, last⟩

end Lists

end Table

/-- Three different puts overfill the only bucket, and one of their values was added before. -/
def crowding : List (Call Nat) :=
  [.put 5, .add 7, .put 7, .put 6, .put 5]

end DecisionDiagram.UniqueTable
