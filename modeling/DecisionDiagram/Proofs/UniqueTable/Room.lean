import DecisionDiagram.Proofs.UniqueTable.Calls

/-!
# Unique tables that run out of references

A call that needs a cell when all references have one is refused, and the table
stays as it is. To its callers such a table is a plain list with linear search
that takes only so many entries. It refuses nothing while there are references,
and what it refused it might as well not have been asked.
-/

namespace DecisionDiagram.UniqueTable

variable {α : Type}

/-- A call of a list with linear search that takes `limit` entries at most. -/
def searchWithin [BEq α] (limit : Nat) (made : List (Call α)) (call : Call α) :
    Except Fault Nat × List (Call α) :=
  let ⟨index, later⟩ := search made call
  if later.length ≤ limit then (.ok index, later) else (.error .storageFull, made)

def performWithin [Hashable α] [BEq α] (limit : Nat) (table : UniqueTable α) (call : Call α) :
    Except Fault Ref × UniqueTable α :=
  let result :=
    match call with
    | .add value => table.addWithin limit value
    | .put value => table.putWithin limit value
  match result with
  | .ok (ref, later) => (.ok ref, later)
  | .error fault => (.error fault, table)

section List

variable [BEq α] {limit : Nat} {made : List (Call α)}

end List

/-! ## The table -/

section Table

variable {limit : Nat} {table : UniqueTable α}

theorem checkRoom_of_lt (room : table.size < limit) : table.checkRoom limit = .ok () := by
  rw [checkRoom, if_pos room]

theorem checkRoom_of_le (full : limit ≤ table.size) :
    table.checkRoom limit = .error .storageFull := by
  rw [checkRoom, if_neg (Nat.not_lt.mpr full)]

variable [Hashable α] [BEq α]

theorem putWithin_of_some {value : α} {ref : Ref} (found : table.find? value = some ref) :
    table.putWithin limit value = .ok (ref, table) := by
  rw [putWithin, checkPut, found, put_of_some found]
  rfl

theorem putWithin_of_none {value : α} (missing : table.find? value = none) :
    table.putWithin limit value = (do
      table.checkRoom limit
      return table.put value) := by
  rw [putWithin, checkPut, missing]

theorem performWithin_of_room (room : table.size < limit) (call : Call α) :
    performWithin limit table call = (.ok (perform table call).1, (perform table call).2) := by
  cases call with
  | add value =>
      rw [performWithin, addWithin, checkRoom_of_lt room]
      rfl
  | put value =>
      have allowed : table.checkPut limit value = .ok () := by
        unfold checkPut
        split
        · rfl
        · exact checkRoom_of_lt room
      rw [performWithin, putWithin, allowed]
      rfl

/-- A call is refused if it would bring one cell too many. -/
theorem performWithin_eq (fits : table.size ≤ limit) (call : Call α) :
    performWithin limit table call =
      if (perform table call).2.size ≤ limit then
        (.ok (perform table call).1, (perform table call).2)
      else (.error .storageFull, table) := by
  rcases Nat.lt_or_eq_of_le fits with room | full
  · rw [performWithin_of_room room, if_pos]
    rcases cells_perform table call with same | pushed
    · rwa [size, same]
    · rwa [size, pushed, Array.size_push]
  · have beyond {later : UniqueTable α} {value : α} (pushed : later.cells = table.cells.push value) :
        ¬ later.size ≤ limit := by
      rw [size, pushed, Array.size_push, ← full]
      exact Nat.not_succ_le_self _
    cases call with
    | add value =>
        rw [if_neg (beyond rfl), performWithin, addWithin, checkRoom_of_le (Nat.le_of_eq full.symm)]
        rfl
    | put value =>
        cases found : table.find? value with
        | some ref =>
            rw [performWithin, putWithin_of_some found, perform, put_of_some found, if_pos fits]
        | none =>
            have pushed : (perform table (.put value)).2.cells = table.cells.push value :=
              (appends_put_of_none found).2
            rw [if_neg (beyond pushed), performWithin, putWithin_of_none found,
              checkRoom_of_le (Nat.le_of_eq full.symm)]
            rfl

theorem size_performWithin_le (fits : table.size ≤ limit) (call : Call α) :
    (performWithin limit table call).2.size ≤ limit := by
  rw [performWithin_eq fits]
  split
  next room => exact room
  next => exact fits

/-- Calls that are refused might as well not have been made. -/
theorem exists_accepted (fits : table.size ≤ limit) (calls : List (Call α)) :
    ∃ accepted : List (Call α), accepted.Sublist calls ∧
      serve perform table accepted =
        ((serve (performWithin limit) table calls).1.filterMap Except.toOption,
          (serve (performWithin limit) table calls).2) := by
  induction calls generalizing table with
  | nil => exact ⟨[], .slnil, rfl⟩
  | cons call rest ih =>
      obtain ⟨accepted, sublist, served⟩ := ih (size_performWithin_le fits call)
      rw [serve_cons]
      by_cases room : (perform table call).2.size ≤ limit
      · rw [performWithin_eq fits, if_pos room] at served ⊢
        refine ⟨call :: accepted, sublist.cons_cons call, ?_⟩
        rw [serve_cons, served]
        rfl
      · rw [performWithin_eq fits, if_neg room] at served ⊢
        exact ⟨accepted, sublist.cons call, served⟩

namespace Lists

variable {made : List (Call α)} [EquivBEq α] [LawfulHashable α]

/-- One call of the table and of the list. -/
theorem performWithin (lists : table.Lists made) (fits : table.size ≤ limit) (call : Call α) :
    (UniqueTable.performWithin limit table call).1.map Ref.index =
        (searchWithin limit made call).1 ∧
      (UniqueTable.performWithin limit table call).2.Lists (searchWithin limit made call).2 := by
  obtain ⟨answer, next⟩ := lists.perform call
  rw [performWithin_eq fits, searchWithin]
  dsimp only
  rw [next.size]
  split
  · exact ⟨congrArg Except.ok answer, next⟩
  · exact ⟨rfl, lists⟩

end Lists

end Table

end DecisionDiagram.UniqueTable
