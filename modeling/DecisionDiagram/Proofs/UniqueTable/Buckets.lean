import Mathlib.Data.List.TakeWhile
import DecisionDiagram.Proofs.UniqueTable.Mirror

/-!
# The buckets of a linked table

After any calls of a linked table, following the links from a head leads to zero,
through the cells that were put into that bucket and through none twice. Cells
that were merely added lie outside. So no loop of a call goes round for ever, no
call reads outside the table, and what can be seen of the cells and buckets is
what the table without links shows.
-/

namespace DecisionDiagram.UniqueTable

variable {α : Type}

def maker (calls : List (Call α)) (indices : List Nat) (index : Nat) : Option (Call α) :=
  (indices.zip calls).lookup index

/-! ## The makers of the cells -/

section Maker

variable [BEq α]

theorem maker_zero (made calls : List (Call α)) :
    maker calls (serve search made calls).1 0 = none := by
  induction calls generalizing made with
  | nil => rfl
  | cons call rest ih =>
      have ne : (0 == (search made call).1) = false := by
        rcases search_cases made call with ⟨_, _, found⟩ | missing
        · rw [found]
          rfl
        · rw [missing]
          rfl
      rw [maker, serve, List.zip_cons_cons, List.lookup_cons, ne]
      exact ih _

/-- A new place is taken by the call that is the first to bring its index. -/
theorem maker_succ {made : List (Call α)} {place : Nat} (new : made.length ≤ place)
    (calls : List (Call α)) :
    maker calls (serve search made calls).1 (place + 1) =
      (serve search made calls).2[place]? := by
  induction calls generalizing made with
  | nil => exact (List.getElem?_eq_none new).symm
  | cons call rest ih =>
      rw [maker, serve, List.zip_cons_cons, List.lookup_cons]
      rcases search_cases made call with ⟨old, before, found⟩ | missing
      -- An answer that is in the list already is no answer for a new place.
      · have ne : (place + 1 == old + 1) = false := beq_false_of_ne (by omega)
        rw [found, ne]
        exact ih new
      · rw [missing]
        by_cases here : place = made.length
        · subst here
          rw [BEq.rfl]
          exact (getElem?_serve_search List.getElem?_concat_length rest).symm
        · have ne : (place + 1 == made.length + 1) = false := beq_false_of_ne (by omega)
          have later : (made ++ [call]).length ≤ place := by
            rw [List.length_append, List.length_singleton]
            omega
          rw [ne]
          exact ih later

end Maker

theorem countP_range_getElem? {β : Type} (items : List β) (holds : β → Bool) :
    (List.range items.length).countP (fun place => items[place]?.any holds) =
      items.countP holds := by
  have places : (List.range items.length).map (items[·]?) = items.map some := by
    refine List.ext_getElem (by simp) fun place _ inside => ?_
    simp at inside
    simp [inside]
  calc (List.range items.length).countP (fun place => items[place]?.any holds)
      = ((List.range items.length).map (items[·]?)).countP (·.any holds) := by
        rw [List.countP_map]
        rfl
    _ = items.countP holds := by
        rw [places, List.countP_map]
        rfl

namespace Linked

/-! ## Cells and buckets -/

/-- Cells and buckets show what the other table shows, and the links lead along its chains. -/
structure Agrees [Hashable α] (linked : Linked α) (table : UniqueTable α) : Prop where
  value : ∀ index, LinkedCell.value <$> linked.cellAt index = table.valueAt index
  next : ∀ index, LinkedCell.next <$> linked.cellAt index = table.nextAt index
  chains : linked.heads.toList.mapM linked.collect =
    pure (table.buckets.toList.map (List.map Ref.index))
  heads_size : linked.heads.size = table.bucketCount
  hashed_eq : linked.hashed = table.hashed

/-- The links of a table whose cells were made by the given calls. -/
structure WellLinked [Hashable α] (linked : Linked α) (made : Nat → Option (Call α)) :
    Prop where
  /-- The links from a head lead to zero, through the cells put into the bucket, each once. -/
  chain : ∀ bucket head, linked.heads[bucket]? = some head →
    ∃ indices, linked.collect head = pure indices ∧ indices.Nodup ∧
      ∀ index, index ∈ indices ↔ ∃ value, made index = some (.put value) ∧
        (hash value).toNat % linked.heads.size = bucket
  /-- All cells but cell zero were made by a call. -/
  made_zero : made 0 = none
  made_succ : ∀ place, linked.cells[place + 1]?.map LinkedCell.value =
    (made (place + 1)).map Call.value
  /-- A cell that was merely added is linked to no other. -/
  added : ∀ index value, made index = some (.add value) → linked.cells[index]? = some ⟨value, 0⟩
  /-- The counter has the number of cells that were put. -/
  hashed_eq : linked.hashed =
    (List.range linked.cells.size).countP fun index => (made index).any Call.isPut
  heads_size : linked.heads.size.isPowerOfTwo
  mask_eq : linked.mask.toNat = linked.heads.size - 1

section Index

variable [Hashable α] [BEq α] {linked : Linked α} {table : UniqueTable α}

/-- The link of a cell names the next cell in the chain of the other table, if there is one. -/
theorem Mirrors.next_eq (mirrors : linked.Mirrors table) {known : Ref → Prop}
    (index : table.Indexes known) {ref : Ref} {cell : LinkedCell α}
    (stored : linked.cells[ref.index]? = some cell) :
    cell.next = (table.next? ref).elim 0 Ref.index := by
  have content := mirrors.get?_of_cell stored
  have next : table.next? ref =
      ((table.chain (table.bucketOf cell.value)).dropWhile (· ≠ ref))[1]? := by
    rw [next?, content]
    rfl
  rw [next]
  by_cases inside : ref ∈ table.indexed
  · obtain ⟨head, first⟩ := mirrors.exists_head (bucketOf_lt index.bucketCount_pos cell.value)
    refine (mirrors.path _ head first).next_eq ?_ stored
    rw [index.mem_chain, inBucket_of_get? content, ← index.mem_indexed_iff]
    exact ⟨inside, BEq.rfl⟩
  · have outside : ref ∉ table.chain (table.bucketOf cell.value) := fun member =>
      inside (mem_indexed.mpr ⟨_, member⟩)
    have dropped : (table.chain (table.bucketOf cell.value)).dropWhile (· ≠ ref) = [] := by
      refine List.dropWhile_eq_nil_iff.mpr fun other member => ?_
      exact decide_eq_true fun same => outside (same ▸ member)
    rw [dropped, mirrors.next_eq_zero ref cell stored inside]
    rfl

omit [Hashable α] [BEq α] in
/-- An index is read in both tables, or it lies past the end of both. -/
theorem Shows.read (shows : linked.Shows table) (slot : Nat) :
    (∃ cell, linked.cells[(⟨slot⟩ : Ref).index]? = some cell ∧
      linked.cellAt (slot + 1) = pure cell ∧
      table.refAt (slot + 1) = pure ⟨slot⟩ ∧ table.get? ⟨slot⟩ = some cell.value) ∨
    linked.cellAt (slot + 1) = throw (.indexOutOfBounds (table.size + 1) (slot + 1)) ∧
      table.refAt (slot + 1) = .error (.indexOutOfBounds (table.size + 1) (slot + 1)) := by
  cases here : linked.cells[slot + 1]? with
  | some cell =>
      have stored : linked.cells[(⟨slot⟩ : Ref).index]? = some cell := here
      have content := shows.get?_of_cell stored
      have inside : slot < table.size := (Array.getElem?_eq_some_iff.mp content).1
      refine Or.inl ⟨cell, stored, cellAt_index stored, ?_, content⟩
      rw [refAt, if_pos inside]
      rfl
  | none =>
      have outside : ¬ slot < table.size := by
        have beyond := Array.getElem?_eq_none_iff.mp here
        rw [shows.size_eq] at beyond
        omega
      refine Or.inr ⟨?_, ?_⟩
      · rw [cellAt, if_neg (Nat.succ_ne_zero slot), here, shows.size_eq]
      · rw [refAt, if_neg outside]

theorem Mirrors.agrees (mirrors : linked.Mirrors table) {known : Ref → Prop}
    (index : table.Indexes known) : linked.Agrees table where
  value
    | 0 => rfl
    | slot + 1 => by
        rcases mirrors.read slot with ⟨cell, _, read, place, content⟩ | ⟨read, place⟩
        · have value : table.valueAt (slot + 1) = .ok cell.value := by
            simp only [valueAt, place, pure_bind, content]
            rfl
          rw [read, value]
          rfl
        · rw [read, valueAt, place]
          rfl
  next
    | 0 => rfl
    | slot + 1 => by
        rcases mirrors.read slot with ⟨cell, stored, read, place, _⟩ | ⟨read, place⟩
        · rw [read, nextAt, place]
          exact congrArg Except.ok (mirrors.next_eq index stored)
        · rw [read, nextAt, place]
          rfl
  chains := mapM_collect mirrors.paths
  heads_size := mirrors.heads_size
  hashed_eq := mirrors.hashed_eq

theorem Mirrors.wellLinked (mirrors : linked.Mirrors table) {made : List (Call α)}
    (tidy : table.Tidy made) {maker : Nat → Option (Call α)} (zero : maker 0 = none)
    (succ : ∀ place, maker (place + 1) = made[place]?) : linked.WellLinked maker where
  chain bucket head first := by
    have path := mirrors.path bucket head first
    have nodup := (tidy.simple bucket).map fun _ _ => Ref.index_inj
    refine ⟨_, collect_of_path path, nodup, fun index => ?_⟩
    rw [List.mem_map, mirrors.heads_size]
    constructor
    · rintro ⟨ref, member, rfl⟩
      obtain ⟨value, entry, there⟩ := tidy.mem_chain_iff.mp member
      exact ⟨value, (succ ref.slot).trans entry, there⟩
    · rintro ⟨value, isPut, there⟩
      cases index with
      | zero => cases zero.symm.trans isPut
      | succ place =>
          have entry := (succ place).symm.trans isPut
          exact ⟨⟨place⟩, tidy.mem_chain_iff.mpr ⟨value, entry, there⟩, rfl⟩
  made_zero := zero
  made_succ place := by
    rw [succ, ← tidy.get? ⟨place⟩]
    exact mirrors.value_eq ⟨place⟩
  added
    | 0, value, isAdded => by cases zero.symm.trans isAdded
    | place + 1, value, isAdded => by
        have entry := (succ place).symm.trans isAdded
        have content : table.get? ⟨place⟩ = some value := tidy.get?_of_entry entry
        obtain ⟨next, stored⟩ := mirrors.exists_cell content
        have outside : (⟨place⟩ : Ref) ∉ table.indexed := by
          rw [tidy.index.mem_indexed_iff]
          rintro ⟨_, isPut⟩
          cases entry.symm.trans isPut
        obtain rfl : next = 0 := mirrors.next_eq_zero ⟨place⟩ _ stored outside
        exact stored
  hashed_eq := by
    rw [mirrors.hashed_eq, tidy.hashed_eq, mirrors.size_eq, tidy.size, List.range_succ_eq_map,
      List.countP_cons, zero, List.countP_map]
    simp only [Function.comp_def, Nat.succ_eq_add_one, succ, countP_range_getElem?]
    rfl
  heads_size := mirrors.heads_size.symm ▸ tidy.isCount.1
  mask_eq := by
    rw [mirrors.mask_eq, mirrors.heads_size]
    exact tidy.isCount.toNat_mask

/--
Calls of a linked table return, with the indices that the table without links gives; so no loop in
them goes round for ever or leaves the table. In the end the links from every head lead to zero,
through the cells put into that bucket, each once, and no other cell lies in a chain. Equal values
have to hash equally.
-/
theorem serve_wellLinked [Inhabited α] [EquivBEq α] [LawfulHashable α] {bits : Nat}
    {calls : List (Call α)} {refs : List Ref}
    (served : UniqueTable.serve UniqueTable.perform (.empty bits) calls = (refs, table)) :
    ∃ linked : Linked α, (Linked.empty bits).serve calls = pure (refs.map Ref.index, linked) ∧
      linked.Agrees table ∧ linked.WellLinked (maker calls (refs.map Ref.index)) := by
  obtain ⟨linked, run, mirrors, tidy⟩ := (Mirrors.empty bits).serve (.empty bits) calls
  obtain ⟨answers, _⟩ := (Lists.empty bits).serve calls
  rw [served] at run mirrors tidy answers
  refine ⟨linked, run, mirrors.agrees tidy.index, ?_⟩
  rw [show refs.map Ref.index = _ from answers]
  exact mirrors.wellLinked tidy (maker_zero [] calls) fun _ => maker_succ (Nat.zero_le _) calls

end Index

theorem serve_wellLinked_crowding :
    ∃ linked : Linked Nat, (Linked.empty 0).serve crowding = pure ([1, 2, 3, 4, 1], linked) ∧
      linked.heads.size = 2 ∧ linked.hashed = 3 ∧
      linked.WellLinked (maker crowding [1, 2, 3, 4, 1]) := by
  have served : UniqueTable.serve UniqueTable.perform (.empty 0) crowding =
      ([⟨0⟩, ⟨1⟩, ⟨2⟩, ⟨3⟩, ⟨0⟩],
        (UniqueTable.serve UniqueTable.perform (.empty 0) crowding).2) := Prod.ext (by decide) rfl
  obtain ⟨linked, run, agrees, wellLinked⟩ := serve_wellLinked served
  refine ⟨linked, run, ?_, ?_, wellLinked⟩
  · rw [agrees.heads_size]
    decide
  · rw [agrees.hashed_eq]
    decide

end Linked

end DecisionDiagram.UniqueTable
