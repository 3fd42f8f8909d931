import DecisionDiagram.Proofs.UniqueTable.Linked
import DecisionDiagram.Proofs.UniqueTable.Room

/-!
# Linked tables mirror unique tables

A linked table shows a unique table if it holds the same values and its links lead
along the chains of the unique table. While cells are relinked one after another,
links outside the chains built so far may lead anywhere; once all are relinked,
every cell outside the chains is linked to no other. So the loops of a linked
table that is only called always end, at cells of the table.
-/

namespace DecisionDiagram.UniqueTable.Linked

variable {α : Type}

/-- The links lead along the chains of the other table, whose values are the same. -/
structure Shows (linked : Linked α) (table : UniqueTable α) : Prop where
  value_eq : ∀ ref : Ref, linked.cells[ref.index]?.map LinkedCell.value = table.get? ref
  size_eq : linked.cells.size = table.size + 1
  heads_size : linked.heads.size = table.bucketCount
  mask_eq : linked.mask = maskOf table.bucketCount
  path : ∀ (bucket head : Nat), linked.heads[bucket]? = some head →
    Path linked.cells head (table.chain bucket)
  hashed_eq : linked.hashed = table.hashed

variable {linked : Linked α} {table : UniqueTable α}

namespace Shows

theorem exists_cell (shows : linked.Shows table) {ref : Ref} {value : α}
    (stored : table.get? ref = some value) :
    ∃ next, linked.cells[ref.index]? = some ⟨value, next⟩ := by
  rw [← shows.value_eq] at stored
  obtain ⟨⟨_, next⟩, here, rfl⟩ := Option.map_eq_some_iff.mp stored
  exact ⟨next, here⟩

theorem get?_of_cell (shows : linked.Shows table) {ref : Ref} {cell : LinkedCell α}
    (stored : linked.cells[ref.index]? = some cell) : table.get? ref = some cell.value := by
  rw [← shows.value_eq, stored]
  rfl

theorem exists_head (shows : linked.Shows table) {bucket : Nat}
    (inside : bucket < table.bucketCount) : ∃ head, linked.heads[bucket]? = some head :=
  ⟨_, Array.getElem?_eq_getElem (shows.heads_size.symm ▸ inside)⟩

end Shows

theorem headAt_of_get? {bucket head : Nat}
    (first : linked.heads[bucket]? = some head) : linked.headAt bucket = pure head := by
  rw [headAt, first]

theorem setNext_index {ref : Ref} {cell : LinkedCell α}
    (stored : linked.cells[ref.index]? = some cell) (next : Nat) :
    linked.setNext ref.index next =
      pure { linked with cells := linked.cells.setIfInBounds ref.index ⟨cell.value, next⟩ } := by
  rw [setNext, cellAt_index stored, pure_bind]

theorem setHead_of_get? {bucket head : Nat}
    (first : linked.heads[bucket]? = some head) (index : Nat) :
    linked.setHead bucket index =
      pure { linked with heads := linked.heads.setIfInBounds bucket index } := by
  rw [setHead, headAt_of_get? first, pure_bind]

theorem getElem?_setCell_ne {cells : Array (LinkedCell α)} {ref other : Ref} (ne : other ≠ ref)
    (cell : LinkedCell α) :
    (cells.setIfInBounds ref.index cell)[other.index]? = cells[other.index]? :=
  Array.getElem?_setIfInBounds_ne fun same => ne (Ref.index_inj same.symm)

theorem getElem?_setCell_self {cells : Array (LinkedCell α)} {ref : Ref} {old : LinkedCell α}
    (stored : cells[ref.index]? = some old) (cell : LinkedCell α) :
    (cells.setIfInBounds ref.index cell)[ref.index]? = some cell := by
  rw [Array.getElem?_setIfInBounds_self_of_lt (Array.getElem?_eq_some_iff.mp stored).1]

/-- A path goes on to a new cell once the link of its last cell names that cell. -/
theorem Path.setCell {cells : Array (LinkedCell α)} {index : Nat} {front : List Ref}
    {last new : Ref} {cell : LinkedCell α} {value : α}
    (path : Path cells index (front ++ [last])) (nodup : (front ++ [last]).Nodup)
    (stored : cells[last.index]? = some cell) (added : cells[new.index]? = some ⟨value, 0⟩)
    (ne : new ≠ last) :
    Path (cells.setIfInBounds last.index ⟨cell.value, new.index⟩) index
      (front ++ [last] ++ [new]) := by
  have apart {ref : Ref} (inside : ref ∈ front) : ref ≠ last :=
    (List.nodup_append.mp nodup).2.2 ref inside last List.mem_cons_self
  exact path.concat (fun ref inside => getElem?_setCell_ne (apart inside) _)
    (getElem?_setCell_self stored _) ((getElem?_setCell_ne ne _).trans added)

/-- A change of a link keeps the values. -/
theorem Shows.value_eq_setCell
    (shows : linked.Shows table) {ref : Ref} {cell : LinkedCell α}
    (stored : linked.cells[ref.index]? = some cell) (next : Nat) (other : Ref) :
    (linked.cells.setIfInBounds ref.index ⟨cell.value, next⟩)[other.index]?.map LinkedCell.value =
      table.get? other := by
  by_cases same : other = ref
  · subst same
    rw [getElem?_setCell_self stored, shows.get?_of_cell stored]
    rfl
  · rw [getElem?_setCell_ne same, shows.value_eq]

/-! ## All chains at once -/

theorem mapM_collect {heads : List Nat} {chains : List (List Ref)}
    (paths : List.Forall₂ (Path linked.cells) heads chains) :
    heads.mapM linked.collect = pure (chains.map (List.map Ref.index)) := by
  induction paths with
  | nil => rfl
  | cons path _ ih =>
      rw [List.mapM_cons, collect_of_path path, pure_bind, ih, pure_bind]
      rfl

theorem Shows.paths (shows : linked.Shows table) :
    List.Forall₂ (Path linked.cells) linked.heads.toList table.buckets.toList := by
  rw [List.forall₂_iff_get]
  refine ⟨shows.heads_size, fun bucket inside within => ?_⟩
  have bound : bucket < linked.heads.size := inside
  rw [List.get_eq_getElem, List.get_eq_getElem, getElem_buckets within]
  exact shows.path bucket _ (Array.getElem?_eq_getElem bound)

/-- Tables with empty chains need the same values only. -/
theorem Shows.of_replicate {count : Nat} (heads : linked.heads = Array.replicate count 0)
    (mask : linked.mask = maskOf count) (buckets : table.buckets = Array.replicate count [])
    (value_eq : ∀ ref : Ref, linked.cells[ref.index]?.map LinkedCell.value = table.get? ref)
    (size_eq : linked.cells.size = table.size + 1) (hashed_eq : linked.hashed = table.hashed) :
    linked.Shows table where
  value_eq := value_eq
  size_eq := size_eq
  heads_size := by
    rw [heads, UniqueTable.bucketCount, buckets, Array.size_replicate, Array.size_replicate]
  mask_eq := by rw [mask, UniqueTable.bucketCount, buckets, Array.size_replicate]
  path bucket head first := by
    rw [chain_of_replicate buckets]
    rw [heads] at first
    exact (Array.mem_replicate.mp (Array.mem_of_getElem? first)).2
  hashed_eq := hashed_eq

/-! ## Cells outside the chains -/

/-- Every cell outside the chains is linked to no other. -/
structure Mirrors (linked : Linked α) (table : UniqueTable α) : Prop extends
    linked.Shows table where
  next_eq_zero : ∀ (ref : Ref) cell, linked.cells[ref.index]? = some cell →
    ref ∉ table.indexed → cell.next = 0

theorem Mirrors.empty [Inhabited α] (bits : Nat) :
    (Linked.empty bits : Linked α).Mirrors (UniqueTable.empty bits) where
  toShows := .of_replicate rfl rfl rfl (fun _ => rfl) rfl rfl
  next_eq_zero ref cell stored _ := by
    have outside : (#[⟨default, 0⟩] : Array (LinkedCell α))[ref.index]? = none := rfl
    cases outside.symm.trans stored

theorem Shows.push_eq (shows : linked.Shows table)
    (cell : LinkedCell α) (ref : Ref) :
    (linked.cells.push cell)[ref.index]? =
      if ref = ⟨table.size⟩ then some cell else linked.cells[ref.index]? := by
  have last : ref.index = linked.cells.size ↔ ref = ⟨table.size⟩ := by
    rw [shows.size_eq]
    exact ⟨fun same => Ref.index_inj same, congrArg Ref.index⟩
  simp only [Array.getElem?_push, last]

section Index

variable [Hashable α]

theorem Shows.bucketOf_eq (shows : linked.Shows table)
    (isCount : IsBucketCount table.bucketCount) (value : α) :
    linked.bucketOf value = table.bucketOf value := by
  rw [bucketOf, shows.mask_eq]
  exact isCount.toNat_and_mask _

theorem Mirrors.push (mirrors : linked.Mirrors table)
    (value : α) : (linked.push value).Mirrors (table.add value).2 where
  value_eq ref := by
    rw [show (table.add value).2.get? ref = (table.append value).get? ref from rfl, get?_append,
      Linked.push, mirrors.push_eq]
    split
    · rfl
    · exact mirrors.value_eq ref
  size_eq := by
    rw [Linked.push, Array.size_push, mirrors.size_eq, size, size, cells_add, Array.size_push]
  heads_size := mirrors.heads_size
  mask_eq := mirrors.mask_eq
  path bucket head first := (mirrors.path bucket head first).push _
  hashed_eq := mirrors.hashed_eq
  next_eq_zero ref cell stored outside := by
    rw [Linked.push, mirrors.push_eq] at stored
    split at stored
    · cases stored
      rfl
    · exact mirrors.next_eq_zero ref cell stored outside

omit [Hashable α] in
theorem Shows.add_of_room (shows : linked.Shows table) {limit? : Option Nat}
    (room : ∀ limit ∈ limit?, table.size < limit) (value : α) :
    linked.add value limit? = pure (table.size + 1, linked.push value) := by
  have free : ¬ limit?.any (· < linked.cells.size) := by
    rw [shows.size_eq]
    cases limit? with
    | none => simp
    | some limit => simpa using Nat.succ_le_of_lt (room limit rfl)
  rw [Linked.add, if_neg free, shows.size_eq]

omit [Hashable α] in
theorem Shows.add_of_full (shows : linked.Shows table) {limit : Nat} (full : limit ≤ table.size)
    (value : α) : linked.add value (some limit) = throw .storageFull := by
  have taken : (some limit).any (· < linked.cells.size) := by
    rw [shows.size_eq]
    simpa using Nat.lt_succ_of_le full
  rw [Linked.add, if_pos taken]

/-! ## Relinking -/

/-- A cell outside the chains is put in front of its chain, and no other cell changes. -/
theorem Shows.relink (shows : linked.Shows table)
    (isCount : IsBucketCount table.bucketCount) {ref : Ref} {value : α}
    (stored : table.get? ref = some value) (apart : ∀ bucket, ref ∉ table.chain bucket) :
    ∃ later, linked.relink ref.index = pure later ∧ later.Shows (table.link ref) ∧
      ∀ other : Ref, other ≠ ref → later.cells[other.index]? = linked.cells[other.index]? := by
  obtain ⟨next, here⟩ := shows.exists_cell stored
  obtain ⟨head, first⟩ := shows.exists_head (bucketOf_lt isCount.pos value)
  have inside : table.bucketOf value < linked.heads.size := (Array.getElem?_eq_some_iff.mp first).1
  have run : linked.relink ref.index = pure { linked with
      cells := linked.cells.setIfInBounds ref.index ⟨value, head⟩
      heads := linked.heads.setIfInBounds (table.bucketOf value) ref.index } := by
    rw [Linked.relink, cellAt_index here, pure_bind]
    dsimp only
    rw [shows.bucketOf_eq isCount, headAt_of_get? first, pure_bind, setNext_index here, pure_bind]
    exact setHead_of_get? (by exact first) ref.index
  have frame (other : Ref) (ne : other ≠ ref) :
      (linked.cells.setIfInBounds ref.index ⟨value, head⟩)[other.index]? =
        linked.cells[other.index]? := getElem?_setCell_ne ne _
  refine ⟨_, run, ?_, frame⟩
  constructor
  · intro other
    rw [get?_link]
    exact shows.value_eq_setCell here head other
  · rw [Array.size_setIfInBounds, shows.size_eq, size, size, cells_link]
  · rw [Array.size_setIfInBounds, shows.heads_size, bucketCount_link]
  · rw [shows.mask_eq, bucketCount_link]
  · intro bucket start begins
    -- Whatever the relinked cell was followed by, it lies on none of the chains built so far.
    have sameCells (member : Ref) (old : member ∈ table.chain bucket) :=
      frame member fun same => apart bucket (same ▸ old)
    rw [chain_link isCount.pos, inBucket_of_get? stored]
    by_cases same : table.bucketOf value = bucket
    · subst same
      rw [Array.getElem?_setIfInBounds_self_of_lt inside] at begins
      obtain rfl : ref.index = start := Option.some.inj begins
      rw [if_pos BEq.rfl]
      exact ⟨rfl, _, getElem?_setCell_self here _, (shows.path _ head first).congr sameCells⟩
    · rw [Array.getElem?_setIfInBounds_ne same] at begins
      rw [if_neg (by simpa using same)]
      exact (shows.path bucket start begins).congr sameCells
  · rw [hashed_link, shows.hashed_eq]

/-- Cells outside the chains are relinked one after another. -/
theorem Shows.relink_all {refs : List Ref} (nodup : refs.Nodup) 
    (shows : linked.Shows table)
    (isCount : IsBucketCount table.bucketCount)
    (stored : ∀ ref ∈ refs, ∃ value, table.get? ref = some value)
    (apart : ∀ ref ∈ refs, ∀ bucket, ref ∉ table.chain bucket) :
    ∃ later, (refs.map Ref.index).foldlM Linked.relink linked = pure later ∧
      later.Shows (refs.foldl link table) ∧
      ∀ other : Ref, other ∉ refs → later.cells[other.index]? = linked.cells[other.index]? := by
  induction refs generalizing linked table with
  | nil => exact ⟨linked, rfl, shows, fun _ _ => rfl⟩
  | cons ref rest ih =>
      obtain ⟨new, nodupRest⟩ := List.nodup_cons.mp nodup
      obtain ⟨⟨value, here⟩, storedRest⟩ := List.forall_mem_cons.mp stored
      obtain ⟨apartHere, apartRest⟩ := List.forall_mem_cons.mp apart
      obtain ⟨middle, run, shown, frame⟩ := shows.relink isCount here apartHere
      have stillApart : ∀ other ∈ rest, ∀ bucket, other ∉ (table.link ref).chain bucket := by
        intro other inside bucket
        have ne : other ≠ ref := fun same => new (same ▸ inside)
        rw [chain_link isCount.pos]
        split
        · exact List.mem_cons.not.mpr (not_or.mpr ⟨ne, apartRest other inside bucket⟩)
        · exact apartRest other inside bucket
      have stillStored : ∀ other ∈ rest, ∃ value, (table.link ref).get? other = some value := by
        intro other inside
        rw [get?_link]
        exact storedRest other inside
      obtain ⟨later, runRest, shownRest, frameRest⟩ :=
        ih nodupRest shown ((bucketCount_link table ref).symm ▸ isCount) stillStored stillApart
      refine ⟨later, ?_, shownRest, ?_⟩
      · rw [List.map_cons, List.foldlM_cons, run, pure_bind, runRest]
      · intro other outside
        obtain ⟨ne, notRest⟩ := not_or.mp (List.mem_cons.not.mp outside)
        exact (frameRest other notRest).trans (frame other ne)

/-! ## Growing -/

variable [BEq α]

/-- Growing collects all linked cells and relinks them, in the same order as the other table. -/
theorem Mirrors.grow (mirrors : linked.Mirrors table)
    {known : Ref → Prop} (index : table.Indexes known) (simple : table.Simple)
    (isCount : IsBucketCount table.bucketCount) :
    ∃ later, linked.grow = pure later ∧ later.Mirrors table.grow := by
  unfold Linked.grow UniqueTable.grow
  rw [mirrors.heads_size, mirrors.hashed_eq]
  split
  · exact ⟨linked, rfl, mirrors⟩
  · next full =>
    have double := isCount.double (Nat.lt_of_not_le (not_or.mp full).2)
    have emptied : Shows
        { linked with
          heads := Array.replicate (2 * table.bucketCount) 0
          mask := maskOf (2 * table.bucketCount) }
        { table with buckets := Array.replicate (2 * table.bucketCount) [] } :=
      .of_replicate rfl rfl rfl mirrors.value_eq mirrors.size_eq mirrors.hashed_eq
    obtain ⟨later, run, shown, frame⟩ :=
      emptied.relink_all (index.indexed_nodup simple)
        (by rwa [UniqueTable.bucketCount, Array.size_replicate])
        (fun ref inside => index.stored ((index.mem_indexed_iff ref).mp inside))
        (fun ref _ bucket => by rw [chain_of_replicate rfl]; exact List.not_mem_nil)
    refine ⟨later, ?_, shown, ?_⟩
    · have rehashed : linked.rehash (2 * table.bucketCount) (table.indexed.map Ref.index) =
          pure later := run
      rw [mapM_collect mirrors.paths, pure_bind, ← List.map_flatten]
      exact congrArg liftM rehashed
    · intro ref cell stored outside
      -- A cell outside the chains is never relinked, so its link is still zero.
      have before : ref ∉ table.indexed := by
        rwa [(index.rehash double.pos).mem_indexed_iff, ← index.mem_indexed_iff] at outside
      exact mirrors.next_eq_zero ref cell ((frame ref before).symm.trans stored) before

/-! ## Putting values -/

omit [BEq α] in
/-- The first cell of a chain is put at its head. -/
theorem Mirrors.append_first
    (mirrors : linked.Mirrors table) (pos : 0 < table.bucketCount) {value : α}
    (first : linked.heads[table.bucketOf value]? = some 0) :
    Mirrors { linked.push value with
        heads := linked.heads.setIfInBounds (table.bucketOf value) linked.cells.size
        hashed := linked.hashed + 1 }
      (table.append value) := by
  have added := mirrors.push value
  have inside := (Array.getElem?_eq_some_iff.mp first).1
  constructor
  · constructor
    · exact added.value_eq
    · exact added.size_eq
    · rw [Array.size_setIfInBounds, mirrors.heads_size, bucketCount_append]
    · rw [bucketCount_append]
      exact added.mask_eq
    · intro bucket head begins
      rw [chain_append pos]
      split
      next here =>
        subst here
        rw [Array.getElem?_setIfInBounds_self_of_lt inside] at begins
        rw [(mirrors.path _ 0 first).eq_nil, List.nil_append]
        refine ⟨(Option.some.inj begins).symm.trans mirrors.size_eq, ⟨value, 0⟩, ?_, rfl⟩
        exact (mirrors.push_eq _ _).trans (if_pos rfl)
      next elsewhere =>
        rw [Array.getElem?_setIfInBounds_ne elsewhere] at begins
        exact added.path bucket head begins
    · exact congrArg Nat.succ mirrors.hashed_eq
  · intro ref cell stored outside
    rw [mem_indexed_append pos] at outside
    exact added.next_eq_zero ref cell stored (not_or.mp outside).1

/-- A further cell of a chain follows the last one. -/
theorem Mirrors.append_last (mirrors : linked.Mirrors table) {known : Ref → Prop}
    (index : table.Indexes known) (simple : table.Simple) {value : α} {front : List Ref}
    {last : Ref} {cell : LinkedCell α} {next : Nat}
    (isChain : table.chain (table.bucketOf value) = front ++ [last])
    (stored : linked.cells[last.index]? = some cell) (isNew : next = (⟨table.size⟩ : Ref).index) :
    Mirrors { linked.push value with
        cells := (linked.push value).cells.setIfInBounds last.index ⟨cell.value, next⟩
        hashed := linked.hashed + 1 }
      (table.append value) := by
  subst isNew
  have pos := index.bucketCount_pos
  have added := mirrors.push value
  have member : last ∈ table.chain (table.bucketOf value) := by
    rw [isChain]
    exact List.mem_append_right front List.mem_cons_self
  have newer : ⟨table.size⟩ ≠ last := by
    rintro rfl
    exact Nat.lt_irrefl _ (index.slot_lt ((index.mem_chain _ _).mp member).1)
  have storedLater : (linked.push value).cells[last.index]? = some cell :=
    getElem?_push_of_some stored _
  constructor
  · constructor
    · exact added.value_eq_setCell storedLater _
    · rw [Array.size_setIfInBounds]
      exact added.size_eq
    · rw [bucketCount_append]
      exact added.heads_size
    · rw [bucketCount_append]
      exact added.mask_eq
    · intro bucket head begins
      have path : Path (linked.push value).cells head (table.chain bucket) :=
        added.path bucket head begins
      rw [chain_append pos]
      split
      next here =>
        subst here
        have nodup := simple (table.bucketOf value)
        rw [isChain] at path nodup ⊢
        exact path.setCell nodup storedLater ((mirrors.push_eq _ _).trans (if_pos rfl)) newer
      next elsewhere =>
        -- The last cell lies in its own chain only, so this one keeps its links.
        refine path.congr fun ref inside => getElem?_setCell_ne ?_ _
        rintro rfl
        exact elsewhere (index.bucket_eq member inside)
    · exact congrArg Nat.succ mirrors.hashed_eq
  · intro ref other there outside
    rw [mem_indexed_append pos] at outside
    have unindexed := (not_or.mp outside).1
    have ne : ref ≠ last := by
      rintro rfl
      exact unindexed (mem_indexed.mpr ⟨_, member⟩)
    exact added.next_eq_zero ref other ((getElem?_setCell_ne ne _).symm.trans there) unindexed

theorem Shows.find?_eq (shows : linked.Shows table)
    (value : α) :
    table.find? value = (table.chain (table.bucketOf value)).find? (isHit linked.cells value) := by
  have same : (fun ref => (table.get? ref).any (value == ·)) = isHit linked.cells value := by
    funext ref
    rw [← shows.value_eq, Option.any_map]
    rfl
  rw [← same]
  rfl

/-- A value that is found is found by following the links, too. -/
theorem Shows.put_of_some (shows : linked.Shows table)
    (isCount : IsBucketCount table.bucketCount) {value : α} {ref : Ref}
    (found : table.find? value = some ref) (limit? : Option Nat) :
    linked.put value limit? = pure (ref.index, linked) := by
  obtain ⟨head, first⟩ := shows.exists_head (bucketOf_lt isCount.pos value)
  have path := shows.path _ head first
  rw [shows.find?_eq] at found
  have more : head ≠ 0 := by
    rintro rfl
    rw [path.eq_nil] at found
    cases found
  unfold Linked.put
  simp only [shows.bucketOf_eq isCount, headAt_of_get? first, liftM_pure_bind, if_neg more,
    seek_of_some path found, pure_bind]

variable [EquivBEq α] [LawfulHashable α]

/-- A value that is not found is added, and then its cell is linked to the end of its chain. -/
theorem Mirrors.put_of_none
    (mirrors : linked.Mirrors table) {known : Ref → Prop} (index : table.Indexes known)
    (simple : table.Simple) (isCount : IsBucketCount table.bucketCount) {value : α}
    (missing : table.find? value = none) :
    ∃ link : Nat × Linked α → Walk (Nat × Linked α),
      (∀ limit?, linked.put value limit? = liftM (linked.add value limit?) >>= link) ∧
        ∃ later, link (table.size + 1, linked.push value) = pure (table.size + 1, later) ∧
          later.Mirrors (table.insertNew value) := by
  have growing {next : Linked α} (appended : next.Mirrors (table.append value)) :
      ∃ later, (do let grown ← next.grow; return (table.size + 1, grown)) =
        (pure (table.size + 1, later) : Walk _) ∧ later.Mirrors (table.insertNew value) := by
    obtain ⟨later, run, shown⟩ := appended.grow (index.append missing)
      (index.simple_append simple value) ((bucketCount_append table value).symm ▸ isCount)
    refine ⟨later, ?_, shown⟩
    rw [run, pure_bind]
  obtain ⟨head, first⟩ := mirrors.exists_head (bucketOf_lt isCount.pos value)
  have path := mirrors.path _ head first
  rw [mirrors.find?_eq] at missing
  unfold Linked.put
  simp only [mirrors.bucketOf_eq isCount, headAt_of_get? first, liftM_pure_bind]
  by_cases empty : head = 0
  · subst empty
    refine ⟨_, fun limit? => if_pos rfl, ?_⟩
    dsimp only
    rw [setHead_of_get? (by exact first), liftM_pure_bind]
    have appended := mirrors.append_first isCount.pos first
    rw [mirrors.size_eq] at appended
    exact growing appended
  · rcases List.eq_nil_or_concat' (table.chain (table.bucketOf value)) with none | some
    · rw [none] at path
      exact absurd path empty
    · obtain ⟨front, last, isChain⟩ := some
      rw [isChain] at path missing
      obtain ⟨cell, stored⟩ := path.stored (List.mem_append_right front List.mem_cons_self)
      have storedLater := getElem?_push_of_some stored ⟨value, 0⟩
      simp only [if_neg empty, seek_of_none path missing, pure_bind]
      refine ⟨_, fun limit? => rfl, ?_⟩
      dsimp only
      rw [setNext_index (by exact storedLater), liftM_pure_bind]
      exact growing (mirrors.append_last index simple isChain stored rfl)

/-! ## Calls -/

/-- A call of both tables, when there is an index for a new cell. -/
theorem Mirrors.perform_of_room
    (mirrors : linked.Mirrors table) {made : List (Call α)} (tidy : table.Tidy made)
    {limit? : Option Nat} (room : ∀ limit ∈ limit?, table.size < limit) (call : Call α) :
    ∃ later,
      linked.perform call limit? = pure ((UniqueTable.perform table call).1.index, later) ∧
        later.Mirrors (UniqueTable.perform table call).2 := by
  cases call with
  | add value =>
      refine ⟨linked.push value, ?_, mirrors.push value⟩
      rw [Linked.perform, mirrors.add_of_room room]
      rfl
  | put value =>
      cases found : table.find? value with
      | some ref =>
          rw [UniqueTable.perform, UniqueTable.put_of_some found]
          exact ⟨linked, mirrors.put_of_some tidy.isCount found limit?, mirrors⟩
      | none =>
          rw [UniqueTable.perform, UniqueTable.put_of_none found]
          obtain ⟨link, put, later, run, shown⟩ :=
            mirrors.put_of_none tidy.index tidy.simple tidy.isCount found
          refine ⟨later, ?_, shown⟩
          rw [Linked.perform, put, mirrors.add_of_room room, liftM_pure_bind, run]
          rfl

/-- A call of both tables. -/
theorem Mirrors.perform
    (mirrors : linked.Mirrors table) {made : List (Call α)} (tidy : table.Tidy made)
    (call : Call α) :
    ∃ later, linked.perform call = pure ((UniqueTable.perform table call).1.index, later) ∧
      later.Mirrors (UniqueTable.perform table call).2 :=
  mirrors.perform_of_room tidy (fun _ none => by cases none) call

/-- A call of both tables that is refused by both if there is no index for its cell. -/
theorem Mirrors.performWithin
    (mirrors : linked.Mirrors table) {made : List (Call α)} (tidy : table.Tidy made) {limit : Nat}
    (fits : table.size ≤ limit) (call : Call α) :
    ∃ later,
      linked.perform call (some limit) =
          liftM ((UniqueTable.performWithin limit table call).1.map fun ref =>
            (ref.index, later)) ∧
        later.Mirrors (UniqueTable.performWithin limit table call).2 := by
  rcases Nat.lt_or_eq_of_le fits with room | full
  · rw [performWithin_of_room room]
    refine mirrors.perform_of_room tidy (fun other same => ?_) call
    rwa [← Option.some.inj same]
  · have full : limit ≤ table.size := Nat.le_of_eq full.symm
    cases call with
    | add value =>
        rw [UniqueTable.performWithin, addWithin, checkRoom_of_le full]
        exact ⟨linked, congrArg liftM (mirrors.add_of_full full value), mirrors⟩
    | put value =>
        cases found : table.find? value with
        | some ref =>
            rw [UniqueTable.performWithin, putWithin_of_some found]
            exact ⟨linked, mirrors.put_of_some tidy.isCount found (some limit), mirrors⟩
        | none =>
            rw [UniqueTable.performWithin, putWithin_of_none found, checkRoom_of_le full]
            obtain ⟨link, put, _⟩ := mirrors.put_of_none tidy.index tidy.simple tidy.isCount found
            refine ⟨linked, ?_, mirrors⟩
            rw [Linked.perform, put, mirrors.add_of_full full, liftM_throw_bind]
            rfl

/-- Any number of calls of both tables. -/
theorem Mirrors.serve
    (mirrors : linked.Mirrors table) {made : List (Call α)} (tidy : table.Tidy made)
    (calls : List (Call α)) :
    ∃ later,
      linked.serve calls =
          pure ((UniqueTable.serve UniqueTable.perform table calls).1.map Ref.index, later) ∧
        later.Mirrors (UniqueTable.serve UniqueTable.perform table calls).2 ∧
        (UniqueTable.serve UniqueTable.perform table calls).2.Tidy
          (UniqueTable.serve search made calls).2 := by
  induction calls generalizing linked table made with
  | nil => exact ⟨linked, rfl, mirrors, tidy⟩
  | cons call rest ih =>
      obtain ⟨next, run, nextMirrors⟩ := mirrors.perform tidy call
      obtain ⟨later, runRest, shown⟩ := ih nextMirrors (tidy.perform call)
      refine ⟨later, ?_, shown⟩
      rw [Linked.serve, run, pure_bind]
      dsimp only
      rw [runRest, pure_bind]
      rfl

end Index

end DecisionDiagram.UniqueTable.Linked
