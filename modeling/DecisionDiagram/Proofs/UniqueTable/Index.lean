import DecisionDiagram.UniqueTable

/-!
# The index of a unique table

An index knows a set of cells if the chain of every bucket lists exactly the
known cells whose values hash into that bucket, and no two known cells hold
equal values. Looking up a value then finds the one known cell that holds an
equal one. Growing the index keeps the known cells, and storing a new value
makes its cell known.
-/

namespace DecisionDiagram.UniqueTable

variable {α : Type}

def chain (table : UniqueTable α) (bucket : Nat) : List Ref :=
  table.buckets.getD bucket []

theorem mem_indexed {table : UniqueTable α} {ref : Ref} :
    ref ∈ table.indexed ↔ ∃ bucket, ref ∈ table.chain bucket := by
  simp only [indexed, chain, Array.getD_eq_getD_getElem?, List.mem_flatten, Array.mem_toList_iff]
  constructor
  · rintro ⟨chain, inside, member⟩
    obtain ⟨bucket, same⟩ := Array.getElem?_of_mem inside
    exact ⟨bucket, by simpa [same] using member⟩
  · rintro ⟨bucket, member⟩
    cases same : table.buckets[bucket]? with
    | none => simp [same] at member
    | some chain =>
        exact ⟨chain, Array.mem_of_getElem? same, by simpa [same] using member⟩

variable [Hashable α]

def inBucket (table : UniqueTable α) (bucket : Nat) (ref : Ref) : Bool :=
  (table.get? ref).any fun value => table.bucketOf value == bucket

theorem bucketOf_lt {table : UniqueTable α} (pos : 0 < table.bucketCount) (value : α) :
    table.bucketOf value < table.bucketCount :=
  Nat.mod_lt _ pos

theorem inBucket_of_get? {table : UniqueTable α} {ref : Ref} {value : α}
    (stored : table.get? ref = some value) (bucket : Nat) :
    table.inBucket bucket ref = (table.bucketOf value == bucket) := by
  rw [inBucket, stored, Option.any_some]

/-! ## Rehashing -/

@[simp]
theorem get?_link (table : UniqueTable α) (ref other : Ref) :
    (table.link ref).get? other = table.get? other := by
  rw [get?, get?, cells_link]

@[simp]
theorem bucketCount_link (table : UniqueTable α) (ref : Ref) :
    (table.link ref).bucketCount = table.bucketCount := by
  unfold link
  split
  · rfl
  · exact Array.size_modify

@[simp]
theorem inBucket_link (table : UniqueTable α) (ref : Ref) :
    (table.link ref).inBucket = table.inBucket := by
  funext bucket other
  simp [inBucket, bucketOf]

theorem chain_link {table : UniqueTable α} (pos : 0 < table.bucketCount) (ref : Ref)
    (bucket : Nat) :
    (table.link ref).chain bucket =
      if table.inBucket bucket ref then ref :: table.chain bucket else table.chain bucket := by
  unfold link
  cases stored : table.get? ref with
  | none => simp [inBucket, stored]
  | some value =>
      simp only [chain, Array.getD_eq_getD_getElem?, Array.getElem?_modify, inBucket_of_get? stored,
        beq_iff_eq]
      split
      next same =>
        have inside : bucket < table.buckets.size := same ▸ bucketOf_lt pos value
        simp [inside]
      next => rfl

/-- Linking cells one after another puts them at the front of their chains. -/
theorem chain_foldl_link (refs : List Ref) {table : UniqueTable α}
    (pos : 0 < table.bucketCount) (bucket : Nat) :
    (refs.foldl link table).chain bucket =
      (refs.filter (table.inBucket bucket)).reverse ++ table.chain bucket := by
  induction refs generalizing table with
  | nil => rfl
  | cons ref rest ih =>
      rw [List.foldl_cons, ih (by simpa using pos), inBucket_link, chain_link pos]
      cases inside : table.inBucket bucket ref <;> simp [inside]

theorem bucketCount_foldl_link (refs : List Ref) (table : UniqueTable α) :
    (refs.foldl link table).bucketCount = table.bucketCount := by
  induction refs generalizing table with
  | nil => rfl
  | cons ref rest ih => rw [List.foldl_cons, ih, bucketCount_link]

theorem bucketCount_rehash (table : UniqueTable α) (bucketCount : Nat) :
    (table.rehash bucketCount).bucketCount = bucketCount := by
  rw [rehash, bucketCount_foldl_link]
  exact Array.size_replicate

/-- Every chain of the new index is the part of the old index that belongs there, reversed. -/
theorem chain_rehash (table : UniqueTable α) {bucketCount : Nat} (pos : 0 < bucketCount)
    (bucket : Nat) :
    (table.rehash bucketCount).chain bucket =
      (table.indexed.filter ((table.rehash bucketCount).inBucket bucket)).reverse := by
  have size : ({ table with buckets := Array.replicate bucketCount [] } :
      UniqueTable α).bucketCount = bucketCount := Array.size_replicate
  have unlinked : ({ table with buckets := Array.replicate bucketCount [] } :
      UniqueTable α).chain bucket = [] := by
    simp [chain, Array.getD_eq_getD_getElem?, Array.getElem?_replicate]
    split <;> rfl
  have sameBuckets : (table.rehash bucketCount).inBucket =
      ({ table with buckets := Array.replicate bucketCount [] } : UniqueTable α).inBucket := by
    funext bucket ref
    simp only [inBucket, get?, cells_rehash, bucketOf, bucketCount_rehash, size]
  rw [sameBuckets, rehash, chain_foldl_link _ (by rw [size]; exact pos), unlinked, List.append_nil]

/-! ## Storing at the end of a chain -/

/-- The table with a value stored at the end of its chain, before the index grows. -/
def append (table : UniqueTable α) (value : α) : UniqueTable α where
  cells := table.cells.push value
  buckets := table.buckets.modify (table.bucketOf value) (· ++ [⟨table.size⟩])
  hashed := table.hashed + 1
  capacity := roomAfter (table.size + 1) table.capacity

theorem insertNew_eq (table : UniqueTable α) (value : α) :
    table.insertNew value = (table.append value).grow := rfl

@[simp]
theorem bucketCount_append (table : UniqueTable α) (value : α) :
    (table.append value).bucketCount = table.bucketCount :=
  Array.size_modify

theorem get?_append (table : UniqueTable α) (value : α) (ref : Ref) :
    (table.append value).get? ref =
      if ref = ⟨table.size⟩ then some value else table.get? ref := by
  have last : ref = ⟨table.size⟩ ↔ ref.slot = table.cells.size := by
    cases ref
    exact Ref.mk.injEq _ _ ▸ Iff.rfl
  simp only [get?, append, Array.getElem?_push, last]

theorem chain_append {table : UniqueTable α} (pos : 0 < table.bucketCount) (value : α)
    (bucket : Nat) :
    (table.append value).chain bucket =
      if table.bucketOf value = bucket then table.chain bucket ++ [⟨table.size⟩]
      else table.chain bucket := by
  simp only [chain, append, Array.getD_eq_getD_getElem?, Array.getElem?_modify]
  split
  next same =>
    have inside : bucket < table.buckets.size := same ▸ bucketOf_lt pos value
    simp [inside]
  next => rfl

/-! ## Known cells -/

variable [BEq α]

/-- The chains list exactly the given cells, each in its bucket, and their values differ. -/
structure Indexes (table : UniqueTable α) (known : Ref → Prop) : Prop where
  bucketCount_pos : 0 < table.bucketCount
  stored : ∀ {ref}, known ref → ∃ value, table.get? ref = some value
  mem_chain : ∀ bucket ref, ref ∈ table.chain bucket ↔ known ref ∧ table.inBucket bucket ref
  distinct : ∀ {p q x y}, known p → known q → table.get? p = some x → table.get? q = some y →
    x == y → p = q

namespace Indexes

variable {table : UniqueTable α} {known : Ref → Prop}

theorem congr (index : table.Indexes known) {other : Ref → Prop}
    (same : ∀ ref, known ref ↔ other ref) : table.Indexes other := by
  obtain rfl : known = other := funext fun ref => propext (same ref)
  exact index

theorem mem_indexed_iff (index : table.Indexes known) (ref : Ref) :
    ref ∈ table.indexed ↔ known ref := by
  rw [mem_indexed]
  constructor
  · rintro ⟨bucket, member⟩
    exact ((index.mem_chain bucket ref).mp member).1
  · intro isKnown
    obtain ⟨value, stored⟩ := index.stored isKnown
    refine ⟨table.bucketOf value, (index.mem_chain _ ref).mpr ⟨isKnown, ?_⟩⟩
    simp [inBucket_of_get? stored]

theorem slot_lt (index : table.Indexes known) {ref : Ref} (isKnown : known ref) :
    ref.slot < table.size := by
  obtain ⟨value, stored⟩ := index.stored isKnown
  exact (Array.getElem?_eq_some_iff.mp stored).1

theorem get?_append_of_known (index : table.Indexes known) {ref : Ref} (isKnown : known ref)
    (value : α) : (table.append value).get? ref = table.get? ref := by
  rw [get?_append, if_neg]
  rintro rfl
  exact Nat.lt_irrefl _ (index.slot_lt isKnown)

theorem empty (bits : Nat) :
    (UniqueTable.empty bits : UniqueTable α).Indexes fun _ => False where
  bucketCount_pos := by
    rw [bucketCount, UniqueTable.empty, Array.size_replicate, Nat.one_shiftLeft]
    exact Nat.two_pow_pos _
  stored := False.elim
  mem_chain bucket ref := by
    simp only [chain, UniqueTable.empty, Array.getD_eq_getD_getElem?, Array.getElem?_replicate]
    split <;> simp
  distinct := False.elim

/-- A value that is merely added stays unknown. -/
theorem add (index : table.Indexes known) (value : α) : (table.add value).2.Indexes known where
  bucketCount_pos := index.bucketCount_pos
  stored isKnown := (index.get?_append_of_known isKnown value).symm ▸ index.stored isKnown
  mem_chain bucket ref := by
    rw [show (table.add value).2.chain bucket = table.chain bucket from rfl, index.mem_chain]
    refine and_congr_right fun isKnown => ?_
    have same := index.get?_append_of_known isKnown value
    rw [inBucket, inBucket, show (table.add value).2.get? ref = table.get? ref from same]
    rfl
  distinct knownP knownQ storedP storedQ :=
    index.distinct knownP knownQ ((index.get?_append_of_known knownP value).symm.trans storedP)
      ((index.get?_append_of_known knownQ value).symm.trans storedQ)

theorem rehash (index : table.Indexes known) {bucketCount : Nat} (pos : 0 < bucketCount) :
    (table.rehash bucketCount).Indexes known where
  bucketCount_pos := by rwa [bucketCount_rehash]
  stored isKnown := by simpa only [get?, cells_rehash] using index.stored isKnown
  mem_chain bucket ref := by
    rw [chain_rehash table pos, List.mem_reverse, List.mem_filter, index.mem_indexed_iff]
  distinct knownP knownQ := by
    simpa only [get?, cells_rehash] using index.distinct knownP knownQ

theorem grow (index : table.Indexes known) : table.grow.Indexes known := by
  unfold UniqueTable.grow
  split
  · exact index
  · exact index.rehash (Nat.mul_pos Nat.two_pos index.bucketCount_pos)

/-! ## Looking up and storing values -/

variable [EquivBEq α] [LawfulHashable α]

/-- A look-up finds the known cell that holds an equal value. -/
theorem find?_eq_some_iff (index : table.Indexes known) (value : α) (ref : Ref) :
    table.find? value = some ref ↔
      known ref ∧ ∃ other, table.get? ref = some other ∧ value == other := by
  constructor
  · intro found
    have member := List.mem_of_find?_eq_some found
    have equal := List.find?_some found
    exact ⟨((index.mem_chain _ ref).mp member).1, (Option.any_eq_true _ _).mp equal⟩
  · rintro ⟨isKnown, other, stored, equal⟩
    have member : ref ∈ table.chainOf value := by
      refine (index.mem_chain _ ref).mpr ⟨isKnown, ?_⟩
      rw [inBucket_of_get? stored, beq_iff_eq, bucketOf, bucketOf,
        LawfulHashable.hash_eq value other equal]
    cases found : table.find? value with
    | none =>
        have missing := List.find?_eq_none.mp found ref member
        simp [stored, equal] at missing
    | some first =>
        have firstKnown := ((index.mem_chain _ first).mp (List.mem_of_find?_eq_some found)).1
        have firstEqual := List.find?_some found
        obtain ⟨content, firstStored, same⟩ := (Option.any_eq_true _ _).mp firstEqual
        have distinct := index.distinct firstKnown isKnown firstStored stored
          (PartialEquivBEq.trans (PartialEquivBEq.symm same) equal)
        rw [distinct]

theorem find?_eq_none_iff (index : table.Indexes known) (value : α) :
    table.find? value = none ↔
      ∀ ref other, known ref → table.get? ref = some other → ¬ value == other := by
  rw [Option.eq_none_iff_forall_ne_some]
  constructor
  · intro missing ref other isKnown stored equal
    exact missing ref ((index.find?_eq_some_iff value ref).mpr ⟨isKnown, other, stored, equal⟩)
  · intro missing ref found
    obtain ⟨isKnown, other, stored, equal⟩ := (index.find?_eq_some_iff value ref).mp found
    exact missing ref other isKnown stored equal

/-- What a look-up finds depends on the cells and on which of them are known, not on the chains. -/
theorem find?_congr (index : table.Indexes known) {other : UniqueTable α}
    (indexOther : other.Indexes known) (same : table.cells = other.cells) (value : α) :
    table.find? value = other.find? value := by
  refine Option.ext fun ref => ?_
  rw [index.find?_eq_some_iff, indexOther.find?_eq_some_iff, get?, get?, same]

/-- A value that no known cell holds becomes known in a new last cell. -/
theorem append (index : table.Indexes known) {value : α} (missing : table.find? value = none) :
    (table.append value).Indexes fun ref => known ref ∨ ref = ⟨table.size⟩ where
  bucketCount_pos := by simpa using index.bucketCount_pos
  stored := by
    rintro ref (isKnown | rfl)
    · rw [index.get?_append_of_known isKnown]
      exact index.stored isKnown
    · exact ⟨value, by rw [get?_append, if_pos rfl]⟩
  mem_chain bucket ref := by
    have unknown : ¬ known ⟨table.size⟩ := fun isKnown =>
      Nat.lt_irrefl _ (index.slot_lt isKnown)
    have before :
        ref ∈ table.chain bucket ↔ known ref ∧ (table.append value).inBucket bucket ref := by
      rw [index.mem_chain]
      refine and_congr_right fun isKnown => ?_
      rw [inBucket, inBucket, index.get?_append_of_known isKnown]
      simp [bucketOf]
    have last :
        (table.append value).inBucket bucket ⟨table.size⟩ ↔ table.bucketOf value = bucket := by
      simp [inBucket, get?_append, bucketOf]
    rw [chain_append index.bucketCount_pos]
    by_cases same : ref = ⟨table.size⟩
    · subst same
      rw [last]
      split <;> simp_all
    · split <;> simp_all
  distinct := by
    have fresh {ref : Ref} {other : α} (isKnown : known ref)
        (stored : table.get? ref = some other) : ¬ value == other :=
      (index.find?_eq_none_iff value).mp missing ref other isKnown stored
    rintro p q x y (knownP | rfl) (knownQ | rfl) storedP storedQ equal
    · rw [index.get?_append_of_known knownP] at storedP
      rw [index.get?_append_of_known knownQ] at storedQ
      exact index.distinct knownP knownQ storedP storedQ equal
    · rw [index.get?_append_of_known knownP] at storedP
      rw [get?_append, if_pos rfl] at storedQ
      obtain rfl := Option.some.inj storedQ
      exact absurd (PartialEquivBEq.symm equal) (fresh knownP storedP)
    · rw [get?_append, if_pos rfl] at storedP
      rw [index.get?_append_of_known knownQ] at storedQ
      obtain rfl := Option.some.inj storedP
      exact absurd equal (fresh knownQ storedQ)
    · rfl

theorem insertNew (index : table.Indexes known) {value : α} (missing : table.find? value = none) :
    (table.insertNew value).Indexes fun ref => known ref ∨ ref = ⟨table.size⟩ := by
  rw [insertNew_eq]
  exact (index.append missing).grow

end Indexes

end DecisionDiagram.UniqueTable
