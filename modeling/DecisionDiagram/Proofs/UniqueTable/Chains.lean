import Mathlib.Data.List.Nodup
import DecisionDiagram.Proofs.UniqueTable.Calls

/-!
# The chains of a unique table

Besides listing the known cells, the chains of a table that is only called never
list a cell twice, the number of buckets is a power of two, and the table counts
the cells in its chains. So no cell lies in two chains.
-/

namespace DecisionDiagram.UniqueTable

variable {α : Type} [Hashable α]

/-! ## The count of indexed cells -/

@[simp]
theorem hashed_link (table : UniqueTable α) (ref : Ref) :
    (table.link ref).hashed = table.hashed := by
  unfold link
  split <;> rfl

theorem hashed_foldl_link (refs : List Ref) (table : UniqueTable α) :
    (refs.foldl link table).hashed = table.hashed := by
  induction refs generalizing table with
  | nil => rfl
  | cons ref rest ih => rw [List.foldl_cons, ih, hashed_link]

theorem hashed_grow (table : UniqueTable α) : table.grow.hashed = table.hashed := by
  unfold grow
  split
  · rfl
  · exact hashed_foldl_link _ _

theorem hashed_insertNew (table : UniqueTable α) (value : α) :
    (table.insertNew value).hashed = table.hashed + 1 := by
  rw [insertNew_eq, hashed_grow]
  rfl

/-! ## The number of buckets -/

/-- A number of buckets that tables have: a power of two within the limit. -/
def IsBucketCount (count : Nat) : Prop :=
  count.isPowerOfTwo ∧ count ≤ maxBuckets

namespace IsBucketCount

variable {count : Nat}

theorem pos (isCount : IsBucketCount count) : 0 < count :=
  Nat.pos_of_isPowerOfTwo isCount.1

theorem double (isCount : IsBucketCount count) (small : count < maxBuckets) :
    IsBucketCount (2 * count) := by
  obtain ⟨⟨bits, rfl⟩, _⟩ := isCount
  rw [← Nat.pow_succ']
  refine ⟨⟨bits + 1, rfl⟩, Nat.pow_le_pow_right Nat.two_pos (?_ : bits + 1 ≤ 24)⟩
  exact (Nat.pow_lt_pow_iff_right (by decide)).mp small

theorem toNat_mask (isCount : IsBucketCount count) :
    (UInt64.ofNat (count - 1)).toNat = count - 1 := by
  have few : count - 1 ≤ maxBuckets := Nat.le_trans (Nat.sub_le count 1) isCount.2
  exact UInt64.toNat_ofNat_of_lt' (Nat.lt_of_le_of_lt few (by decide))

/-- Masking a word takes it modulo the number of buckets. -/
theorem toNat_and_mask (isCount : IsBucketCount count) (word : UInt64) :
    (word &&& UInt64.ofNat (count - 1)).toNat = word.toNat % count := by
  rw [UInt64.toNat_and, isCount.toNat_mask]
  obtain ⟨⟨bits, rfl⟩, _⟩ := isCount
  exact Nat.and_two_pow_sub_one_eq_mod _ _

end IsBucketCount

omit [Hashable α] in
theorem isBucketCount_empty (bits : Nat) :
    IsBucketCount (empty bits : UniqueTable α).bucketCount := by
  have few : min bits maxInitialBucketBits ≤ 24 := Nat.le_trans (Nat.min_le_right _ _) (by decide)
  rw [bucketCount, empty, Array.size_replicate, Nat.one_shiftLeft]
  exact ⟨⟨_, rfl⟩, Nat.pow_le_pow_right Nat.two_pos few⟩

theorem isBucketCount_grow {table : UniqueTable α} (isCount : IsBucketCount table.bucketCount) :
    IsBucketCount table.grow.bucketCount := by
  unfold grow
  split
  · exact isCount
  · next small =>
    rw [bucketCount_rehash]
    exact isCount.double (Nat.lt_of_not_le (not_or.mp small).2)

/-! ## Chains without repetition -/

/-- No chain lists a cell twice. -/
def Simple (table : UniqueTable α) : Prop :=
  ∀ bucket, (table.chain bucket).Nodup

omit [Hashable α] in
theorem chain_of_replicate {table : UniqueTable α} {count : Nat}
    (cleared : table.buckets = Array.replicate count []) (bucket : Nat) :
    table.chain bucket = [] := by
  rw [chain, cleared, Array.getD_eq_getD_getElem?, Array.getElem?_replicate]
  split <;> rfl

omit [Hashable α] in
theorem getElem_buckets {table : UniqueTable α} {bucket : Nat}
    (inside : bucket < table.buckets.toList.length) :
    table.buckets.toList[bucket] = table.chain bucket := by
  have within : bucket < table.buckets.size := inside
  simp [chain, Array.getD_eq_getD_getElem?, within]

omit [Hashable α] in
theorem simple_empty (bits : Nat) : (empty bits : UniqueTable α).Simple := by
  intro bucket
  rw [chain_of_replicate rfl]
  exact List.nodup_nil

theorem mem_indexed_append {table : UniqueTable α} (pos : 0 < table.bucketCount) (value : α)
    (ref : Ref) :
    ref ∈ (table.append value).indexed ↔ ref ∈ table.indexed ∨ ref = ⟨table.size⟩ := by
  simp only [mem_indexed, chain_append pos]
  constructor
  · rintro ⟨bucket, member⟩
    split at member
    · exact (List.mem_append.mp member).imp (⟨bucket, ·⟩) List.mem_singleton.mp
    · exact Or.inl ⟨bucket, member⟩
  · rintro (⟨bucket, member⟩ | rfl)
    · refine ⟨bucket, ?_⟩
      split
      · exact List.mem_append_left _ member
      · exact member
    · exact ⟨table.bucketOf value, by simp⟩

section Known

variable [BEq α] {table : UniqueTable α} {known : Ref → Prop}

/-- Every cell lies in the chain of its bucket only. -/
theorem Indexes.bucket_eq (index : table.Indexes known) {first second : Nat} {ref : Ref}
    (inFirst : ref ∈ table.chain first) (inSecond : ref ∈ table.chain second) :
    first = second := by
  obtain ⟨isKnown, here⟩ := (index.mem_chain first ref).mp inFirst
  obtain ⟨_, there⟩ := (index.mem_chain second ref).mp inSecond
  obtain ⟨value, stored⟩ := index.stored isKnown
  rw [inBucket_of_get? stored, beq_iff_eq] at here there
  exact here.symm.trans there

theorem Indexes.indexed_nodup (index : table.Indexes known) (simple : table.Simple) :
    table.indexed.Nodup := by
  refine List.nodup_flatten.mpr ⟨?_, List.pairwise_iff_getElem.mpr ?_⟩
  · intro chain inside
    obtain ⟨bucket, bound, rfl⟩ := List.getElem_of_mem inside
    rw [getElem_buckets bound]
    exact simple bucket
  · intro first second boundFirst boundSecond lt ref inFirst inSecond
    rw [getElem_buckets boundFirst] at inFirst
    rw [getElem_buckets boundSecond] at inSecond
    exact Nat.ne_of_lt lt (index.bucket_eq inFirst inSecond)

theorem Indexes.simple_append (index : table.Indexes known) (simple : table.Simple) (value : α) :
    (table.append value).Simple := by
  intro bucket
  rw [chain_append index.bucketCount_pos]
  split
  · have new : (⟨table.size⟩ : Ref) ∉ table.chain bucket := fun old =>
      Nat.lt_irrefl _ (index.slot_lt ((index.mem_chain bucket _).mp old).1)
    refine List.nodup_append.mpr ⟨simple bucket, List.nodup_singleton _, ?_⟩
    rintro ref old _ last rfl
    exact new (List.mem_singleton.mp last ▸ old)
  · exact simple bucket

theorem Indexes.simple_grow (index : table.Indexes known) (simple : table.Simple) :
    table.grow.Simple := by
  unfold UniqueTable.grow
  split
  · exact simple
  · intro bucket
    rw [chain_rehash table (Nat.mul_pos Nat.two_pos index.bucketCount_pos)]
    exact List.nodup_reverse.mpr ((index.indexed_nodup simple).filter _)

end Known

/-! ## Calls -/

/-- The table lists the calls that made its cells, in chains as they should be. -/
structure Tidy [BEq α] (table : UniqueTable α) (made : List (Call α)) : Prop extends
    table.Lists made where
  simple : table.Simple
  isCount : IsBucketCount table.bucketCount
  hashed_eq : table.hashed = made.countP Call.isPut

namespace Tidy

variable [BEq α] {table : UniqueTable α} {made : List (Call α)}

theorem empty (bits : Nat) : (UniqueTable.empty bits : UniqueTable α).Tidy [] where
  toLists := .empty bits
  simple := simple_empty bits
  isCount := isBucketCount_empty bits
  hashed_eq := rfl

variable [EquivBEq α] [LawfulHashable α]

theorem perform (tidy : table.Tidy made) (call : Call α) :
    (UniqueTable.perform table call).2.Tidy (search made call).2 := by
  have lists := (tidy.toLists.perform call).2
  cases call with
  | add value =>
      refine ⟨lists, tidy.simple, tidy.isCount, ?_⟩
      have counted : table.hashed = (made ++ [Call.add value]).countP Call.isPut := by
        rw [tidy.hashed_eq, List.countP_append]
        rfl
      exact counted
  | put value =>
      cases found : made.findIdx? (Call.puts value) with
      | some place =>
          obtain ⟨other, entry, equal⟩ := exists_put_of_findIdx? found
          rw [UniqueTable.perform, tidy.put_of_entry entry equal, search_put_of_some found]
          exact tidy
      | none =>
          have missing := tidy.find?_of_findIdx? found
          rw [UniqueTable.perform, put_of_none missing] at lists ⊢
          refine ⟨lists, ?_, ?_, ?_⟩
          · have appended := tidy.index.simple_append tidy.simple value
            exact (tidy.index.append missing).simple_grow appended
          · exact isBucketCount_grow ((bucketCount_append table value).symm ▸ tidy.isCount)
          · rw [hashed_insertNew, tidy.hashed_eq, search_put_of_none found, List.countP_append]
            rfl

end Tidy

end DecisionDiagram.UniqueTable
