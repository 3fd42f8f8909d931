import Mathlib.Algebra.GroupWithZero.Nat
import Mathlib.Order.Nat
import DecisionDiagram.Proofs.UniqueTable.Buckets

/-!
# The growth of a unique table

How many buckets a table has depends on how many different values were put, and on nothing else that
its callers do. One call makes one cell at most, and the index doubles when chains get longer than
two on average; so a single doubling is enough after every call, and none happens early. There are
either the buckets of the new table or the least power of two that will do, up to the limit.
-/

namespace DecisionDiagram.UniqueTable

variable {α : Type}

/-! ## The number of buckets -/

/-- The numbers of buckets with which chains hold two cells on average at most. -/
def sufficient (cells : Nat) : Set Nat :=
  {count | count.isPowerOfTwo ∧ cells ≤ 2 * count}

theorem exists_isLeast_sufficient (cells : Nat) : ∃ least, IsLeast (sufficient cells) least := by
  classical
  have less : cells < 2 ^ cells := Nat.lt_two_pow_self
  have many : (sufficient cells).Nonempty := ⟨2 ^ cells, ⟨cells, rfl⟩, by omega⟩
  exact ⟨_, many.isLeast_natFind⟩

/-- A power of two that is less than twice another one is no larger. -/
theorem le_of_lt_double {first second : Nat} (isPower : first.isPowerOfTwo)
    (isPower' : second.isPowerOfTwo) (lt : first < 2 * second) : first ≤ second := by
  obtain ⟨j, rfl⟩ := isPower
  obtain ⟨k, rfl⟩ := isPower'
  rw [← Nat.pow_succ', Nat.pow_lt_pow_iff_right (by decide)] at lt
  exact Nat.pow_le_pow_right Nat.two_pos (Nat.le_of_lt_succ lt)

/-- There are as many buckets as chains of two cells on average need, within both limits. -/
structure Fitting (initial : Nat) (table : UniqueTable α) : Prop where
  isCount : IsBucketCount table.bucketCount
  initial_le : initial ≤ table.bucketCount
  /-- Chains hold two cells on average at most, unless there may be no more of them. -/
  enough : table.bucketCount < maxBuckets → table.hashed ≤ 2 * table.bucketCount
  /-- If there are more buckets than at first, half of them are not enough. -/
  needed : initial < table.bucketCount → table.bucketCount < table.hashed

namespace Fitting

variable {initial : Nat} {table : UniqueTable α}

theorem empty (bits : Nat) :
    Fitting (2 ^ min bits maxInitialBucketBits) (UniqueTable.empty bits : UniqueTable α) := by
  have count : (UniqueTable.empty bits : UniqueTable α).bucketCount =
      2 ^ min bits maxInitialBucketBits := by
    rw [bucketCount, UniqueTable.empty, Array.size_replicate, Nat.one_shiftLeft]
  refine ⟨isBucketCount_empty bits, Nat.le_of_eq count.symm, ?_, ?_⟩
  · exact fun _ => Nat.zero_le _
  · rw [count]
    exact fun more => absurd more (Nat.lt_irrefl _)

section Index

variable [Hashable α]

/-- One more cell takes one doubling at most. -/
theorem insertNew (fitting : table.Fitting initial) (value : α) :
    (table.insertNew value).Fitting initial := by
  obtain ⟨isCount, initial_le, enough, needed⟩ := fitting
  have pos := isCount.pos
  have hashed : (table.append value).hashed = table.hashed + 1 := rfl
  have count := bucketCount_append table value
  rw [insertNew_eq]
  by_cases stays : (table.append value).hashed ≤ 2 * (table.append value).bucketCount ∨
      maxBuckets ≤ (table.append value).bucketCount
  · rw [UniqueTable.grow, if_pos stays]
    rw [hashed, count] at stays
    constructor <;> rw [count]
    · exact isCount
    · exact initial_le
    · intro small
      exact stays.resolve_right (Nat.not_le_of_lt small)
    · intro more
      exact Nat.lt_succ_of_lt (needed more)
  · have grown : (table.append value).grow.bucketCount = 2 * table.bucketCount := by
      rw [UniqueTable.grow, if_neg stays, bucketCount_rehash, count]
    rw [hashed, count, not_or, Nat.not_le, Nat.not_le] at stays
    have before := enough stays.2
    constructor <;> rw [grown]
    · exact isCount.double stays.2
    · omega
    · rw [hashed_grow, hashed]
      omega
    · rw [hashed_grow, hashed]
      exact fun _ => stays.1

variable [BEq α]

theorem perform (fitting : table.Fitting initial) (call : Call α) :
    (UniqueTable.perform table call).2.Fitting initial := by
  cases call with
  | add value => exact ⟨fitting.isCount, fitting.initial_le, fitting.enough, fitting.needed⟩
  | put value =>
      cases found : table.find? value with
      | some ref =>
          rw [UniqueTable.perform, put_of_some found]
          exact fitting
      | none =>
          rw [UniqueTable.perform, put_of_none found]
          exact fitting.insertNew value

theorem serve (fitting : table.Fitting initial) (calls : List (Call α)) :
    (UniqueTable.serve UniqueTable.perform table calls).2.Fitting initial := by
  induction calls generalizing table with
  | nil => exact fitting
  | cons call rest ih => exact ih (fitting.perform call)

end Index

/-- The buckets are those of the new table or the fewest sufficient ones within the limit. -/
theorem bucketCount_eq (fitting : table.Fitting initial) {least : Nat}
    (isLeast : IsLeast (sufficient table.hashed) least) :
    table.bucketCount = max initial (min least maxBuckets) := by
  obtain ⟨isCount, initial_le, enough, needed⟩ := fitting
  obtain ⟨⟨isPower, leastEnough⟩, isLower⟩ := isLeast
  have upper (small : table.bucketCount < maxBuckets) : least ≤ table.bucketCount :=
    isLower ⟨isCount.1, enough small⟩
  have lower (more : initial < table.bucketCount) : table.bucketCount ≤ least :=
    le_of_lt_double isCount.1 isPower (Nat.lt_of_lt_of_le (needed more) leastEnough)
  have limit := isCount.2
  omega

end Fitting

/-! ## Different values -/

def Call.put? : Call α → Option α
  | .add _ => none
  | .put value => some value

def valuesPut (calls : List (Call α)) : List α :=
  calls.filterMap Call.put?

theorem length_valuesPut (calls : List (Call α)) :
    (valuesPut calls).length = calls.countP Call.isPut := by
  have same (call : Call α) : call.put?.isSome = call.isPut := by cases call <;> rfl
  rw [valuesPut, List.length_filterMap_eq_countP]
  exact List.countP_congr fun call _ => by rw [same]

section Search

variable [BEq α]

theorem findIdx?_puts_eq_none_iff {made : List (Call α)} {value : α} :
    made.findIdx? (Call.puts value) = none ↔ ¬ (valuesPut made).any (value == ·) := by
  rw [List.findIdx?_eq_none_iff, List.any_eq_true]
  constructor
  · rintro missing ⟨other, inside, equal⟩
    obtain ⟨call, member, isPut⟩ := List.mem_filterMap.mp inside
    cases call with
    | add _ => cases isPut
    | put content =>
        cases isPut
        exact absurd equal (by simpa [Call.puts] using missing _ member)
  · intro missing call member
    cases call with
    | add _ => rfl
    | put content =>
        refine eq_false_of_ne_true fun equal => missing ⟨content, ?_, equal⟩
        exact List.mem_filterMap.mpr ⟨_, member, rfl⟩

/-- Of equal values that are put, the list keeps the first. -/
theorem valuesPut_serve_search (made calls : List (Call α)) :
    valuesPut (serve search made calls).2 = valuesPut made ++
      ((valuesPut calls).filter fun value => !(valuesPut made).any (value == ·)).eraseDups := by
  induction calls generalizing made with
  | nil => simp [serve, valuesPut]
  | cons call rest ih =>
      change valuesPut (serve search (search made call).2 rest).2 = _
      rw [ih]
      cases call with
      | add value =>
          have added : valuesPut (made ++ [.add value]) = valuesPut made := by
            rw [valuesPut, List.filterMap_append]
            exact List.append_nil _
          rw [search, added]
          rfl
      | put value =>
          have head : valuesPut (.put value :: rest) = value :: valuesPut rest := rfl
          cases found : made.findIdx? (Call.puts value) with
          | some place =>
              have old : (valuesPut made).any (value == ·) := by
                by_contra missing
                rw [findIdx?_puts_eq_none_iff.mpr missing] at found
                cases found
              rw [search_put_of_some found, head, List.filter_cons_of_neg (by simpa using old)]
          | none =>
              have new := findIdx?_puts_eq_none_iff.mp found
              have last : valuesPut (made ++ [.put value]) = valuesPut made ++ [value] := by
                simp [valuesPut, Call.put?]
              rw [search_put_of_none found, head, List.filter_cons_of_pos (by simpa using new),
                List.eraseDups_cons, last, List.append_assoc, List.singleton_append,
                List.filter_filter]
              congr 3
              refine List.filter_congr fun other _ => ?_
              rw [List.any_append, Bool.not_or, Bool.and_comm]
              simp

end Search

/-! ## The chains -/

section Chains

variable [Hashable α] [BEq α]

/-- The chains together hold the cells that were put. -/
theorem Tidy.length_indexed {table : UniqueTable α} {made : List (Call α)}
    (tidy : table.Tidy made) : table.indexed.length = table.hashed := by
  let places := (List.range made.length).filter fun place => made[place]?.any Call.isPut
  have nodup : (places.map Ref.mk).Nodup :=
    (List.nodup_range.filter _).map fun _ _ => Ref.mk.inj
  have member (ref : Ref) : ref ∈ table.indexed ↔ ref ∈ places.map Ref.mk := by
    rw [tidy.index.mem_indexed_iff, List.mem_map]
    constructor
    · rintro ⟨value, isPut⟩
      have inside := (List.getElem?_eq_some_iff.mp isPut).1
      refine ⟨ref.slot, List.mem_filter.mpr ⟨List.mem_range.mpr inside, ?_⟩, rfl⟩
      rw [isPut]
      rfl
    · rintro ⟨place, inside, rfl⟩
      obtain ⟨call, entry, isPut⟩ := (Option.any_eq_true _ _).mp (List.mem_filter.mp inside).2
      cases call with
      | add _ => cases isPut
      | put value => exact ⟨value, entry⟩
  have same : table.indexed.Perm (places.map Ref.mk) :=
    (List.perm_ext_iff_of_nodup (tidy.index.indexed_nodup tidy.simple) nodup).mpr member
  calc table.indexed.length
      = (List.range made.length).countP fun place => made[place]?.any Call.isPut := by
        rw [same.length_eq, List.length_map, List.countP_eq_length_filter]
    _ = table.hashed := by rw [countP_range_getElem?, tidy.hashed_eq]

variable [EquivBEq α] [LawfulHashable α]

theorem Tidy.serve {table : UniqueTable α} {made : List (Call α)} (tidy : table.Tidy made)
    (calls : List (Call α)) :
    (UniqueTable.serve UniqueTable.perform table calls).2.Tidy
      (UniqueTable.serve search made calls).2 := by
  induction calls generalizing table made with
  | nil => exact tidy
  | cons call rest ih => exact ih (tidy.perform call)

/--
Whatever the calls are, there are as many buckets as a new table has, or the least power of two with
which chains of two cells on average have room for the different values put, if that is more; only
beyond the limit there are fewer, and below it chains are no longer than two on average. Equal
values have to hash equally.
-/
theorem serve_bucketCount {bits : Nat} {calls : List (Call α)} {refs : List Ref}
    {table : UniqueTable α} (served : serve perform (empty bits) calls = (refs, table)) :
    ∃ least, IsLeast {count : Nat | count.isPowerOfTwo ∧
        (valuesPut calls).eraseDups.length ≤ 2 * count} least ∧
      table.bucketCount = max (2 ^ min bits 16) (min least (2 ^ 24)) ∧
      (table.bucketCount < 2 ^ 24 →
        (table.buckets.toList.map List.length).sum ≤ 2 * table.bucketCount) := by
  have fitting := (Fitting.empty bits).serve calls
  have tidy := (Tidy.empty bits).serve calls
  rw [served] at fitting tidy
  have different : table.hashed = (valuesPut calls).eraseDups.length := by
    rw [tidy.hashed_eq, ← length_valuesPut, valuesPut_serve_search]
    simp [valuesPut]
  obtain ⟨least, isLeast⟩ := exists_isLeast_sufficient table.hashed
  refine ⟨least, different ▸ isLeast, fitting.bucketCount_eq isLeast, fun small => ?_⟩
  calc (table.buckets.toList.map List.length).sum
      = table.indexed.length := List.length_flatten.symm
    _ = table.hashed := tidy.length_indexed
    _ ≤ 2 * table.bucketCount := fitting.enough small

end Chains

theorem serve_bucketCount_crowding :
    serve perform (empty 0) crowding =
        ([⟨0⟩, ⟨1⟩, ⟨2⟩, ⟨3⟩, ⟨0⟩], (serve perform (empty 0) crowding).2) ∧
      (valuesPut crowding).eraseDups = [5, 7, 6] ∧
      IsLeast {count : Nat | count.isPowerOfTwo ∧ 3 ≤ 2 * count}
        (serve perform (empty 0) crowding).2.bucketCount := by
  have served : serve perform (empty 0) crowding =
      ([⟨0⟩, ⟨1⟩, ⟨2⟩, ⟨3⟩, ⟨0⟩], (serve perform (empty 0) crowding).2) :=
    Prod.ext (by decide) rfl
  have different : (valuesPut crowding).eraseDups = [5, 7, 6] := by decide
  have two : (serve perform (empty 0) crowding).2.bucketCount = 2 := by decide
  obtain ⟨least, isLeast, count, _⟩ := serve_bucketCount served
  obtain rfl : least = 2 := by
    rw [two, Nat.min_eq_left (by decide : 0 ≤ 16)] at count
    omega
  rw [different] at isLeast
  exact ⟨served, different, two.symm ▸ isLeast⟩

end DecisionDiagram.UniqueTable
