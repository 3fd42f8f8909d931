import Mathlib.Data.Set.Card
import DecisionDiagram.ComputedTable

/-!
# How a computed table is filled

A look-up that finds nothing begins a computation, and what it brings is remembered for the key of
the look-up. Computations may begin others before they are finished. A table is filled if all that
began is finished in this way, and no key was remembered twice. Then every look-up that found
nothing has made one entry, and entries are for allowed keys only.
-/

namespace DecisionDiagram.ComputedTable

variable {κ ν : Type} [Ord κ]

/--
The second table comes from the first one by look-ups and their computations. A miss is one of an
allowed key. What is computed then fills the table without this key, for which it is remembered last.
-/
inductive Fills (allowed : κ → Prop) : ComputedTable κ ν → ComputedTable κ ν → Prop where
  | refl (table : ComputedTable κ ν) : Fills allowed table table
  | hit {table later : ComputedTable κ ν} {key : κ} {result : ν}
      (found : table.entries[key]? = some result)
      (rest : Fills allowed (table.lookup key).2 later) : Fills allowed table later
  | miss {table middle later : ComputedTable κ ν} {key : κ} {result : ν} (permitted : allowed key)
      (missing : table.entries[key]? = none)
      (inner : Fills allowed (table.lookup key).2 middle)
      (pending : middle.entries[key]? = none)
      (rest : Fills allowed (middle.insert key result) later) : Fills allowed table later

theorem lookup_of_some {table : ComputedTable κ ν} {key : κ} {result : ν}
    (found : table.entries[key]? = some result) :
    (table.lookup key).2 = { table with hits := table.hits + 1 } := by
  rw [lookup, found]

theorem lookup_of_none {table : ComputedTable κ ν} {key : κ}
    (missing : table.entries[key]? = none) :
    (table.lookup key).2 = { table with misses := table.misses + 1 } := by
  rw [lookup, missing]

theorem size_insert_of_none [Std.TransOrd κ] {table : ComputedTable κ ν} {key : κ}
    (missing : table.entries[key]? = none) (result : ν) :
    (table.insert key result).size = table.size + 1 := by
  have outside : ¬ table.entries.contains key = true := by
    rw [Std.TreeMap.contains_eq_isSome_getElem?, missing]
    exact Bool.false_ne_true
  rw [size, entries_insert, Std.TreeMap.size_insert, if_neg outside, size]

/-- A table has one entry for each of its keys. -/
theorem ncard_keys [Std.TransOrd κ] [Std.LawfulEqOrd κ] (table : ComputedTable κ ν) :
    {key | key ∈ table.entries}.ncard = table.size := by
  classical
  have nodup : table.entries.keys.Nodup := by
    refine table.entries.distinct_keys.imp ?_
    rintro key _ differ rfl
    exact differ Std.ReflCmp.compare_self
  have listed : {key | key ∈ table.entries} = ↑table.entries.keys.toFinset := by
    ext key
    simp
  rw [listed, Set.ncard_coe_finset, List.toFinset_card_of_nodup nodup, Std.TreeMap.length_keys,
    size]

namespace Fills

variable {allowed other : κ → Prop} {table middle later : ComputedTable κ ν}

theorem mono (fills : Fills allowed table later) (weaker : ∀ key, allowed key → other key) :
    Fills other table later := by
  induction fills with
  | refl table => exact .refl table
  | hit found _ ih => exact .hit found ih
  | miss permitted missing _ pending _ ihInner ihRest =>
      exact .miss (weaker _ permitted) missing ihInner pending ihRest

theorem trans (first : Fills allowed table middle) (second : Fills allowed middle later) :
    Fills allowed table later := by
  induction first with
  | refl table => exact second
  | hit found _ ih => exact .hit found (ih second)
  | miss permitted missing inner pending _ _ ihRest =>
      exact .miss permitted missing inner pending (ihRest second)

variable [Std.TransOrd κ]

/-- No entry is lost, and none is given another result. -/
theorem kept (fills : Fills allowed table later) {key : κ} {result : ν}
    (found : table.entries[key]? = some result) : later.entries[key]? = some result := by
  induction fills with
  | refl table => exact found
  | hit _ _ ih => exact ih (by rwa [entries_lookup])
  | miss _ _ _ pending _ ihInner ihRest =>
      have inside := ihInner (by rwa [entries_lookup])
      refine ihRest ?_
      rw [entries_insert, Std.TreeMap.getElem?_insert]
      split
      next same =>
        -- The pending key has no entry, so it is not the one in question.
        rw [Std.TreeMap.getElem?_congr same, inside] at pending
        cases pending
      next => exact inside

/-- A key that is not allowed gets no entry. -/
theorem missing [Std.LawfulEqOrd κ] (fills : Fills allowed table later) {key : κ}
    (forbidden : ¬ allowed key) (missing : table.entries[key]? = none) :
    later.entries[key]? = none := by
  induction fills with
  | refl table => exact missing
  | hit _ _ ih => exact ih (by rwa [entries_lookup])
  | miss permitted _ _ _ _ ihInner ihRest =>
      have outside := ihInner (by rwa [entries_lookup])
      refine ihRest ?_
      rw [entries_insert, Std.TreeMap.getElem?_insert]
      split
      next same =>
        obtain rfl := Std.LawfulEqOrd.eq_of_compare same
        exact absurd permitted forbidden
      next => exact outside

/-- As many entries were made as look-ups found nothing. -/
theorem size_add_misses (fills : Fills allowed table later) :
    later.size + table.misses = table.size + later.misses := by
  induction fills with
  | refl table => rfl
  | hit found _ ih => rwa [lookup_of_some found] at ih
  | @miss table middle later key result _ missing _ pending _ ihInner ihRest =>
      rw [lookup_of_none missing] at ihInner
      rw [size_insert_of_none pending] at ihRest
      have counted : middle.size + (table.misses + 1) = table.size + middle.misses := ihInner
      have rest : later.size + middle.misses = middle.size + 1 + later.misses := ihRest
      omega

/-- No more entries were made than there are allowed keys. -/
theorem size_le [Std.LawfulEqOrd κ] {keys : Set κ} (fills : Fills (· ∈ keys) table later)
    (finite : keys.Finite) : later.size ≤ table.size + keys.ncard := by
  have known (key : κ) (inside : key ∈ later.entries) : key ∈ table.entries ∨ key ∈ keys := by
    by_contra outside
    obtain ⟨old, forbidden⟩ := not_or.mp outside
    have absent := fills.missing forbidden (Std.TreeMap.getElem?_eq_none old)
    rw [Std.TreeMap.mem_iff_isSome_getElem?, absent] at inside
    cases inside
  have finiteKeys : {key | key ∈ table.entries}.Finite :=
    table.entries.keys.finite_toSet.subset fun key inside => Std.TreeMap.mem_keys.mpr inside
  calc later.size = {key | key ∈ later.entries}.ncard := (ncard_keys later).symm
    _ ≤ ({key | key ∈ table.entries} ∪ keys).ncard :=
      Set.ncard_le_ncard known (finiteKeys.union finite)
    _ ≤ {key | key ∈ table.entries}.ncard + keys.ncard := Set.ncard_union_le _ _
    _ = table.size + keys.ncard := by rw [ncard_keys]

end Fills

end DecisionDiagram.ComputedTable
