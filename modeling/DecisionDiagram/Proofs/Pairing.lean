import Mathlib.Algebra.Group.Nat.Defs
import Mathlib.Data.Nat.Pairing
import Mathlib.Data.Set.Function
import DecisionDiagram.Proofs.Reached.Arena

/-!
# The numbers of pairs

On words of 32 bits the pairing works as on natural numbers, because no product or sum on the way
leaves the 64 bits. The larger component of a pair is the integer square root of its number, so a
pair can be told from its number, and every word of 64 bits is the number of a pair. Pairs of
narrower words have narrower numbers. Therefore triples have different numbers, and nodes with
different parts different codes, as long as the first two components have 16 bits.
-/

namespace DecisionDiagram

namespace Pairing

def narrow (bits : Nat) : Set UInt64 :=
  {a | a.toNat < 2 ^ bits}

/-- Every product and sum on the way to the number of the pair fits into a word. -/
def NoWrap (a b : UInt64) : Prop :=
  if a < b then
    b.toNat * b.toNat < 2 ^ 64 ∧ (b * b).toNat + a.toNat < 2 ^ 64
  else
    a.toNat * a.toNat < 2 ^ 64 ∧ (a * a).toNat + a.toNat < 2 ^ 64 ∧
      (a * a + a).toNat + b.toNat < 2 ^ 64

/-- The pair that has the number, found by its integer square root. -/
def unpair (number : UInt64) : UInt64 × UInt64 :=
  let ⟨a, b⟩ := Nat.unpair number.toNat
  (.ofNat a, .ofNat b)

/-! ## Numbers of bounded length -/

/-- A number is in the shell of the larger component, so it has at most twice as many bits. -/
theorem pair_lt_two_pow_iff {a b : Nat} (bits : Nat) :
    Nat.pair a b < 2 ^ (2 * bits) ↔ a < 2 ^ bits ∧ b < 2 ^ bits := by
  have square : 2 ^ (2 * bits) = (2 ^ bits) ^ 2 := by rw [Nat.mul_comm, Nat.pow_mul]
  rw [square, ← Nat.max_lt]
  constructor
  · intro lt
    have above := Nat.max_sq_add_min_le_pair a b
    have lt' : max a b ^ 2 < (2 ^ bits) ^ 2 := by omega
    exact (Nat.pow_lt_pow_iff_left (by decide)).mp lt'
  · intro lt
    calc Nat.pair a b < (max a b + 1) ^ 2 := Nat.pair_lt_max_add_one_sq a b
      _ ≤ (2 ^ bits) ^ 2 := Nat.pow_le_pow_left lt 2

/-! ## Words without wrapping -/

theorem toNat_ofNat_of_lt {number : Nat} (small : number < 2 ^ 32) :
    (UInt64.ofNat number).toNat = number :=
  UInt64.toNat_ofNat_of_lt' (Nat.lt_trans small (by decide))

theorem ofNat_inj {m n : Nat} (first : m < 2 ^ 32) (second : n < 2 ^ 32)
    (same : UInt64.ofNat m = UInt64.ofNat n) : m = n := by
  rw [← toNat_ofNat_of_lt first, same, toNat_ofNat_of_lt second]

section Words

variable {a b : UInt64}

theorem toNat_add_of_lt (fits : a.toNat + b.toNat < 2 ^ 64) :
    (a + b).toNat = a.toNat + b.toNat := by
  rw [UInt64.toNat_add, Nat.mod_eq_of_lt fits]

theorem toNat_mul_of_lt (fits : a.toNat * b.toNat < 2 ^ 64) :
    (a * b).toNat = a.toNat * b.toNat := by
  rw [UInt64.toNat_mul, Nat.mod_eq_of_lt fits]

/-- If the number of the pair is a word, then all that was computed on the way is one. -/
theorem noWrap_of_lt (fits : Nat.pair a.toNat b.toNat < 2 ^ 64) : NoWrap a b := by
  rw [Nat.pair] at fits
  rw [NoWrap]
  by_cases lt : a < b
  · rw [if_pos (UInt64.lt_iff_toNat_lt.mp lt)] at fits
    have product : b.toNat * b.toNat < 2 ^ 64 := Nat.lt_of_add_right_lt fits
    rw [if_pos lt, toNat_mul_of_lt product]
    exact ⟨product, fits⟩
  · rw [if_neg (mt UInt64.lt_iff_toNat_lt.mpr lt)] at fits
    have sum : a.toNat * a.toNat + a.toNat < 2 ^ 64 := Nat.lt_of_add_right_lt fits
    have product : a.toNat * a.toNat < 2 ^ 64 := Nat.lt_of_add_right_lt sum
    have exactProduct := toNat_mul_of_lt product
    have exactSum : (a * a + a).toNat = a.toNat * a.toNat + a.toNat := by
      rw [toNat_add_of_lt (exactProduct ▸ sum), exactProduct]
    rw [if_neg lt, exactSum, exactProduct]
    exact ⟨product, sum, fits⟩

/-- Without wrapping, the number of a pair is the one that the natural numbers give it. -/
theorem NoWrap.toNat_pair (fits : NoWrap a b) :
    (pair a b).toNat = Nat.pair a.toNat b.toNat := by
  rw [NoWrap] at fits
  rw [pair, Nat.pair]
  by_cases lt : a < b
  · rw [if_pos lt] at fits
    rw [if_pos lt, if_pos (UInt64.lt_iff_toNat_lt.mp lt), toNat_add_of_lt fits.2,
      toNat_mul_of_lt fits.1]
  · rw [if_neg lt] at fits
    rw [if_neg lt, if_neg (mt UInt64.lt_iff_toNat_lt.mpr lt), toNat_add_of_lt fits.2.2,
      toNat_add_of_lt fits.2.1, toNat_mul_of_lt fits.1]

end Words

/-! ## Narrow words -/

section Narrow

variable {bits : Nat} {a b : UInt64}

theorem mem_narrow : a ∈ narrow bits ↔ a.toNat < 2 ^ bits := .rfl

theorem narrow_mono {more : Nat} (le : bits ≤ more) : narrow bits ⊆ narrow more :=
  fun _ inside => Nat.lt_of_lt_of_le inside (Nat.pow_le_pow_right Nat.two_pos le)

theorem ofNat_mem_narrow {number : Nat} (small : number < 2 ^ bits) :
    UInt64.ofNat number ∈ narrow bits := by
  rw [mem_narrow, UInt64.toNat_ofNat']
  exact Nat.lt_of_le_of_lt (Nat.mod_le _ _) small

theorem noWrap_of_narrow (first : a ∈ narrow 32) (second : b ∈ narrow 32) : NoWrap a b :=
  noWrap_of_lt ((pair_lt_two_pow_iff 32).mpr ⟨first, second⟩)

theorem toNat_pair_of_narrow (first : a ∈ narrow 32) (second : b ∈ narrow 32) :
    (pair a b).toNat = Nat.pair a.toNat b.toNat :=
  (noWrap_of_narrow first second).toNat_pair

theorem toNat_pair_eq (first : a ∈ narrow 32) (second : b ∈ narrow 32) :
    (pair a b).toNat =
      if a < b then b.toNat ^ 2 + a.toNat else a.toNat ^ 2 + a.toNat + b.toNat := by
  rw [toNat_pair_of_narrow first second, Nat.pair]
  simp only [UInt64.lt_iff_toNat_lt, Nat.pow_two]

theorem pair_mem_narrow (le : bits ≤ 32) (first : a ∈ narrow bits) (second : b ∈ narrow bits) :
    pair a b ∈ narrow (2 * bits) := by
  rw [mem_narrow, toNat_pair_of_narrow (narrow_mono le first) (narrow_mono le second)]
  exact (pair_lt_two_pow_iff bits).mpr ⟨first, second⟩

end Narrow

/-! ## Pairs and triples -/

theorem unpair_lt (number : UInt64) :
    (Nat.unpair number.toNat).1 < 2 ^ 32 ∧ (Nat.unpair number.toNat).2 < 2 ^ 32 := by
  rw [← pair_lt_two_pow_iff, Nat.pair_unpair]
  exact number.toNat_lt

theorem unpair_mem_narrow (number : UInt64) : unpair number ∈ narrow 32 ×ˢ narrow 32 :=
  ⟨ofNat_mem_narrow (unpair_lt number).1, ofNat_mem_narrow (unpair_lt number).2⟩

/-- Pairs of words of 32 bits and numbers of 64 bits determine each other. -/
theorem invOn_unpair :
    Set.InvOn unpair (fun p => pair p.1 p.2) (narrow 32 ×ˢ narrow 32) Set.univ := by
  constructor
  · rintro ⟨a, b⟩ ⟨first, second⟩
    simp only [unpair, toNat_pair_of_narrow first second, Nat.unpair_pair, UInt64.ofNat_toNat]
  · intro number _
    obtain ⟨first, second⟩ := unpair_mem_narrow number
    apply UInt64.toNat_inj.mp
    calc (pair (unpair number).1 (unpair number).2).toNat
        = Nat.pair (unpair number).1.toNat (unpair number).2.toNat :=
          toNat_pair_of_narrow first second
      _ = Nat.pair (Nat.unpair number.toNat).1 (Nat.unpair number.toNat).2 := by
          rw [unpair, toNat_ofNat_of_lt (unpair_lt number).1,
            toNat_ofNat_of_lt (unpair_lt number).2]
      _ = number.toNat := Nat.pair_unpair _

theorem bijOn_pair :
    Set.BijOn (fun p => pair p.1 p.2) (narrow 32 ×ˢ narrow 32) Set.univ :=
  invOn_unpair.bijOn (Set.mapsTo_univ _ _) fun number _ => unpair_mem_narrow number

/-- With one bit more, the square wraps and the number is that of another pair. -/
example : pair (2 ^ 32) 0 = pair 0 (2 ^ 16) := by decide

theorem pair_inj {a b c d : UInt64} (first : (a, b) ∈ narrow 32 ×ˢ narrow 32)
    (second : (c, d) ∈ narrow 32 ×ˢ narrow 32) (same : pair a b = pair c d) : a = c ∧ b = d :=
  Prod.mk.inj (bijOn_pair.injOn first second same)

/-- The first two components of a triple make one word of 32 bits. -/
theorem injOn_triple :
    Set.InjOn (fun t : UInt64 × UInt64 × UInt64 => triple t.1 t.2.1 t.2.2)
      (narrow 16 ×ˢ narrow 16 ×ˢ narrow 32) := by
  rintro ⟨a, b, c⟩ ⟨a_small, b_small, c_small⟩ ⟨a', b', c'⟩ ⟨a_small', b_small', c_small'⟩ same
  -- The outer pair is read back first, and the inner one from its first component.
  have joined := pair_mem_narrow (by decide) a_small b_small
  have joined' := pair_mem_narrow (by decide) a_small' b_small'
  obtain ⟨pairs, rfl⟩ := pair_inj ⟨joined, c_small⟩ ⟨joined', c_small'⟩ same
  have wider : narrow 16 ⊆ narrow 32 := narrow_mono (by decide)
  obtain ⟨rfl, rfl⟩ :=
    pair_inj ⟨wider a_small, wider b_small⟩ ⟨wider a_small', wider b_small'⟩ pairs
  rfl

end Pairing

/-! ## Codes of nodes -/

namespace Node

/-- The label and the index of the high branch have 16 bits and the index of the low branch 32. -/
structure Narrow (node : Node) : Prop where
  var_lt : node.var < 2 ^ 16
  high_lt : node.high.index < 2 ^ 16
  low_lt : node.low.index < 2 ^ 32

/-- Narrow nodes with one code have the same parts. -/
theorem Narrow.parts_eq {a b : Node} (first : a.Narrow) (second : b.Narrow)
    (same : a.code = b.code) : a.var = b.var ∧ a.high = b.high ∧ a.low = b.low := by
  have inside {node : Node} (small : node.Narrow) :
      (UInt64.ofNat node.var, UInt64.ofNat node.high.index, UInt64.ofNat node.low.index) ∈
        Pairing.narrow 16 ×ˢ Pairing.narrow 16 ×ˢ Pairing.narrow 32 :=
    ⟨Pairing.ofNat_mem_narrow small.var_lt, Pairing.ofNat_mem_narrow small.high_lt,
      Pairing.ofNat_mem_narrow small.low_lt⟩
  have words := Pairing.injOn_triple (inside first) (inside second) same
  simp only [Prod.mk.injEq] at words
  obtain ⟨vars, highs, lows⟩ := words
  have wider {number : Nat} (small : number < 2 ^ 16) : number < 2 ^ 32 :=
    Nat.lt_trans small (by decide)
  exact ⟨Pairing.ofNat_inj (wider first.var_lt) (wider second.var_lt) vars,
    Ref.index_inj (Pairing.ofNat_inj (wider first.high_lt) (wider second.high_lt) highs),
    Ref.index_inj (Pairing.ofNat_inj first.low_lt second.low_lt lows)⟩

end Node

open Pairing in
/--
The number of a pair of words of 32 bits is computed without wrapping, and every word of 64 bits is
the number of one such pair. Triples that start with two words of 16 bits have different numbers, so
narrow nodes have different codes unless their parts are the same; and in a reached manager narrow
nodes in different cells have different codes.
-/
theorem Pairing.numbering :
    (∀ a ∈ narrow 32, ∀ b ∈ narrow 32, NoWrap a b ∧
      (pair a b).toNat =
        if a < b then b.toNat ^ 2 + a.toNat else a.toNat ^ 2 + a.toNat + b.toNat) ∧
      Set.BijOn (fun p => pair p.1 p.2) (narrow 32 ×ˢ narrow 32) Set.univ ∧
      Set.InjOn (fun t : UInt64 × UInt64 × UInt64 => triple t.1 t.2.1 t.2.2)
        (narrow 16 ×ˢ narrow 16 ×ˢ narrow 32) ∧
      (∀ a b : Node, a.Narrow → b.Narrow → a.code = b.code →
        a.var = b.var ∧ a.high = b.high ∧ a.low = b.low) ∧
      ∀ m : Manager, m.Reached → ∀ p q a b, m.table.get? p = some a → m.table.get? q = some b →
        a.Narrow → b.Narrow → a.code = b.code → p = q := by
  refine ⟨?_, bijOn_pair, injOn_triple, fun _ _ => Node.Narrow.parts_eq, ?_⟩
  · intro a first b second
    exact ⟨noWrap_of_narrow first second, toNat_pair_eq first second⟩
  · intro m reached p q a b storedP storedQ first second same
    obtain ⟨vars, highs, lows⟩ := first.parts_eq second same
    have proper := reached.sound.proper
    obtain rfl := proper.node_eq_of_parts storedP storedQ vars highs lows
    exact proper.unique storedP storedQ

open Pairing Manager in
theorem Pairing.numbering_twoLiterals :
    (0xFFFFFFFF ∈ narrow 32 ∧ (pair 0xFFFFFFFF 0xFFFFFFFF).toNat = 2 ^ 64 - 1) ∧
      ∃ a b : Node, twoLiterals.table.get? ⟨2⟩ = some a ∧ twoLiterals.table.get? ⟨3⟩ = some b ∧
        a.Narrow ∧ b.Narrow ∧ a.code ≠ b.code := by
  obtain ⟨computed, _, _, _, different⟩ := numbering
  have widest : 0xFFFFFFFF ∈ narrow 32 := mem_narrow.mpr (by decide)
  have first : (Node.decision 2 Ref.trueLeaf Ref.falseLeaf).Narrow :=
    ⟨by decide, by decide, by decide⟩
  have second : (Node.decision 4 Ref.trueLeaf Ref.falseLeaf).Narrow :=
    ⟨by decide, by decide, by decide⟩
  refine ⟨⟨widest, (computed _ widest _ widest).2⟩, _, _, by decide, by decide, first, second, ?_⟩
  intro same
  have equal := different twoLiterals reached_twoLiterals ⟨2⟩ ⟨3⟩ _ _ (by decide) (by decide) first
    second same
  exact absurd equal (by decide)

end DecisionDiagram
