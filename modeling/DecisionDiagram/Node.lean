import DecisionDiagram.Ref

/-!
# Nodes

A node is a leaf with a truth value or a decision on a variable with a branch
for each value of the variable. Leaves count as labelled by variable zero and as
their own branches, which fixes their hash; no decision is labelled zero.

Hashes are numbers of pairs. A pairing numbers the pairs of words shell by
shell: the pairs whose larger component is `n` come right after those with
smaller components. Words wrap around, since the numbers only serve to spread
nodes over buckets; no wrap happens while both components are below `2 ^ 32`.
-/

namespace DecisionDiagram

/-! ## Pairing -/

namespace Pairing

/-- The number of a pair: its place in its shell after the squares of the smaller shells. -/
def pair (a b : UInt64) : UInt64 :=
  if a < b then b * b + a else a * a + a + b

def triple (a b c : UInt64) : UInt64 :=
  pair (pair a b) c

end Pairing

/-! ## Cells -/

inductive Node where
  | leaf (value : Bool)
  | decision (var : Nat) (high low : Ref)
  deriving DecidableEq, Repr

namespace Node

def var : Node → Nat
  | leaf _ => 0
  | decision var _ _ => var

def high : Node → Ref
  | leaf value => Ref.ofBool value
  | decision _ high _ => high

def low : Node → Ref
  | leaf value => Ref.ofBool value
  | decision _ _ low => low

def value? : Node → Option Bool
  | leaf value => some value
  | decision .. => none

/-- The truth value of a leaf; decisions carry false. -/
def value : Node → Bool
  | leaf value => value
  | decision .. => false

def isLeaf : Node → Bool
  | leaf _ => true
  | decision .. => false

/-- The hash pairs the label with the indices of both branches. -/
def code (node : Node) : UInt64 :=
  Pairing.triple (.ofNat node.var) (.ofNat node.high.index) (.ofNat node.low.index)

instance : Hashable Node := ⟨code⟩

/-- Whether a decision on `var` may have the node as a branch. -/
def admits (var : Nat) : Node → Bool
  | leaf _ => true
  | decision top _ _ => decide (var < top)

/-- Both branches lie in cells before the given one. -/
def Below (ref : Ref) : Node → Prop
  | leaf _ => True
  | decision _ high low => high.slot < ref.slot ∧ low.slot < ref.slot

instance (ref : Ref) (node : Node) : Decidable (node.Below ref) :=
  match node with
  | leaf _ => inferInstanceAs (Decidable True)
  | decision _ high low =>
      inferInstanceAs (Decidable (high.slot < ref.slot ∧ low.slot < ref.slot))

theorem high_slot_lt {ref high low : Ref} {var : Nat}
    (below : (decision var high low).Below ref) : high.slot < ref.slot :=
  below.1

theorem low_slot_lt {ref high low : Ref} {var : Nat}
    (below : (decision var high low).Below ref) : low.slot < ref.slot :=
  below.2

/-! ## Cofactors -/

/-- The node of reference `ref` with the variable fixed, if it is the top one. -/
def cofactor (var : Nat) (value : Bool) (ref : Ref) : Node → Ref
  | leaf _ => ref
  | decision top high low => if var = top then (if value then high else low) else ref

/-- The smaller of the labels of two nodes, unless both are leaves. -/
def topVar? : Node → Node → Option Nat
  | leaf _, leaf _ => none
  | leaf _, decision w _ _ => some w
  | decision v _ _, leaf _ => some v
  | decision v _ _, decision w _ _ => some (min v w)

theorem cofactor_slot_le {node : Node} {ref : Ref} (below : node.Below ref) (var : Nat)
    (value : Bool) : (node.cofactor var value ref).slot ≤ ref.slot := by
  cases node with
  | leaf _ => exact Nat.le_refl _
  | decision top high low =>
      rw [cofactor]
      split
      · cases value
        · exact Nat.le_of_lt below.2
        · exact Nat.le_of_lt below.1
      · exact Nat.le_refl _

theorem cofactor_slot_lt {top : Nat} {high low ref : Ref}
    (below : (decision top high low).Below ref) (value : Bool) :
    ((decision top high low).cofactor top value ref).slot < ref.slot := by
  cases value
  · simpa [cofactor] using below.2
  · simpa [cofactor] using below.1

/-- Splitting two nodes on the smaller of their labels moves at least one of them down. -/
theorem cofactors_slot_lt {a b : Node} {p q : Ref} {var : Nat} (below_p : a.Below p)
    (below_q : b.Below q) (split : topVar? a b = some var) (value : Bool) :
    (a.cofactor var value p).slot + (b.cofactor var value q).slot < p.slot + q.slot := by
  have le_p := cofactor_slot_le below_p var value
  have le_q := cofactor_slot_le below_q var value
  cases a with
  | leaf _ =>
      cases b with
      | leaf _ => simp [topVar?] at split
      | decision w high low =>
          obtain rfl : w = var := by simpa [topVar?] using split
          have lt_q := cofactor_slot_lt below_q value
          omega
  | decision v high low =>
      cases b with
      | leaf _ =>
          obtain rfl : v = var := by simpa [topVar?] using split
          have lt_p := cofactor_slot_lt below_p value
          omega
      | decision w _ _ =>
          have smaller : min v w = var := by simpa [topVar?] using split
          by_cases first : v ≤ w
          · obtain rfl : v = var := by omega
            have lt_p := cofactor_slot_lt below_p value
            omega
          · obtain rfl : w = var := by omega
            have lt_q := cofactor_slot_lt below_q value
            omega

end Node

end DecisionDiagram
