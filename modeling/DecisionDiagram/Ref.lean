/-!
# References

A reference names one cell of a manager's arena. The two leaves live in the
first two slots of every arena, so `Ref.falseLeaf` and `Ref.trueLeaf` are
meaningful everywhere; the first decision node gets slot 2. Users see the index,
which counts cells from one.
-/

namespace DecisionDiagram

/-- The name of an arena cell, given by the number of cells before it. -/
structure Ref where
  /-- The number of cells stored before the named one. -/
  slot : Nat
  deriving DecidableEq, Repr, Inhabited

namespace Ref

def falseLeaf : Ref := ⟨0⟩

def trueLeaf : Ref := ⟨1⟩

def ofBool (value : Bool) : Ref :=
  if value then trueLeaf else falseLeaf

/-- Only the first two slots hold leaves. -/
def isLeaf (ref : Ref) : Bool :=
  decide (ref.slot < 2)

/-- The index shown to users; the first cell has index one. -/
def index (ref : Ref) : Nat :=
  ref.slot + 1

/-- Leaves are written as digits and all other references as a marked index. -/
def text (ref : Ref) : String :=
  if ref = falseLeaf then "0"
  else if ref = trueLeaf then "1"
  else s!"@{ref.index}"

instance : ToString Ref := ⟨text⟩

instance : Ord Ref := ⟨compareOn slot⟩

def comparePairs : Ref × Ref → Ref × Ref → Ordering :=
  compareLex (compareOn fun pair => pair.1.slot) (compareOn fun pair => pair.2.slot)

@[simp]
theorem slot_falseLeaf : falseLeaf.slot = 0 := rfl

@[simp]
theorem slot_trueLeaf : trueLeaf.slot = 1 := rfl

theorem slot_ofBool_lt (value : Bool) : (ofBool value).slot < 2 := by
  cases value <;> decide

theorem index_ne_zero (ref : Ref) : ref.index ≠ 0 :=
  Nat.succ_ne_zero _

theorem index_inj {p q : Ref} (same : p.index = q.index) : p = q :=
  congrArg mk (Nat.succ.inj same)

theorem isLeaf_iff (ref : Ref) : ref.isLeaf = true ↔ ∃ value, ref = ofBool value := by
  constructor
  · intro leaf
    have small : ref.slot < 2 := of_decide_eq_true leaf
    by_cases zero : ref.slot = 0
    · exact ⟨false, congrArg mk zero⟩
    · have one : ref.slot = 1 := by omega
      exact ⟨true, congrArg mk one⟩
  · rintro ⟨value, rfl⟩
    exact decide_eq_true (slot_ofBool_lt value)

end Ref

end DecisionDiagram
