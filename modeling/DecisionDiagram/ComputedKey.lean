import DecisionDiagram.ComputedTable
import DecisionDiagram.Connective
import DecisionDiagram.StateVariable

/-!
# Keys of the computed table

One computed table serves all memoised operations of a manager, so a key names
the operation together with its operands. The operands of a connective are kept
in the order of their slots: exchanging them and the connective's rows together
does not change the result. Keys are ordered by three numbers that identify
them.
-/

namespace DecisionDiagram

/-- A memoised operation with its operands. -/
inductive ComputedKey where
  /-- A connective on two diagrams. -/
  | apply (op : Connective) (p q : Ref)
  /-- A diagram with one variable fixed. -/
  | restrict (f : Ref) (var : Nat) (value : Bool)
  /-- A diagram with all variables taken to one copy. -/
  | rename (copy : StateCopy) (f : Ref)
  deriving DecidableEq, Repr

namespace ComputedKey

/-- The key of a connective on two operands given in either order. -/
def ofApply (op : Connective) (p q : Ref) : ComputedKey :=
  if p.slot ≤ q.slot then apply op p q else apply op.flip q p

/-- The number of the operation: the truth tables come first. -/
def kind : ComputedKey → Nat
  | apply op _ _ => op.table
  | restrict _ _ value => 16 + value.toNat
  | rename .current _ => 18
  | rename .next _ => 19

def subject : ComputedKey → Nat
  | apply _ p _ => p.slot
  | restrict f _ _ => f.slot
  | rename _ f => f.slot

def detail : ComputedKey → Nat
  | apply _ _ q => q.slot
  | restrict _ var _ => var
  | rename _ _ => 0

/-- Keys are ordered by operation, then by first and second operand. -/
def order : ComputedKey → ComputedKey → Ordering :=
  compareLex (compareOn kind) (compareLex (compareOn subject) (compareOn detail))

instance : Ord ComputedKey := ⟨order⟩

instance : Std.TransOrd ComputedKey :=
  inferInstanceAs
    (Std.TransCmp (compareLex (compareOn kind) (compareLex (compareOn subject) (compareOn detail))))

/-- The three numbers determine the key. -/
theorem eq_of_numbers {first second : ComputedKey} (kinds : first.kind = second.kind)
    (subjects : first.subject = second.subject) (details : first.detail = second.detail) :
    first = second := by
  cases first with
  | apply op p q =>
      have small := op.table_lt
      cases second with
      | apply op' p' q' =>
          obtain rfl : op = op' := Connective.table_injective kinds
          obtain rfl : p = p' := congrArg Ref.mk subjects
          obtain rfl : q = q' := congrArg Ref.mk details
          rfl
      | restrict f var value => simp only [kind] at kinds; omega
      | rename copy f => cases copy <;> simp only [kind] at kinds <;> omega
  | restrict f var value =>
      cases second with
      | apply op' p' q' =>
          have small := op'.table_lt
          simp only [kind] at kinds
          omega
      | restrict f' var' value' =>
          obtain rfl : f = f' := congrArg Ref.mk subjects
          obtain rfl : var = var' := details
          cases value <;> cases value' <;> simp [kind] at kinds ⊢
      | rename copy f' => cases copy <;> cases value <;> simp [kind] at kinds
  | rename copy f =>
      cases second with
      | apply op' p' q' =>
          have small := op'.table_lt
          cases copy <;> simp only [kind] at kinds <;> omega
      | restrict f' var' value' => cases copy <;> cases value' <;> simp [kind] at kinds
      | rename copy' f' =>
          obtain rfl : f = f' := congrArg Ref.mk subjects
          cases copy <;> cases copy' <;> simp [kind] at kinds ⊢

instance : Std.LawfulEqOrd ComputedKey where
  compare_self := Std.ReflCmp.compare_self
  eq_of_compare {first second} equal := by
    have parts := compareLex_eq_eq.mp equal
    have rest := compareLex_eq_eq.mp parts.2
    exact eq_of_numbers (Std.LawfulEqOrd.eq_of_compare parts.1)
      (Std.LawfulEqOrd.eq_of_compare rest.1) (Std.LawfulEqOrd.eq_of_compare rest.2)

end ComputedKey

end DecisionDiagram
