import DecisionDiagram.Fault

/-!
# Binary connectives

A connective is given by its value on the four pairs of truth values. It is also
numbered by its truth table, a four-bit number whose most significant bit is the
value at `(false, false)` and whose least significant bit is the value at
`(true, true)`.
-/

namespace DecisionDiagram

structure Connective where
  /-- The value at `(false, false)`. -/
  ff : Bool
  /-- The value at `(false, true)`. -/
  ft : Bool
  /-- The value at `(true, false)`. -/
  tf : Bool
  /-- The value at `(true, true)`. -/
  tt : Bool
  deriving DecidableEq, Repr

namespace Connective

protected def and : Connective := ⟨false, false, false, true⟩

protected def or : Connective := ⟨false, true, true, true⟩

protected def xor : Connective := ⟨false, true, true, false⟩

protected def eq : Connective := ⟨true, false, false, true⟩

protected def imply : Connective := ⟨true, true, false, true⟩

def eval (op : Connective) : Bool → Bool → Bool
  | false, false => op.ff
  | false, true => op.ft
  | true, false => op.tf
  | true, true => op.tt

def flip (op : Connective) : Connective :=
  ⟨op.ff, op.tf, op.ft, op.tt⟩

def table (op : Connective) : Nat :=
  8 * op.ff.toNat + 4 * op.ft.toNat + 2 * op.tf.toNat + op.tt.toNat

def ofTable (table : Nat) : Except Fault Connective :=
  if table ≤ 15 then
    .ok ⟨table.testBit 3, table.testBit 2, table.testBit 1, table.testBit 0⟩
  else .error .tableTooWide

def rows (op : Connective) : List Bool :=
  [op.ff, op.ft, op.tf, op.tt]

/-- Five connectives have names of their own, and all others are named by their rows. -/
def name (op : Connective) : String :=
  if op = .and then "and"
  else if op = .or then "or"
  else if op = .xor then "xor"
  else if op = .eq then "eq"
  else if op = .imply then "imply"
  else "op" ++ String.join (op.rows.map fun row => if row then "1" else "0")

@[simp]
theorem eval_flip (op : Connective) (a b : Bool) : op.flip.eval a b = op.eval b a := by
  cases a <;> cases b <;> rfl

@[simp]
theorem flip_flip (op : Connective) : op.flip.flip = op := rfl

theorem table_lt (op : Connective) : op.table < 16 := by
  rcases op with ⟨ff, ft, tf, tt⟩
  cases ff <;> cases ft <;> cases tf <;> cases tt <;> decide

theorem ofTable_table (op : Connective) : ofTable op.table = .ok op := by
  rcases op with ⟨ff, ft, tf, tt⟩
  cases ff <;> cases ft <;> cases tf <;> cases tt <;> rfl

theorem table_injective {first second : Connective} (same : first.table = second.table) :
    first = second := by
  have equal : ofTable first.table = ofTable second.table := congrArg ofTable same
  rw [ofTable_table, ofTable_table] at equal
  exact Except.ok.inj equal

end Connective

end DecisionDiagram
