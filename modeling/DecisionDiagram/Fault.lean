import DecisionDiagram.Ref

/-!
# Faults

Every way in which an operation of the library can refuse its input or run out
of references is one constructor of `Fault`, named for the cause. The wording
shown to users is given once, by `Fault.message`.
-/

namespace DecisionDiagram

/-- The causes for which an operation stops without a result. -/
inductive Fault where
  /-- A decision node or a restriction was asked for at variable zero, which labels the leaves. -/
  | zeroVariable
  /-- A node was asked for whose variable does not precede those of its branches. -/
  | misordered (var high low : Nat)
  /-- A reference lies past the end of the arena. -/
  | foreignRef (ref : Ref)
  /-- Cofactors were asked for at a variable below the top one. -/
  | belowTop (var top : Nat)
  /-- A unique table was asked for with more than 31 bits. -/
  | storageBits
  /-- A computed table was asked for with more than 31 bits. -/
  | computedBits (bits : Nat)
  /-- A truth table has more than four rows. -/
  | tableTooWide
  /-- State variables are counted from one. -/
  | zeroStateVariable
  /-- The identifiers of a state variable's two copies do not fit into 32 bits. -/
  | stateVariableTooLarge (number : Nat)
  /-- An identifier below two belongs to no state variable. -/
  | untaggedIdentifier (id : Nat)
  /-- Cells are counted from one. -/
  | zeroIndex
  /-- A cell was asked for past the end; `length` counts the places from zero on. -/
  | indexOutOfBounds (length index : Nat)
  /-- A new cell was needed when all references that there are had one. -/
  | storageFull
  /-- A checked property has the value `actual` and not `expected`. -/
  | unexpected (actual expected : Bool)
  deriving DecidableEq, Repr

namespace Fault

def nonzeroMessage (rule : String) : String :=
  "assertion `left != right` failed: " ++ rule ++ "\n  left: 0\n right: 0"

def equalMessage (left right : String) : String :=
  "assertion `left == right` failed\n  left: " ++ left ++ "\n right: " ++ right

def message : Fault → String
  | zeroVariable => nonzeroMessage "Variable index should not be zero"
  | misordered var high low =>
      s!"Variable {var} must be above both branches (x{high}, x{low})"
  | foreignRef ref => s!"Reference {ref} does not belong to this manager"
  | belowTop var top => equalMessage (toString var) (toString top)
  | storageBits => "Storage bits should be in the range 0..=31"
  | computedBits bits => s!"Cache bits must be in range 0..=31, got {bits}"
  | tableTooWide => "Truth table must fit into 4 bits"
  | zeroStateVariable => nonzeroMessage "State variables must be >= 1"
  | stateVariableTooLarge number => s!"State variable {number} is too large"
  | untaggedIdentifier id => s!"Variable id {id} is not a tagged state variable"
  | zeroIndex => nonzeroMessage "Index is 0"
  | indexOutOfBounds length index =>
      s!"index out of bounds: the len is {length} but the index is {index}"
  | storageFull => "Storage is full"
  | unexpected actual expected => equalMessage (toString actual) (toString expected)

end Fault

end DecisionDiagram
