import DecisionDiagram.ComputedKey
import DecisionDiagram.Proofs.Arena.Rename
import DecisionDiagram.Proofs.Arena.Restrict

/-!
# Settled results

A result is settled for a key if the algorithm of the key, run on the arena as it
is, gives the result and stores nothing. What has run is settled afterwards, and
settled results stay settled while the arena grows.
-/

namespace DecisionDiagram.Arena

/-- The operation of the key has the result and needs no new node for it. -/
def Settled (arena : Arena) : ComputedKey → Ref → Prop
  | .apply op p q, ref =>
      p.slot ≤ q.slot ∧ (∃ a b, arena.Holds p a ∧ arena.Holds q b ∧ Node.topVar? a b ≠ none) ∧
        arena.Applies op p q ref arena
  | .restrict f var value, ref =>
      (∃ top high low, arena.Holds f (.decision top high low) ∧ top < var) ∧
        arena.Restricts var value f ref arena
  | .rename copy f, ref =>
      (∃ var high low, arena.Holds f (.decision var high low)) ∧ arena.Renames copy f ref arena

namespace Settled

variable {arena later : Arena} {ref : Ref}

theorem extend {key : ComputedKey} (settled : arena.Settled key ref) (proper : arena.Proper)
    (properLater : later.Proper) (grown : arena.Extends later) : later.Settled key ref := by
  cases key with
  | apply op p q =>
      obtain ⟨le, ⟨a, b, holdsP, holdsQ, split⟩, applies⟩ := settled
      exact ⟨le, ⟨a, b, grown _ _ holdsP, grown _ _ holdsQ, split⟩,
        applies.again proper properLater grown⟩
  | restrict f var value =>
      obtain ⟨⟨top, high, low, holds, lt⟩, restricts⟩ := settled
      exact ⟨⟨top, high, low, grown _ _ holds, lt⟩, restricts.again proper properLater grown⟩
  | rename copy f =>
      obtain ⟨⟨var, high, low, holds⟩, renames⟩ := settled
      exact ⟨⟨var, high, low, grown _ _ holds⟩, renames.again proper properLater grown⟩

/-! ## Connectives -/

theorem applies {op : Connective} {p q : Ref} (settled : arena.Settled (.ofApply op p q) ref) :
    arena.Applies op p q ref arena := by
  unfold ComputedKey.ofApply at settled
  split at settled
  · exact settled.2.2
  · exact settled.2.2.flip

/-- The key puts the operands in order, which flips the connective with them. -/
theorem of_applies {op : Connective} {p q : Ref} {a b : Node} (proper : arena.Proper)
    (holdsP : arena.Holds p a) (holdsQ : arena.Holds q b) (split : Node.topVar? a b ≠ none)
    (applies : arena.Applies op p q ref later) : later.Settled (.ofApply op p q) ref := by
  have yields := applies.yields proper
  have again := applies.again proper yields.proper (.refl later)
  have stillP := yields.grown _ _ holdsP
  have stillQ := yields.grown _ _ holdsQ
  unfold ComputedKey.ofApply
  split
  next le => exact ⟨le, ⟨a, b, stillP, stillQ, split⟩, again⟩
  next gt =>
    have flipped : Node.topVar? b a ≠ none := Node.topVar?_comm a b ▸ split
    exact ⟨Nat.le_of_not_le gt, ⟨b, a, stillQ, stillP, flipped⟩, again.flip⟩

/-! ## Restriction and renaming -/

theorem of_restricts {f high low : Ref} {var top : Nat} {value : Bool} (proper : arena.Proper)
    (holds : arena.Holds f (.decision top high low)) (lt : top < var)
    (restricts : arena.Restricts var value f ref later) :
    later.Settled (.restrict f var value) ref := by
  have yields := restricts.yields proper
  exact ⟨⟨top, high, low, yields.grown _ _ holds, lt⟩,
    restricts.again proper yields.proper (.refl later)⟩

theorem of_renames {copy : StateCopy} {f high low : Ref} {var : Nat} (proper : arena.Proper)
    (holds : arena.Holds f (.decision var high low))
    (renames : arena.Renames copy f ref later) : later.Settled (.rename copy f) ref := by
  have yields := renames.yields proper
  exact ⟨⟨var, high, low, yields.grown _ _ holds⟩,
    renames.again proper yields.proper (.refl later)⟩

end Settled

end DecisionDiagram.Arena
