import DecisionDiagram.Proofs.History

/-!
# Canonicity of reached managers

Every reference with a node represents one Boolean function, whose values are
what evaluation finds. In a reached manager no function is represented twice.
-/

namespace DecisionDiagram.Manager

def Represents (m : Manager) (ref : Ref) (φ : (Nat → Bool) → Bool) : Prop :=
  m.Resident ref ∧ ∀ a, m.evaluate ref a = .ok (φ a)

theorem Represents.of_denotes {m : Manager} {ref : Ref} {φ : (Nat → Bool) → Bool}
    (denotes : m.arena.Denotes ref φ) : m.Represents ref φ := by
  obtain ⟨tree, unfolds, _⟩ := id denotes
  exact ⟨unfolds.slot_lt, evaluate_of_denotes denotes⟩

namespace Sound

variable {m : Manager} (sound : m.Sound)
include sound

theorem denotes_of_represents {ref : Ref} {φ : (Nat → Bool) → Bool}
    (represents : m.Represents ref φ) : m.arena.Denotes ref φ := by
  obtain ⟨ψ, denotes⟩ := sound.proper.exists_denotes represents.1
  refine denotes.congr fun a => ?_
  exact Except.ok.inj ((evaluate_of_denotes denotes a).symm.trans (represents.2 a))

theorem exists_represents {ref : Ref} (inside : m.Resident ref) : ∃ φ, m.Represents ref φ := by
  obtain ⟨φ, denotes⟩ := sound.proper.exists_denotes inside
  exact ⟨φ, .of_denotes denotes⟩

/-- References that represent functions with the same values are equal. -/
theorem ref_eq {p q : Ref} {φ ψ : (Nat → Bool) → Bool} (first : m.Represents p φ)
    (second : m.Represents q ψ) (same : ∀ a, φ a = ψ a) : p = q :=
  ((sound.denotes_of_represents first).congr same).ref_eq sound.proper
    (sound.denotes_of_represents second)

end Sound

/-- In a reached manager, diagrams with equal values under all assignments have one reference. -/
theorem Reached.canonical {m : Manager} (reached : m.Reached) {p q : Ref}
    (insideP : m.Resident p) (insideQ : m.Resident q) :
    ∃ φ ψ : (Nat → Bool) → Bool, (∀ a, m.evaluate p a = .ok (φ a)) ∧
      (∀ a, m.evaluate q a = .ok (ψ a)) ∧ ((∀ a, φ a = ψ a) ↔ p = q) := by
  obtain ⟨φ, first⟩ := reached.sound.exists_represents insideP
  obtain ⟨ψ, second⟩ := reached.sound.exists_represents insideQ
  refine ⟨φ, ψ, first.2, second.2, ?_⟩
  constructor
  · exact reached.sound.ref_eq first second
  · rintro rfl a
    exact Except.ok.inj ((first.2 a).symm.trans (second.2 a))

def twoLiterals : Manager :=
  (Operation.literal 4 true).after ((Operation.literal 2 true).after (fresh 1))

theorem reached_twoLiterals : twoLiterals.Reached :=
  .operated (.operated (reached_fresh (by decide)) _) _

theorem canonical_twoLiterals :
    (twoLiterals.Resident ⟨2⟩ ∧ twoLiterals.Resident ⟨3⟩) ∧
      ∃ φ ψ : (Nat → Bool) → Bool, (∀ a, twoLiterals.evaluate ⟨2⟩ a = .ok (φ a)) ∧
        (∀ a, twoLiterals.evaluate ⟨3⟩ a = .ok (ψ a)) ∧
          ((∀ a, φ a = ψ a) ↔ (⟨2⟩ : Ref) = ⟨3⟩) := by
  have inside : twoLiterals.Resident ⟨2⟩ ∧ twoLiterals.Resident ⟨3⟩ := by decide
  exact ⟨inside, reached_twoLiterals.canonical inside.1 inside.2⟩

end DecisionDiagram.Manager
