import DecisionDiagram.Proofs.Reached.Canonicity

/-!
# Connectives in reached managers

An operation computes a function if it succeeds with a reference that represents
the function and all other references keep theirs. Applying a connective computes
the connective of the functions of its operands, whatever the manager remembers.
-/

namespace DecisionDiagram

namespace Connective

theorem eval_xor (x y : Bool) : Connective.xor.eval x y = (x ^^ y) := by
  cases x <;> cases y <;> rfl

theorem eval_eq (x y : Bool) : Connective.eq.eval x y = (x == y) := by
  cases x <;> cases y <;> rfl

end Connective

namespace Manager

/-- The operation succeeds with a diagram of the function and changes no other function. -/
def Computes (x : ManagerM Ref) (m : Manager) (φ : (Nat → Bool) → Bool) : Prop :=
  ∃ ref later, x m = .ok ref later ∧ later.Represents ref φ ∧
    ∀ other ψ, m.Represents other ψ → later.Represents other ψ

theorem Computes.congr {x : ManagerM Ref} {m : Manager} {φ ψ : (Nat → Bool) → Bool}
    (computes : Computes x m φ) (same : ∀ a, φ a = ψ a) : Computes x m ψ := by
  cases funext same
  exact computes

theorem Performs.computes {x : ManagerM Ref} {m : Manager} {step : Arena → Ref → Arena → Prop}
    (performs : Performs x m step) (sound : m.Sound) {φ : (Nat → Bool) → Bool}
    (grown : ∀ {ref later}, step m.arena ref later → m.arena.Extends later)
    (denotes : ∀ {ref later}, step m.arena ref later → later.Denotes ref φ) :
    Computes x m φ := by
  obtain ⟨ref, later, run, _, done⟩ := performs
  refine ⟨ref, later, run, .of_denotes (denotes done), ?_⟩
  intro other ψ represents
  exact .of_denotes ((sound.denotes_of_represents represents).extend (grown done))

theorem computes_apply {m : Manager} (sound : m.Sound) (op : Connective) {p q : Ref}
    {φ ψ : (Nat → Bool) → Bool} (first : m.Represents p φ) (second : m.Represents q ψ) :
    Computes (apply op p q) m fun a => op.eval (φ a) (ψ a) := by
  obtain ⟨a, holdsP⟩ := resident_iff.mp first.1
  obtain ⟨b, holdsQ⟩ := resident_iff.mp second.1
  refine (sound.apply op holdsP holdsQ).computes sound ?_ ?_
  · intro ref later applies
    exact (applies.yields sound.proper).grown
  · intro ref later applies
    exact applies.denotes sound.proper (sound.denotes_of_represents first)
      (sound.denotes_of_represents second)

theorem represents_leaf {m : Manager} (sound : m.Sound) (value : Bool) :
    m.Represents (Ref.ofBool value) fun _ => value :=
  .of_denotes (.leaf (sound.proper.leaf value))

theorem computes_neg {m : Manager} (sound : m.Sound) {f : Ref} {φ : (Nat → Bool) → Bool}
    (represents : m.Represents f φ) : Computes (neg f) m fun a => !φ a := by
  refine (computes_apply sound .imply represents (represents_leaf sound false)).congr fun a => ?_
  rw [Connective.eval_imply, Bool.or_false]

/--
In a reached manager and on references with nodes, all connectives compute their functions, among
them the ones with names.
-/
theorem Reached.connectives {m : Manager} (reached : m.Reached) {p q : Ref}
    (insideP : m.Resident p) (insideQ : m.Resident q) :
    ∃ φ ψ : (Nat → Bool) → Bool, m.Represents p φ ∧ m.Represents q ψ ∧
      (∀ op : Connective, Computes (apply op p q) m fun a => op.eval (φ a) (ψ a)) ∧
      Computes (neg p) m (fun a => !φ a) ∧
      Computes (conj p q) m (fun a => φ a && ψ a) ∧
      Computes (disj p q) m (fun a => φ a || ψ a) ∧
      Computes (apply .xor p q) m (fun a => φ a ^^ ψ a) ∧
      Computes (apply .eq p q) m (fun a => φ a == ψ a) ∧
      Computes (imply p q) m (fun a => !φ a || ψ a) := by
  have sound := reached.sound
  obtain ⟨φ, first⟩ := sound.exists_represents insideP
  obtain ⟨ψ, second⟩ := sound.exists_represents insideQ
  have computes (op : Connective) := computes_apply sound op first second
  refine ⟨φ, ψ, first, second, computes, computes_neg sound first, ?_, ?_, ?_, ?_, ?_⟩
  · exact (computes .and).congr fun a => Connective.eval_and _ _
  · exact (computes .or).congr fun a => Connective.eval_or _ _
  · exact (computes .xor).congr fun a => Connective.eval_xor _ _
  · exact (computes .eq).congr fun a => Connective.eval_eq _ _
  · exact (computes .imply).congr fun a => Connective.eval_imply _ _

theorem connectives_twoLiterals :
    (twoLiterals.Resident ⟨2⟩ ∧ twoLiterals.Resident ⟨3⟩) ∧
      ∃ φ ψ : (Nat → Bool) → Bool, twoLiterals.Represents ⟨2⟩ φ ∧ twoLiterals.Represents ⟨3⟩ ψ ∧
        ∀ op : Connective, Computes (apply op ⟨2⟩ ⟨3⟩) twoLiterals fun a => op.eval (φ a) (ψ a) := by
  have inside : twoLiterals.Resident ⟨2⟩ ∧ twoLiterals.Resident ⟨3⟩ := by decide
  obtain ⟨φ, ψ, first, second, computes, _⟩ :=
    reached_twoLiterals.connectives inside.1 inside.2
  exact ⟨inside, φ, ψ, first, second, computes⟩

end Manager

end DecisionDiagram
