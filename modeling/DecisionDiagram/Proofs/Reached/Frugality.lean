import DecisionDiagram.Proofs.Arena.Paths
import DecisionDiagram.Proofs.Reached.Ensures
import DecisionDiagram.Proofs.Reached.Support

/-!
# Nothing is made in vain

Connectives and restrictions make no node but those that their result leads to, whatever the manager
remembers. What a stored reference leads to is stored as well, so that a diagram which was there
before is found without making any node.
-/

namespace DecisionDiagram.Manager

/--
The program brings a diagram of the function that leads to every node made for it. If the function
had a diagram before, it is this one, and no node is made at all.
-/
def Frugal (x : ManagerM Ref) (m : Manager) (φ : (Nat → Bool) → Bool) : Prop :=
  ∃ ref later, x m = .ok ref later ∧ later.Represents ref φ ∧
    (∀ g, later.Resident g → ¬ m.Resident g → later.arena.Leads ref g) ∧
    ∀ f, m.Represents f φ → ref = f ∧ later.arena = m.arena

theorem Frugal.congr {x : ManagerM Ref} {m : Manager} {φ ψ : (Nat → Bool) → Bool}
    (frugal : Frugal x m φ) (same : ∀ a, φ a = ψ a) : Frugal x m ψ := by
  cases funext same
  exact frugal

/-- A program that spans what it makes is frugal, since functions have one diagram. -/
theorem Performs.frugal {x : ManagerM Ref} {m : Manager} {step : Arena → Ref → Arena → Prop}
    (performs : Performs x m step) (sound : m.Sound) {φ : (Nat → Bool) → Bool}
    (computes : Computes x m φ)
    (spans : ∀ {ref later}, step m.arena ref later →
      m.arena.Extends later ∧ m.arena.Spans ref later) : Frugal x m φ := by
  obtain ⟨ref, later, run, soundLater, done⟩ := performs
  obtain ⟨other, last, runOther, represents, _⟩ := computes
  cases run.symm.trans runOther
  obtain ⟨grown, spanned⟩ := spans done
  refine ⟨ref, later, run, represents, ?_, ?_⟩
  · intro g inside new
    exact spanned g (Nat.le_of_not_lt new) inside
  · intro f before
    obtain rfl := soundLater.ref_eq represents (before.extend sound grown) fun _ => rfl
    exact ⟨rfl, spanned.eq_of_inside grown soundLater.proper before.1⟩

section Sound

variable {m : Manager} (sound : m.Sound) {p q : Ref} {φ ψ : (Nat → Bool) → Bool}
include sound

theorem frugal_apply (op : Connective) (first : m.Represents p φ) (second : m.Represents q ψ) :
    Frugal (apply op p q) m fun a => op.eval (φ a) (ψ a) := by
  obtain ⟨_, holdsP⟩ := resident_iff.mp first.1
  obtain ⟨_, holdsQ⟩ := resident_iff.mp second.1
  refine (sound.apply op holdsP holdsQ).frugal sound (computes_apply sound op first second) ?_
  intro ref later applies
  exact ⟨(applies.yields sound.proper).grown, applies.spans sound.proper⟩

theorem frugal_restrict (represents : m.Represents p φ) {var : Nat} (ne : var ≠ 0) (value : Bool) :
    Frugal (restrict p var value) m fun a => φ (Function.update a var value) := by
  obtain ⟨_, holds⟩ := resident_iff.mp represents.1
  refine (sound.restrict holds ne value).frugal sound
    (computes_restrict sound represents ne value) ?_
  intro ref later restricts
  exact ⟨(restricts.yields sound.proper).grown, restricts.spans sound.proper⟩

end Sound

/--
All connectives on stored diagrams, and all restrictions of such to a variable, are frugal: their
results lead to every node made, and results that were there before are found without any.
-/
theorem Reached.frugality {m : Manager} (reached : m.Reached) {p q : Ref}
    (insideP : m.Resident p) (insideQ : m.Resident q) :
    ∃ φ ψ : (Nat → Bool) → Bool, m.Represents p φ ∧ m.Represents q ψ ∧
      (∀ op : Connective, Frugal (apply op p q) m fun a => op.eval (φ a) (ψ a)) ∧
      ∀ var value, var ≠ 0 →
        Frugal (restrict p var value) m fun a => φ (Function.update a var value) := by
  have sound := reached.sound
  obtain ⟨φ, first⟩ := sound.exists_represents insideP
  obtain ⟨ψ, second⟩ := sound.exists_represents insideQ
  exact ⟨φ, ψ, first, second, fun op => frugal_apply sound op first second,
    fun var value ne => frugal_restrict sound first ne value⟩

/-- The conjunction of a diagram with itself is computed node by node and found to be there. -/
theorem frugality_bothCopies :
    bothCopies.Resident ⟨5⟩ ∧
      (∃ later, apply .and ⟨5⟩ ⟨5⟩ bothCopies = .ok ⟨5⟩ later ∧ later.arena = bothCopies.arena) ∧
      2 ≠ 0 ∧ ∃ φ : (Nat → Bool) → Bool, bothCopies.Represents ⟨5⟩ φ ∧
        Frugal (restrict ⟨5⟩ 2 true) bothCopies fun a => φ (Function.update a 2 true) := by
  have inside : bothCopies.Resident ⟨5⟩ := by decide
  obtain ⟨φ, ψ, first, second, applies, restricts⟩ := reached_bothCopies.frugality inside inside
  have same (a : Nat → Bool) : Connective.and.eval (φ a) (ψ a) = φ a := by
    rw [← Except.ok.inj ((first.2 a).symm.trans (second.2 a)), Connective.eval_and, Bool.and_self]
  obtain ⟨_, later, run, _, _, found⟩ := (applies .and).congr same
  obtain ⟨rfl, kept⟩ := found ⟨5⟩ first
  exact ⟨inside, ⟨later, run, kept⟩, by decide, φ, first, restricts 2 true (by decide)⟩

end DecisionDiagram.Manager
