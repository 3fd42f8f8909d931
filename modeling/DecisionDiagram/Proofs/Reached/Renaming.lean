import DecisionDiagram.Proofs.Manager.Support
import DecisionDiagram.Proofs.Reached.Coincidence

/-!
# Renaming in reached managers

Renaming computes the function of the renamed assignment, also where a diagram
holds both copies of a state variable or the variable 1. Of two renamings only
the last one counts, and renaming to the next copy is undone for diagrams of
current copies.
-/

namespace DecisionDiagram

namespace StateCopy

/-- The copy that a variable is taken to does not depend on where it was taken before. -/
theorem rename_rename (first second : StateCopy) {var : Nat} (ne : var ≠ 0) :
    second.rename (first.rename var) = second.rename var := by
  cases first <;> cases second <;> simp only [rename] <;> grind

theorem rename_current_of_even {var : Nat} (even : var % 2 = 0) :
    StateCopy.current.rename var = var := by
  rw [rename, if_neg (by omega)]
  omega

end StateCopy

namespace Manager

theorem computes_rename {m : Manager} (sound : m.Sound) (copy : StateCopy) {f : Ref}
    {φ : (Nat → Bool) → Bool} (represents : m.Represents f φ) :
    Computes (rename copy f) m fun a => φ fun var => a (copy.rename var) := by
  obtain ⟨node, holds⟩ := resident_iff.mp represents.1
  refine (sound.rename copy holds).computes sound ?_ ?_
  · intro ref later renames
    exact (renames.yields sound.proper).grown
  · intro ref later renames
    exact renames.denotes sound.proper (sound.denotes_of_represents represents)

theorem computes_rename_rename {m : Manager} (sound : m.Sound) (first second : StateCopy) {f : Ref}
    {φ : (Nat → Bool) → Bool} (represents : m.Represents f φ) :
    Computes (rename first f >>= rename second) m fun a =>
      φ fun var => a (second.rename (first.rename var)) :=
  (computes_rename sound first represents).bind sound (.rename first f)
    fun soundLater renamed => computes_rename soundLater second renamed

/-- Only the values of the variables in a diagram matter for its function. -/
theorem Represents.congr_mentions {m : Manager} (sound : m.Sound) {f : Ref}
    {φ : (Nat → Bool) → Bool} (represents : m.Represents f φ) {a b : Nat → Bool}
    (agree : ∀ var, m.arena.Mentions f var → a var = b var) : φ a = φ b :=
  (sound.denotes_of_represents represents).congr_mentions agree

/--
Renaming computes the function of the renamed assignment. The last renaming alone counts, and a
diagram of current copies comes back when it is renamed to the next copy and then again to the
current one.
-/
theorem Reached.renaming {m : Manager} (reached : m.Reached) {f : Ref} (inside : m.Resident f) :
    ∃ (φ : (Nat → Bool) → Bool) (vars : List Nat),
      m.Represents f φ ∧ m.support f = .ok vars ∧
      (∀ copy : StateCopy, Computes (rename copy f) m fun a => φ fun var => a (copy.rename var)) ∧
      (∀ first second : StateCopy,
        Coincide (rename first f >>= rename second) (rename second f) m) ∧
      ((∀ var ∈ vars, var % 2 = 0) →
        Coincide (rename .next f >>= rename .current) (pure f) m) := by
  have sound := reached.sound
  obtain ⟨φ, represents⟩ := sound.exists_represents inside
  obtain ⟨node, holds⟩ := resident_iff.mp inside
  obtain ⟨vars, listed, mem_vars⟩ := support_of_holds sound.proper holds
  have steadyTwice (first second : StateCopy) : Steady (rename first f >>= rename second) :=
    (Steady.rename first f).bind fun g => .rename second g
  refine ⟨φ, vars, represents, listed, fun copy => computes_rename sound copy represents, ?_, ?_⟩
  · intro first second
    refine sound.coincide (φ := fun a => φ fun var => a (second.rename var))
      (steadyTwice first second) (.rename second f) ?_ ?_
    · intro later soundLater grown
      have still := represents.extend sound grown
      refine (computes_rename_rename soundLater first second still).congr fun a => ?_
      refine represents.congr_mentions sound fun var mentions => ?_
      rw [StateCopy.rename_rename first second (mentions.ne_zero sound.proper)]
    · intro later soundLater grown
      exact computes_rename soundLater second (represents.extend sound grown)
  · intro even
    refine sound.coincide (φ := φ) (steadyTwice .next .current) (.pure f) ?_ ?_
    · intro later soundLater grown
      have still := represents.extend sound grown
      refine (computes_rename_rename soundLater .next .current still).congr fun a => ?_
      refine represents.congr_mentions sound fun var mentions => ?_
      rw [StateCopy.rename_rename .next .current (mentions.ne_zero sound.proper),
        StateCopy.rename_current_of_even (even var ((mem_vars var).mpr mentions))]
    · intro later _ grown
      exact ⟨f, later, rfl, represents.extend sound grown, fun _ _ same => same⟩

def bothCopies : Manager :=
  (Operation.run [.literal 3 true, .literal 3 false, .decision 2 ⟨3⟩ ⟨2⟩,
    .decision 1 ⟨4⟩ Ref.falseLeaf, .literal 2 true] (fresh 3)).2

theorem renaming_bothCopies :
    (bothCopies.Resident ⟨5⟩ ∧ ∀ first second : StateCopy,
      Coincide (rename first ⟨5⟩ >>= rename second) (rename second ⟨5⟩) bothCopies) ∧
      bothCopies.support ⟨6⟩ = .ok [2] ∧
      Coincide (rename .next ⟨6⟩ >>= rename .current) (pure ⟨6⟩) bothCopies := by
  have reached : bothCopies.Reached := (reached_fresh (by decide)).run _
  have mixed : bothCopies.Resident ⟨5⟩ := by decide
  have current : bothCopies.Resident ⟨6⟩ := by decide
  have two : (bothCopies.support ⟨6⟩).toOption = some [2] := by decide +kernel
  obtain ⟨_, _, _, _, _, lastCounts, _⟩ := reached.renaming mixed
  obtain ⟨_, vars, _, listed, _, _, restores⟩ := reached.renaming current
  rw [listed] at two
  obtain rfl : vars = [2] := Option.some.inj two
  exact ⟨⟨mixed, lastCounts⟩, listed, restores (by decide)⟩

end Manager

end DecisionDiagram
