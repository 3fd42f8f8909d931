import DecisionDiagram.Proofs.Reached.Support

/-!
# One diagram, however it is made

To make a diagram anew, node by node, brings the diagram itself and leaves the manager as it is. A
choice between two diagrams is true where the chosen one is, wherever its variable stands in the
order. Composed of connectives it brings the same reference, and so does a plain decision where the
variable precedes both branches.
-/

namespace DecisionDiagram.Manager

/--
A stored diagram made anew is the diagram itself, and the manager stays as it is: its nodes, its
computed table and the counts of look-ups.
-/
theorem Reached.rebuilding {m : Manager} (reached : m.Reached) {f : Ref} (inside : m.Resident f) :
    rebuild f m = .ok f m ∧ (Operation.rebuild f).perform m = .ok (.ref f) m := by
  obtain ⟨node, holds⟩ := resident_iff.mp inside
  have run := rebuild_of_holds reached.sound holds
  refine ⟨run, ?_⟩
  rw [Operation.perform, map_eq_pure_bind, bind_ok run]
  rfl

theorem rebuilding_bothCopies :
    bothCopies.Resident ⟨5⟩ ∧ rebuild ⟨5⟩ bothCopies = .ok ⟨5⟩ bothCopies := by
  have inside : bothCopies.Resident ⟨5⟩ := by decide
  exact ⟨inside, (reached_bothCopies.rebuilding inside).1⟩

/-- A choice made of connectives: either the variable and `high`, or its negation and `low`. -/
def composition (var : Nat) (high low : Ref) : ManagerM Ref := do
  let x ← literal var true
  let onTrue ← conj x high
  let notX ← neg x
  let onFalse ← conj notX low
  disj onTrue onFalse

section Sound

variable {m : Manager} (sound : m.Sound) {high low : Ref} {S T : (Nat → Bool) → Prop}
  (describesHigh : m.Describes high S) (describesLow : m.Describes low T) {var : Nat}
  (ne : var ≠ 0)
include sound describesHigh describesLow ne

theorem builds_choose :
    Builds (choose var high low) m fun a => if a var then S a else T a := by
  obtain ⟨φ, representsHigh, sameHigh⟩ := describesHigh
  obtain ⟨ψ, representsLow, sameLow⟩ := describesLow
  obtain ⟨_, holdsHigh⟩ := resident_iff.mp representsHigh.1
  obtain ⟨_, holdsLow⟩ := resident_iff.mp representsLow.1
  have computes : Computes (choose var high low) m fun a => if a var then φ a else ψ a := by
    refine (sound.choose ne holdsHigh holdsLow).computes sound ?_ ?_
    · intro ref later chooses
      exact (chooses.yields sound.proper ne (sound.proper.admits_zero holdsHigh)).grown
    · intro ref later chooses
      exact chooses.denotes sound.proper ne (sound.denotes_of_represents representsHigh)
        (sound.denotes_of_represents representsLow)
  refine computes.builds sound (.choose var high low) fun a => ?_
  cases a var
  · exact sameLow a
  · exact sameHigh a

theorem builds_composition :
    Builds (composition var high low) m fun a => if a var then S a else T a := by
  refine (builds_literal sound ne true).bind fun soundX grownX isX => ?_
  refine (builds_conj soundX isX (describesHigh.extend sound grownX)).bind
    fun soundTrue grownTrue onTrue => ?_
  refine (builds_neg soundTrue (isX.extend soundX grownTrue)).bind
    fun soundNot grownNot notX => ?_
  have lowStill := describesLow.extend sound (grownX.trans (grownTrue.trans grownNot))
  refine (builds_conj soundNot notX lowStill).bind fun soundFalse grownFalse onFalse => ?_
  have onTrueStill := onTrue.extend soundTrue (grownNot.trans grownFalse)
  refine (builds_disj soundFalse onTrueStill onFalse).congr fun a => ?_
  cases a var <;> simp

theorem coincide_composition_choose :
    Coincide (composition var high low) (choose var high low) m :=
  coincide_of_builds sound
    (fun soundLater grown => builds_composition soundLater (describesHigh.extend sound grown)
      (describesLow.extend sound grown) ne)
    (fun soundLater grown => builds_choose soundLater (describesHigh.extend sound grown)
      (describesLow.extend sound grown) ne)

theorem coincide_composition_decision (admitsHigh : m.arena.Admits var high)
    (admitsLow : m.arena.Admits var low) :
    Coincide (composition var high low) (decision var high low) m := by
  refine coincide_of_builds sound
    (fun soundLater grown => builds_composition soundLater (describesHigh.extend sound grown)
      (describesLow.extend sound grown) ne) fun {later} soundLater grown => ?_
  -- Where the variable comes first, a plain decision is what `choose` does.
  have orders : later.arena.Orders var high low :=
    ⟨ne, admitsHigh.extend grown, admitsLow.extend grown⟩
  have same := builds_choose soundLater (describesHigh.extend sound grown)
    (describesLow.extend sound grown) ne
  rwa [Builds, Ensures, choose_of_orders orders] at same

end Sound

/--
A choice is true where the chosen branch is, whatever variables the branches test. The connectives
bring its reference, too, and that of a plain decision if the variable precedes both branches.
-/
theorem Reached.choosing {m : Manager} (reached : m.Reached) {high low : Ref}
    (insideHigh : m.Resident high) (insideLow : m.Resident low) {var : Nat} (ne : var ≠ 0) :
    ∃ φ ψ : (Nat → Bool) → Bool, m.Represents high φ ∧ m.Represents low ψ ∧
      Computes (choose var high low) m (fun a => if a var then φ a else ψ a) ∧
      Coincide (composition var high low) (choose var high low) m ∧
      (m.arena.Admits var high → m.arena.Admits var low →
        Coincide (composition var high low) (decision var high low) m) := by
  have sound := reached.sound
  obtain ⟨φ, representsHigh⟩ := sound.exists_represents insideHigh
  obtain ⟨ψ, representsLow⟩ := sound.exists_represents insideLow
  have describesHigh := representsHigh.describes
  have describesLow := representsLow.describes
  refine ⟨φ, ψ, representsHigh, representsLow, ?_, ?_, ?_⟩
  · have builds := builds_choose sound describesHigh describesLow ne
    refine (builds.congr fun a => ?_).computes sound
    cases a var <;> exact .rfl
  · exact coincide_composition_choose sound describesHigh describesLow ne
  · exact coincide_composition_decision sound describesHigh describesLow ne

theorem choosing_bothCopies :
    (bothCopies.Resident ⟨5⟩ ∧ bothCopies.Resident ⟨4⟩ ∧
      Coincide (composition 2 ⟨5⟩ ⟨4⟩) (choose 2 ⟨5⟩ ⟨4⟩) bothCopies) ∧
    (bothCopies.arena.Admits 1 ⟨4⟩ ∧ bothCopies.arena.Admits 1 ⟨2⟩ ∧
      Coincide (composition 1 ⟨4⟩ ⟨2⟩) (decision 1 ⟨4⟩ ⟨2⟩) bothCopies) := by
  have inside : bothCopies.Resident ⟨5⟩ ∧ bothCopies.Resident ⟨4⟩ ∧ bothCopies.Resident ⟨2⟩ := by
    decide
  have stored : bothCopies.table.get? ⟨4⟩ = some (.decision 2 ⟨3⟩ ⟨2⟩) ∧
      bothCopies.table.get? ⟨2⟩ = some (.decision 3 Ref.trueLeaf Ref.falseLeaf) := by decide
  have admitsHigh : bothCopies.arena.Admits 1 ⟨4⟩ := ⟨_, stored.1, rfl⟩
  have admitsLow : bothCopies.arena.Admits 1 ⟨2⟩ := ⟨_, stored.2, rfl⟩
  obtain ⟨_, _, _, _, _, twice, _⟩ :=
    reached_bothCopies.choosing inside.1 inside.2.1 (by decide : 2 ≠ 0)
  obtain ⟨_, _, _, _, _, _, first⟩ :=
    reached_bothCopies.choosing inside.2.1 inside.2.2 (by decide : 1 ≠ 0)
  exact ⟨⟨inside.1, inside.2.1, twice⟩, admitsHigh, admitsLow, first admitsHigh admitsLow⟩

end DecisionDiagram.Manager
