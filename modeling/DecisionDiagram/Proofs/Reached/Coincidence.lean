import DecisionDiagram.Proofs.Reached.Connectives

/-!
# Operations that bring the same reference

A reference represents its function for good: operations and whole histories keep
a manager sound and only extend its arena. Hence two operations that compute one
function bring one reference, whichever is done first and whatever is done in
between.
-/

namespace DecisionDiagram

open Manager

theorem Operation.run_kept {m : Manager} (sound : m.Sound) (history : List Operation) :
    (Operation.run history m).2.Sound ∧
      m.arena.Extends (Operation.run history m).2.arena := by
  induction history generalizing m with
  | nil => exact ⟨sound, .refl _⟩
  | cons op rest ih =>
      obtain ⟨soundLast, grown⟩ := ih (sound.operated op)
      exact ⟨soundLast, (sound.extends_operated op).trans grown⟩

namespace Manager

theorem Steady.kept {α : Type} {x : ManagerM α} (steady : Steady x) {m later : Manager} {a : α}
    (sound : m.Sound) (run : x m = .ok a later) :
    later.Sound ∧ m.arena.Extends later.arena := by
  have alike := steady m m (.refl sound)
  rw [run] at alike
  cases alike with
  | ok _ twin grown => exact ⟨twin.left, grown⟩

theorem Represents.extend {m later : Manager} {ref : Ref} {φ : (Nat → Bool) → Bool}
    (represents : m.Represents ref φ) (sound : m.Sound) (grown : m.arena.Extends later.arena) :
    later.Represents ref φ :=
  .of_denotes ((sound.denotes_of_represents represents).extend grown)

/-- What is computed from a computed diagram is computed from its function. -/
theorem Computes.bind {x : ManagerM Ref} {next : Ref → ManagerM Ref} {m : Manager}
    {φ ψ : (Nat → Bool) → Bool} (computes : Computes x m φ) (sound : m.Sound) (steady : Steady x)
    (rest : ∀ {ref later}, later.Sound → later.Represents ref φ → Computes (next ref) later ψ) :
    Computes (x >>= next) m ψ := by
  obtain ⟨ref, later, run, represents, kept⟩ := computes
  obtain ⟨soundLater, _⟩ := steady.kept sound run
  obtain ⟨result, last, runRest, representsResult, keptRest⟩ := rest soundLater represents
  refine ⟨result, last, (bind_ok run).trans runRest, representsResult, ?_⟩
  exact fun other χ before => keptRest other χ (kept other χ before)

/-- The first operation brings a reference that the second brings after any history. -/
def Repeats (x y : ManagerM Ref) (m : Manager) : Prop :=
  ∀ history, ∃ ref middle later, x m = .ok ref middle ∧
    y (Operation.run history middle).2 = .ok ref later

/-- The operations bring the same reference, whichever of them is done first. -/
def Coincide (x y : ManagerM Ref) (m : Manager) : Prop :=
  Repeats x y m ∧ Repeats y x m

theorem Sound.repeats {m : Manager} (sound : m.Sound) {x y : ManagerM Ref} (steadyX : Steady x)
    (steadyY : Steady y) {φ : (Nat → Bool) → Bool} (computesX : Computes x m φ)
    (computesY : ∀ {later}, later.Sound → m.arena.Extends later.arena → Computes y later φ) :
    Repeats x y m := by
  intro history
  obtain ⟨ref, middle, run, represents, _⟩ := computesX
  obtain ⟨soundMiddle, grown⟩ := steadyX.kept sound run
  obtain ⟨soundLast, grownLast⟩ := Operation.run_kept soundMiddle history
  obtain ⟨other, later, runOther, representsOther, kept⟩ :=
    computesY soundLast (grown.trans grownLast)
  obtain ⟨soundLater, _⟩ := steadyY.kept soundLast runOther
  have still := kept ref φ (represents.extend soundMiddle grownLast)
  obtain rfl : ref = other := soundLater.ref_eq still representsOther fun _ => rfl
  exact ⟨ref, middle, later, run, runOther⟩

/-- Operations coincide that compute the same function from now on. -/
theorem Sound.coincide {m : Manager} (sound : m.Sound) {x y : ManagerM Ref} (steadyX : Steady x)
    (steadyY : Steady y) {φ : (Nat → Bool) → Bool}
    (computesX : ∀ {later}, later.Sound → m.arena.Extends later.arena → Computes x later φ)
    (computesY : ∀ {later}, later.Sound → m.arena.Extends later.arena → Computes y later φ) :
    Coincide x y m :=
  ⟨sound.repeats steadyX steadyY (computesX sound (.refl _)) computesY,
    sound.repeats steadyY steadyX (computesY sound (.refl _)) computesX⟩

/-- Operations coincide that compute one function of a diagram wherever it stands for its own. -/
theorem Sound.coincide_of_represents {m : Manager} (sound : m.Sound) {f : Ref}
    {φ : (Nat → Bool) → Bool} (represents : m.Represents f φ) {x y : ManagerM Ref}
    (steadyX : Steady x) (steadyY : Steady y) {ψ : (Nat → Bool) → Bool}
    (computesX : ∀ {later}, later.Sound → later.Represents f φ → Computes x later ψ)
    (computesY : ∀ {later}, later.Sound → later.Represents f φ → Computes y later ψ) :
    Coincide x y m :=
  sound.coincide steadyX steadyY
    (fun soundLater grown => computesX soundLater (represents.extend sound grown))
    (fun soundLater grown => computesY soundLater (represents.extend sound grown))

end Manager

end DecisionDiagram
