import DecisionDiagram.Counter.Model
import DecisionDiagram.Proofs.Reached.Support

/-!
# Images and preimages

States are assignments of the current copies, and a step joins the state before it with the state
after it. The image of a set under a relation consists of the states after the steps from the set,
the preimage of those before the steps into it. Both diagrams are about the current copies only,
although they are made by way of the next copies.
-/

namespace DecisionDiagram.Counter

open Manager

def IsCurrent (bits var : Nat) : Prop :=
  ∃ bit < bits, var = currentVar bit

def IsCopy (bits var : Nat) : Prop :=
  ∃ bit < bits, var = currentVar bit ∨ var = nextVar bit

/-- The step from one state to another: the next copies are as the current ones in the second. -/
def join (before after : Nat → Bool) : Nat → Bool :=
  fun var => if var % 2 = 0 then before var else after (var - 1)

def preimage (bits : Nat) (steps states : Ref) : ManagerM Ref := do
  let later ← rename .next states
  let taken ← conj steps later
  existsVars taken ((List.range bits).map nextVar)

/-! ## Variables -/

theorem mem_currentVars {bits var : Nat} :
    var ∈ (List.range bits).map currentVar ↔ IsCurrent bits var := by
  simp [IsCurrent, eq_comm]

theorem mem_nextVars {bits var : Nat} :
    var ∈ (List.range bits).map nextVar ↔ ∃ bit < bits, var = nextVar bit := by
  simp [eq_comm]

theorem currentVar_ne_zero (bit : Nat) : currentVar bit ≠ 0 :=
  Nat.mul_ne_zero (by decide) (Nat.succ_ne_zero bit)

theorem nextVar_ne_zero (bit : Nat) : nextVar bit ≠ 0 :=
  Nat.succ_ne_zero _

theorem isCurrent_currentVar {bits bit : Nat} (lt : bit < bits) :
    IsCurrent bits (currentVar bit) :=
  ⟨bit, lt, rfl⟩

theorem not_isCurrent_nextVar (bits bit : Nat) : ¬ IsCurrent bits (nextVar bit) := by
  rintro ⟨other, _, same⟩
  simp only [nextVar, currentVar] at same
  omega

theorem rename_current_nextVar (bit : Nat) :
    StateCopy.current.rename (nextVar bit) = currentVar bit := by
  have ne : nextVar bit ≠ 1 := by simp [nextVar]
  rw [StateCopy.rename, if_neg ne]
  simp only [nextVar, currentVar]
  omega

theorem rename_next_currentVar (bit : Nat) :
    StateCopy.next.rename (currentVar bit) = nextVar bit := by
  simp only [StateCopy.rename, nextVar, currentVar]
  omega

@[simp]
theorem join_currentVar (before after : Nat → Bool) (bit : Nat) :
    join before after (currentVar bit) = before (currentVar bit) := by
  rw [join, if_pos (by simp [currentVar])]

@[simp]
theorem join_nextVar (before after : Nat → Bool) (bit : Nat) :
    join before after (nextVar bit) = after (currentVar bit) := by
  have odd : ¬ nextVar bit % 2 = 0 := by simp only [nextVar]; omega
  rw [join, if_neg odd]
  rfl

/-- A relation between the copies does not distinguish assignments that agree on both copies. -/
theorem iff_of_copies {bits : Nat} {T : (Nat → Bool) → Prop} (decided : DecidedBy (IsCopy bits) T)
    {a b : Nat → Bool} (current : ∀ bit < bits, a (currentVar bit) = b (currentVar bit))
    (next : ∀ bit < bits, a (nextVar bit) = b (nextVar bit)) : T a ↔ T b := by
  refine decided a b ?_
  rintro var ⟨bit, lt, rfl | rfl⟩
  · exact current bit lt
  · exact next bit lt

theorem iff_of_current {bits : Nat} {S : (Nat → Bool) → Prop}
    (decided : DecidedBy (IsCurrent bits) S) {a b : Nat → Bool}
    (current : ∀ bit < bits, a (currentVar bit) = b (currentVar bit)) : S a ↔ S b := by
  refine decided a b ?_
  rintro var ⟨bit, lt, rfl⟩
  exact current bit lt

/-! ## Sets of states -/

def After (S T : (Nat → Bool) → Prop) (after : Nat → Bool) : Prop :=
  ∃ before, S before ∧ T (join before after)

def Before (T S : (Nat → Bool) → Prop) (before : Nat → Bool) : Prop :=
  ∃ after, T (join before after) ∧ S after

variable {bits : Nat} {S T U : (Nat → Bool) → Prop}

theorem decidedBy_after (decided : DecidedBy (IsCopy bits) T) :
    DecidedBy (IsCurrent bits) (After S T) := by
  intro a b agree
  refine exists_congr fun before => and_congr_right fun _ => iff_of_copies decided ?_ ?_
  · intro bit lt
    simp
  · intro bit lt
    simpa using agree _ (isCurrent_currentVar lt)

theorem decidedBy_before (decided : DecidedBy (IsCopy bits) T) :
    DecidedBy (IsCurrent bits) (Before T S) := by
  intro a b agree
  refine exists_congr fun after => and_congr_left fun _ => iff_of_copies decided ?_ ?_
  · intro bit lt
    simpa using agree _ (isCurrent_currentVar lt)
  · intro bit lt
    simp

theorem after_meets_iff : (∃ t, After S T t ∧ U t) ↔ ∃ s, S s ∧ Before T U s := by
  constructor
  · rintro ⟨t, ⟨s, holds, step⟩, met⟩
    exact ⟨s, holds, t, step, met⟩
  · rintro ⟨s, holds, t, step, met⟩
    exact ⟨t, ⟨s, holds, step⟩, met⟩

/-! ## Programs -/

section Programs

variable {m : Manager} (sound : m.Sound) {steps states : Ref}
include sound

theorem builds_image (describesSteps : m.Describes steps T) (describes : m.Describes states S)
    (decidedSteps : DecidedBy (IsCopy bits) T) (decided : DecidedBy (IsCurrent bits) S) :
    Builds (image bits steps states) m (After S T) := by
  refine (builds_conj sound describes describesSteps).bind fun soundTaken _ taken => ?_
  have nonzero : ∀ var ∈ (List.range bits).map currentVar, var ≠ 0 := by
    rintro var inside
    obtain ⟨bit, _, rfl⟩ := mem_currentVars.mp inside
    exact currentVar_ne_zero bit
  refine (builds_existsVars soundTaken taken nonzero).bind fun soundLater _ free => ?_
  refine (builds_rename soundLater free .current).congr fun a => ?_
  simp only [mem_currentVars]
  -- The freed assignment holds the state before the step in its current copies and the state after
  -- it in its next copies, where the renamed assignment keeps it.
  constructor
  · rintro ⟨b, outside, holds, step⟩
    refine ⟨b, holds, (iff_of_copies decidedSteps ?_ ?_).mp step⟩
    · intro bit lt
      simp
    · intro bit lt
      rw [outside _ (not_isCurrent_nextVar bits bit), rename_current_nextVar, join_nextVar]
  · rintro ⟨before, holds, step⟩
    classical
    refine ⟨fun var => if IsCurrent bits var then before var else a (StateCopy.current.rename var),
      fun var outside => if_neg outside, (iff_of_current decided ?_).mp holds,
      (iff_of_copies decidedSteps ?_ ?_).mp step⟩
    · intro bit lt
      rw [if_pos (isCurrent_currentVar lt)]
    · intro bit lt
      rw [if_pos (isCurrent_currentVar lt), join_currentVar]
    · intro bit lt
      rw [if_neg (not_isCurrent_nextVar bits bit), rename_current_nextVar, join_nextVar]

theorem builds_preimage (describesSteps : m.Describes steps T) (describes : m.Describes states S)
    (decidedSteps : DecidedBy (IsCopy bits) T) (decided : DecidedBy (IsCurrent bits) S) :
    Builds (preimage bits steps states) m (Before T S) := by
  refine (builds_rename sound describes .next).bind fun soundRenamed grown later => ?_
  refine (builds_conj soundRenamed (describesSteps.extend sound grown) later).bind
    fun soundTaken _ taken => ?_
  have nonzero : ∀ var ∈ (List.range bits).map nextVar, var ≠ 0 := by
    rintro var inside
    obtain ⟨bit, _, rfl⟩ := mem_nextVars.mp inside
    exact nextVar_ne_zero bit
  refine (builds_existsVars soundTaken taken nonzero).congr fun a => ?_
  simp only [mem_nextVars]
  have current (bit : Nat) : ¬ ∃ other < bits, currentVar bit = nextVar other := by
    rintro ⟨other, _, same⟩
    simp only [currentVar, nextVar] at same
    omega
  -- Here the state after the step is what is freed.
  constructor
  · rintro ⟨b, outside, step, holds⟩
    refine ⟨fun var => b (StateCopy.next.rename var), (iff_of_copies decidedSteps ?_ ?_).mp step,
      holds⟩
    · intro bit lt
      rw [outside _ (current bit), join_currentVar]
    · intro bit lt
      rw [join_nextVar, rename_next_currentVar]
  · rintro ⟨after, step, holds⟩
    classical
    refine ⟨fun var => if ∃ bit < bits, var = nextVar bit then after (var - 1) else a var,
      fun var outside => if_neg outside, (iff_of_copies decidedSteps ?_ ?_).mp step,
      (iff_of_current decided ?_).mp holds⟩
    · intro bit lt
      rw [if_neg (current bit), join_currentVar]
    · intro bit lt
      rw [if_pos ⟨bit, lt, rfl⟩, join_nextVar]
      rfl
    · intro bit lt
      rw [rename_next_currentVar]
      exact (if_pos ⟨bit, lt, rfl⟩).symm

end Programs

/-- Image and preimage one after another, each asked whether it meets the other set. -/
def meetings (bits : Nat) (steps source target : Ref) : ManagerM (Bool × Bool) := do
  let forward ← image bits steps source
  let backward ← preimage bits steps target
  let first ← intersects forward target
  let second ← intersects source backward
  return (first, second)

/--
The image of a diagram about current copies describes the states after the steps from it, and the
preimage describes the states before the steps into it; both are about current copies again. The
image meets the target if and only if the source meets the preimage.
-/
theorem images_exact {m : Manager} (reached : m.Reached) {bits : Nat} {source target steps : Ref}
    (aboutSource : m.Within source (IsCurrent bits))
    (aboutTarget : m.Within target (IsCurrent bits))
    (aboutSteps : m.Within steps (IsCopy bits)) :
    ∃ φ ψ τ : (Nat → Bool) → Bool,
      m.Represents source φ ∧ m.Represents target ψ ∧ m.Represents steps τ ∧
      Ensures (image bits steps source) m (fun forward later =>
        later.Describes forward (fun t => ∃ s, φ s = true ∧ τ (join s t) = true) ∧
          later.Within forward (IsCurrent bits)) ∧
      Ensures (preimage bits steps target) m (fun backward later =>
        later.Describes backward (fun s => ∃ t, τ (join s t) = true ∧ ψ t = true) ∧
          later.Within backward (IsCurrent bits)) ∧
      Ensures (meetings bits steps source target) m fun met _ =>
        met.1 = met.2 ∧ (met.1 = true ↔ ∃ s t, φ s = true ∧ τ (join s t) = true ∧ ψ t = true) := by
  have sound := reached.sound
  obtain ⟨φ, source⟩ := sound.exists_represents ((within_iff sound).mp aboutSource).1
  obtain ⟨ψ, target⟩ := sound.exists_represents ((within_iff sound).mp aboutTarget).1
  obtain ⟨τ, steps⟩ := sound.exists_represents ((within_iff sound).mp aboutSteps).1
  have decidedSource := (source.describes.within_iff sound).mp aboutSource
  have decidedTarget := (target.describes.within_iff sound).mp aboutTarget
  have decidedSteps := (steps.describes.within_iff sound).mp aboutSteps
  have forward := builds_image sound steps.describes source.describes decidedSteps decidedSource
  have backward := builds_preimage sound steps.describes target.describes decidedSteps decidedTarget
  refine ⟨φ, ψ, τ, source, target, steps, ?_, ?_, ?_⟩
  · refine forward.mono fun soundLater describes => ⟨describes, ?_⟩
    exact (describes.within_iff soundLater).mpr (decidedBy_after decidedSteps)
  · refine backward.mono fun soundLater describes => ⟨describes, ?_⟩
    exact (describes.within_iff soundLater).mpr (decidedBy_before decidedSteps)
  · refine forward.bind fun soundForward grown image => ?_
    refine (builds_preimage soundForward (steps.describes.extend sound grown)
      (target.describes.extend sound grown) decidedSteps decidedTarget).bind
      fun soundBackward later preimage => ?_
    have targetNow := target.describes.extend sound (grown.trans later)
    refine (ensures_intersects soundBackward (image.extend soundForward later) targetNow).bind
      fun soundFirst last first => ?_
    have sourceNow := source.describes.extend sound ((grown.trans later).trans last)
    refine (ensures_intersects soundFirst sourceNow (preimage.extend soundBackward last)).bind
      fun soundSecond _ second => .pure soundSecond ⟨?_, ?_⟩
    · rw [Bool.eq_iff_iff, first, second]
      exact after_meets_iff
    · rw [first, after_meets_iff]
      exact exists_congr fun s => ⟨fun ⟨holds, t, step, met⟩ => ⟨t, holds, step, met⟩,
        fun ⟨t, holds, step, met⟩ => ⟨holds, t, step, met⟩⟩

/-- A manager with one bit that is off, on, or inverted by the step. -/
def toggle : Manager :=
  (Operation.run [.literal 2 true, .literal 3 true, .literal 3 false, .decision 2 ⟨4⟩ ⟨3⟩,
    .literal 2 false] (fresh 3)).2

theorem images_exact_toggle :
    (toggle.Within ⟨6⟩ (IsCurrent 1) ∧ toggle.Within ⟨2⟩ (IsCurrent 1) ∧
      toggle.Within ⟨5⟩ (IsCopy 1)) ∧
      Ensures (meetings 1 ⟨5⟩ ⟨6⟩ ⟨2⟩) toggle fun met _ => met.1 = met.2 := by
  have reached : toggle.Reached := (reached_fresh (by decide)).run _
  have current : ∀ var ∈ [2], IsCurrent 1 var := by simp [IsCurrent, currentVar]
  have copies : ∀ var ∈ [2, 3], IsCopy 1 var := by simp [IsCopy, currentVar, nextVar]
  have about : toggle.Within ⟨6⟩ (IsCurrent 1) ∧ toggle.Within ⟨2⟩ (IsCurrent 1) ∧
      toggle.Within ⟨5⟩ (IsCopy 1) :=
    ⟨within_of_listed (by decide +kernel) current, within_of_listed (by decide +kernel) current,
      within_of_listed (by decide +kernel) copies⟩
  obtain ⟨_, _, _, _, _, _, _, _, met⟩ := images_exact reached about.1 about.2.1 about.2.2
  exact ⟨about, met.mono fun _ agree => agree.1⟩

end DecisionDiagram.Counter
