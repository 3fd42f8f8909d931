import Mathlib.Algebra.Group.Nat.Defs
import Mathlib.Data.Nat.Init
import DecisionDiagram.Proofs.Counter.Image

/-!
# The steps of the counter

The current copies of the bits encode a number. The transition diagram relates every number to one
other: to its successor, without the last carry, and the limit to zero. The chain of carries is
followed bit by bit, where the carry into a bit is set if all lower bits are. Without a limit, this
is the relation of counting up.
-/

namespace DecisionDiagram.Counter

open Manager

/-! ## Numbers -/

def encoded (bits : Nat) (a : Nat → Bool) : Nat :=
  Nat.ofBits fun bit : Fin bits => a (currentVar bit)

def encodedNext (bits : Nat) (a : Nat → Bool) : Nat :=
  Nat.ofBits fun bit : Fin bits => a (nextVar bit)

def successor (bits limit number : Nat) : Nat :=
  if number = limit then 0 else (number + 1) % 2 ^ bits

/-- The next copies encode the value after a step. -/
def Steps (bits limit : Nat) (a : Nat → Bool) : Prop :=
  encodedNext bits a = successor bits limit (encoded bits a)

section Numbers

variable {bits : Nat} (a : Nat → Bool) {number : Nat}

theorem encoded_lt : encoded bits a < 2 ^ bits :=
  Nat.ofBits_lt_two_pow _

theorem testBit_encoded {bit : Nat} (lt : bit < bits) :
    (encoded bits a).testBit bit = a (currentVar bit) :=
  Nat.testBit_ofBits_lt _ bit lt

theorem ofBits_eq_iff {read : Fin bits → Bool} (small : number < 2 ^ bits) :
    Nat.ofBits read = number ↔ ∀ bit : Fin bits, read bit = number.testBit bit := by
  constructor
  · rintro rfl bit
    rw [Nat.testBit_ofBits_lt _ _ bit.isLt]
  · intro same
    rw [funext same, Nat.ofBits_testBit, Nat.mod_eq_of_lt small]

theorem encoded_eq_iff (small : number < 2 ^ bits) :
    encoded bits a = number ↔ ∀ bit < bits, a (currentVar bit) = number.testBit bit := by
  rw [encoded, ofBits_eq_iff small, Fin.forall_iff]

theorem encodedNext_eq_iff (small : number < 2 ^ bits) :
    encodedNext bits a = number ↔ ∀ bit < bits, a (nextVar bit) = number.testBit bit := by
  rw [encodedNext, ofBits_eq_iff small, Fin.forall_iff]

theorem exists_encoded (small : number < 2 ^ bits) : ∃ a, encoded bits a = number := by
  refine ⟨fun var => number.testBit (var / 2 - 1), (encoded_eq_iff _ small).mpr fun bit _ => ?_⟩
  have place : currentVar bit / 2 - 1 = bit := by
    simp only [currentVar]
    omega
  rw [place]

theorem encoded_join (before after : Nat → Bool) :
    encoded bits (join before after) = encoded bits before := by
  simp only [encoded, join_currentVar]

theorem encodedNext_join (before after : Nat → Bool) :
    encodedNext bits (join before after) = encoded bits after := by
  simp only [encodedNext, encoded, join_nextVar]

theorem encoded_rename_next :
    encoded bits (fun var => a (StateCopy.next.rename var)) = encodedNext bits a := by
  simp only [encoded, encodedNext, rename_next_currentVar]

/-- Adding one changes a bit if all lower bits are set. -/
theorem testBit_succ_iff (number bit : Nat) :
    (number + 1).testBit bit = true ↔
      ¬ (number.testBit bit = true ↔ ∀ lower < bit, number.testBit lower = true) := by
  induction bit generalizing number with
  | zero =>
      simp only [Nat.testBit_zero, decide_eq_true_eq, Nat.not_lt_zero, false_implies, implies_true,
        iff_true]
      omega
  | succ bit ih =>
      have split : (∀ lower < bit + 1, number.testBit lower = true) ↔
          number % 2 = 1 ∧ ∀ lower < bit, (number / 2).testBit lower = true := by
        rw [Nat.forall_lt_succ_left]
        simp only [Nat.testBit_zero, decide_eq_true_eq, Nat.testBit_succ]
      rw [Nat.testBit_succ, Nat.testBit_succ, split]
      rcases Nat.mod_two_eq_zero_or_one number with even | odd
      · have half : (number + 1) / 2 = number / 2 := by omega
        rw [half, even]
        simp
      · have half : (number + 1) / 2 = number / 2 + 1 := by omega
        rw [half, odd, ih]
        simp

def SumBit (bit : Nat) (a : Nat → Bool) : Prop :=
  a (nextVar bit) = true ↔
    ¬ (a (currentVar bit) = true ↔ ∀ lower < bit, a (currentVar lower) = true)

/-- The equations of all bits say that the next number is the sum. -/
theorem sumBits_iff :
    (∀ bit < bits, SumBit bit a) ↔ encodedNext bits a = (encoded bits a + 1) % 2 ^ bits := by
  rw [encodedNext_eq_iff a (Nat.mod_lt _ (Nat.two_pow_pos bits))]
  refine forall₂_congr fun bit lt => ?_
  have carry : (∀ lower < bit, (encoded bits a).testBit lower = true) ↔
      ∀ lower < bit, a (currentVar lower) = true := by
    refine forall₂_congr fun lower below => ?_
    rw [testBit_encoded a (Nat.lt_trans below lt)]
  have sum : ((encoded bits a + 1) % 2 ^ bits).testBit bit = true ↔
      ¬ (a (currentVar bit) = true ↔ ∀ lower < bit, a (currentVar lower) = true) := by
    rw [Nat.testBit_mod_two_pow, decide_eq_true lt, Bool.true_and, testBit_succ_iff,
      testBit_encoded a lt, carry]
  rw [SumBit, ← sum]
  exact Bool.eq_iff_iff.symm

end Numbers

/-! ## Programs -/

section Programs

variable {m : Manager} (sound : m.Sound)
include sound

/-- A state has the bits of its number. -/
theorem builds_value (bits number : Nat) :
    Builds (value bits number) m fun a =>
      ∀ bit ∈ List.range bits, a (currentVar bit) = number.testBit bit := by
  let inv (done : List Nat) (states : Ref) (later : Manager) : Prop :=
    later.Describes states fun a => ∀ bit ∈ done, a (currentVar bit) = number.testBit bit
  refine Ensures.foldlM inv ?_ sound ?_
  · intro done states bit later _ soundLater describes
    refine (builds_literal soundLater (currentVar_ne_zero bit) _).bind
      fun soundLiteral grown condition => ?_
    have kept := describes.extend soundLater grown
    refine (builds_conj soundLiteral kept condition).congr fun a => ?_
    simp [or_imp, forall_and]
  · exact (describes_leaf sound true).congr fun a => by simp

theorem builds_encoded {bits number : Nat} (small : number < 2 ^ bits) :
    Builds (value bits number) m fun a => encoded bits a = number := by
  refine (builds_value sound bits number).congr fun a => ?_
  rw [encoded_eq_iff a small]
  simp only [List.mem_range]

omit sound in
theorem run_incrementBit (bit : Nat) (carry : Ref) :
    (incrementBit bit).run carry = (do
      let x ← literal (currentVar bit) true
      let y ← literal (nextVar bit) true
      let sum ← apply .xor x carry
      let equation ← apply .eq y sum
      let passed ← conj x carry
      return (equation, passed)) := by
  simp only [incrementBit, StateT.run_bind, StateT.run_get, StateT.run_monadLift, StateT.run_set,
    StateT.run_pure, bind_assoc, pure_bind, monadLift_self]

/-- The carry into a bit gives its equation and the carry into the next bit. -/
theorem ensures_incrementBit {bit : Nat} {carry : Ref}
    (describes : m.Describes carry fun a => ∀ lower < bit, a (currentVar lower) = true) :
    Ensures ((incrementBit bit).run carry) m fun result later =>
      later.Describes result.1 (SumBit bit) ∧
        later.Describes result.2 fun a => ∀ lower < bit + 1, a (currentVar lower) = true := by
  rw [run_incrementBit]
  refine (builds_literal sound (currentVar_ne_zero bit) true).bind fun soundX grownX x => ?_
  refine (builds_literal soundX (nextVar_ne_zero bit) true).bind fun soundY grownY y => ?_
  have carryY := describes.extend sound (grownX.trans grownY)
  have xY := x.extend soundX grownY
  refine (builds_xor soundY xY carryY).bind fun soundSum grownSum sum => ?_
  have ySum := y.extend soundY grownSum
  refine (builds_eq soundSum ySum sum).bind fun soundBit grownBit equation => ?_
  have later := grownSum.trans grownBit
  refine (builds_conj soundBit (xY.extend soundY later) (carryY.extend soundY later)).bind
    fun soundLater grown passed => .pure soundLater ⟨equation.extend soundBit grown, ?_⟩
  refine passed.congr fun a => ?_
  rw [Nat.forall_lt_succ_right, and_comm]

/-- From a bit on, the carry runs through all higher bits. -/
theorem ensures_equations {start bits : Nat} {carry : Ref}
    (describes : m.Describes carry fun a => ∀ lower < start, a (currentVar lower) = true) :
    Ensures (((List.range' start bits).mapM incrementBit).run carry) m fun result later =>
      List.Forall₂ (fun bit equation => later.Describes equation (SumBit bit))
        (List.range' start bits) result.1 := by
  induction bits generalizing m start carry with
  | zero => exact .pure sound .nil
  | succ bits ih =>
      rw [List.range'_succ, List.mapM_cons, StateT.run_bind]
      refine (ensures_incrementBit sound describes).bind fun soundBit _ first => ?_
      rw [StateT.run_bind]
      refine (ih soundBit first.2).bind fun soundRest grown rest => ?_
      exact .pure soundRest (.cons (first.1.extend soundBit grown) rest)

/-- Counting up: the next copies encode the sum of one and what the current copies encode. -/
theorem builds_increment (bits : Nat) :
    Builds (increment bits) m fun a => encodedNext bits a = (encoded bits a + 1) % 2 ^ bits := by
  have noCarry : m.Describes Ref.trueLeaf fun a => ∀ lower < 0, a (currentVar lower) = true :=
    (describes_leaf sound true).congr fun a => by simp
  have equations :
      Ensures (((List.range bits).mapM incrementBit).run' Ref.trueLeaf) m fun list later =>
        List.Forall₂ (fun bit equation => later.Describes equation (SumBit bit))
          (List.range bits) list := by
    rw [List.range_eq_range', StateT.run'_eq, map_eq_pure_bind]
    exact (ensures_equations sound noCarry).bind fun soundLater _ members =>
      .pure soundLater members
  refine equations.bind fun soundLater _ members => ?_
  refine (builds_conjAll soundLater members).congr fun a => ?_
  simp only [List.mem_range]
  exact sumBits_iff a

/-- The steps: every number to its successor and the limit to zero. -/
theorem builds_transition {bits limit : Nat} (small : limit < 2 ^ bits) :
    Builds (transition bits limit) m (Steps bits limit) := by
  refine (builds_encoded sound small).bind fun soundLimit _ atLimit => ?_
  refine (builds_encoded soundLimit (Nat.two_pow_pos bits)).bind fun soundZero grownZero zero => ?_
  refine (builds_rename soundZero zero .next).bind fun soundNext grownNext nextZero => ?_
  have atLimitNext := atLimit.extend soundLimit (grownZero.trans grownNext)
  refine (builds_neg soundNext atLimitNext).bind fun soundNeg grownNeg notAtLimit => ?_
  refine (builds_increment soundNeg bits).bind fun soundUp grownUp up => ?_
  refine (builds_conj soundUp (notAtLimit.extend soundNeg grownUp) up).bind
    fun soundBelow grownBelow upBelow => ?_
  have later := (grownNeg.trans grownUp).trans grownBelow
  refine (builds_conj soundBelow (atLimitNext.extend soundNext later)
    (nextZero.extend soundNext later)).bind fun soundWrap grownWrap wrap => ?_
  refine (builds_disj soundWrap (upBelow.extend soundBelow grownWrap) wrap).congr fun a => ?_
  rw [encoded_rename_next, Steps, successor]
  by_cases wraps : encoded bits a = limit
  · simp [wraps]
  · simp [wraps]

end Programs

/-! ## Counting up in a reached manager -/

theorem id_current {bit : Nat} (small : bit < StateVariable.maxNumber) :
    (StateVariable.current (bit + 1)).map StateVariable.id = .ok (currentVar bit) := by
  rw [StateVariable.current, dif_neg (Nat.succ_ne_zero bit), if_pos (Nat.succ_le_of_lt small)]
  rfl

theorem id_next {bit : Nat} (small : bit < StateVariable.maxNumber) :
    (StateVariable.next (bit + 1)).map StateVariable.id = .ok (nextVar bit) := by
  rw [StateVariable.next, StateVariable.current, dif_neg (Nat.succ_ne_zero bit),
    if_pos (Nat.succ_le_of_lt small)]
  exact congrArg Except.ok (rename_next_currentVar bit)

/--
The bits have the copies of the first state variables. Counting up relates the numbers whose next
copies encode the sum of one and what the current copies encode, where the carry out of the last bit
is lost, and a value describes the assignments whose current copies encode it.
-/
theorem increment_exact {m : Manager} (reached : m.Reached) {bits : Nat} (narrow : bits ≤ 32) :
    (∀ bit < bits,
      (StateVariable.current (bit + 1)).map StateVariable.id = .ok (currentVar bit) ∧
        (StateVariable.next (bit + 1)).map StateVariable.id = .ok (nextVar bit)) ∧
      Builds (increment bits) m
        (fun a => encodedNext bits a = (encoded bits a + 1) % 2 ^ bits) ∧
      ∀ number < 2 ^ bits, Builds (value bits number) m fun a => encoded bits a = number := by
  refine ⟨fun bit lt => ?_, builds_increment reached.sound bits, fun number small =>
    builds_encoded reached.sound small⟩
  have small : bit < StateVariable.maxNumber :=
    Nat.lt_trans (Nat.lt_of_lt_of_le lt narrow) (by decide)
  exact ⟨id_current small, id_next small⟩

def overflowing : Nat → Bool :=
  fun var => var % 2 = 0

theorem increment_exact_overflowing :
    (toggle.Reached ∧ 32 ≤ 32) ∧
      (∃ up later, increment 32 toggle = .ok up later ∧
        later.evaluate up overflowing = .ok true) ∧
      ∃ state later, value 32 (2 ^ 32 - 1) toggle = .ok state later ∧
        later.evaluate state overflowing = .ok true := by
  have reached : toggle.Reached := (reached_fresh (by decide)).run _
  have before : encoded 32 overflowing = 2 ^ 32 - 1 := by decide
  have after : encodedNext 32 overflowing = (encoded 32 overflowing + 1) % 2 ^ 32 := by
    rw [before]
    decide
  obtain ⟨_, counts, isValue⟩ := increment_exact reached (Nat.le_refl 32)
  refine ⟨⟨reached, Nat.le_refl 32⟩, ?_, ?_⟩
  · obtain ⟨up, later, run, _, _, φ, represents, same⟩ := counts
    refine ⟨up, later, run, ?_⟩
    rw [represents.2, (same overflowing).mpr after]
  · obtain ⟨state, later, run, _, _, φ, represents, same⟩ := isValue (2 ^ 32 - 1) (by decide)
    refine ⟨state, later, run, ?_⟩
    rw [represents.2, (same overflowing).mpr before]

end DecisionDiagram.Counter
