import DecisionDiagram.Proofs.Counter.Transition

/-!
# The numbers that the counter reaches

The sets that the loop goes through are the initial segments of the numbers up to the limit. The
image of one of them adds one number, and at the limit it adds none. Canonicity makes the test for
equal references a test for equal sets, so the loop ends at the limit and not before. A check of a
number asks two questions about it, and it passes exactly if both have the expected answer.
-/

namespace DecisionDiagram.Counter

open Manager

/-- The assignments whose current copies encode no number larger than the given one. -/
def AtMost (bits number : Nat) (a : Nat → Bool) : Prop :=
  encoded bits a ≤ number

/-! ## Sets -/

variable {bits limit : Nat}

theorem encoded_congr {a b : Nat → Bool}
    (agree : ∀ bit < bits, a (currentVar bit) = b (currentVar bit)) :
    encoded bits a = encoded bits b := by
  rw [encoded_eq_iff a (encoded_lt b)]
  intro bit lt
  rw [testBit_encoded b lt, agree bit lt]

theorem encodedNext_congr {a b : Nat → Bool}
    (agree : ∀ bit < bits, a (nextVar bit) = b (nextVar bit)) :
    encodedNext bits a = encodedNext bits b :=
  encoded_congr (a := fun var => a (var + 1)) (b := fun var => b (var + 1)) agree

theorem decidedBy_atMost (number : Nat) : DecidedBy (IsCurrent bits) (AtMost bits number) := by
  intro a b agree
  rw [AtMost, AtMost, encoded_congr fun bit lt => agree _ (isCurrent_currentVar lt)]

theorem decidedBy_steps : DecidedBy (IsCopy bits) (Steps bits limit) := by
  intro a b agree
  rw [Steps, Steps, encoded_congr fun bit lt => agree _ ⟨bit, lt, Or.inl rfl⟩,
    encodedNext_congr fun bit lt => agree _ ⟨bit, lt, Or.inr rfl⟩]

theorem after_atMost_iff {number : Nat} (a : Nat → Bool) :
    After (AtMost bits number) (Steps bits limit) a ↔
      ∃ n ≤ number, n < 2 ^ bits ∧ encoded bits a = successor bits limit n := by
  simp only [After, AtMost, Steps, encoded_join, encodedNext_join]
  constructor
  · rintro ⟨before, le, step⟩
    exact ⟨encoded bits before, le, encoded_lt before, step⟩
  · rintro ⟨n, le, small, step⟩
    obtain ⟨before, rfl⟩ := exists_encoded small
    exact ⟨before, le, step⟩

theorem successor_of_lt (small : limit < 2 ^ bits) {number : Nat} (lt : number < limit) :
    successor bits limit number = number + 1 := by
  rw [successor, if_neg (Nat.ne_of_lt lt), Nat.mod_eq_of_lt (by omega)]

/-- An initial segment grows by one number, up to the limit. -/
theorem atMost_grows (small : limit < 2 ^ bits) {number : Nat} (le : number ≤ limit)
    (a : Nat → Bool) :
    AtMost bits number a ∨ After (AtMost bits number) (Steps bits limit) a ↔
      AtMost bits (min (number + 1) limit) a := by
  rw [after_atMost_iff, AtMost, AtMost]
  constructor
  · rintro (inside | ⟨n, le', _, step⟩)
    · omega
    · rcases Nat.lt_or_eq_of_le (Nat.le_trans le' le) with lt | rfl
      · rw [successor_of_lt small lt] at step
        omega
      · rw [successor, if_pos rfl] at step
        omega
  · intro within
    rcases Nat.lt_or_ge number (encoded bits a) with beyond | inside
    · have lt : number < limit := by omega
      refine Or.inr ⟨number, Nat.le_refl _, Nat.lt_of_le_of_lt le small, ?_⟩
      rw [successor_of_lt small lt]
      omega
    · exact Or.inl inside

/-- Different initial segments of the numbers of the counter are different sets. -/
theorem atMost_iff_iff {first second : Nat} (smallFirst : first < 2 ^ bits)
    (smallSecond : second < 2 ^ bits) :
    (∀ a, AtMost bits first a ↔ AtMost bits second a) ↔ first = second := by
  constructor
  · intro same
    obtain ⟨a, rfl⟩ := exists_encoded smallFirst
    obtain ⟨b, rfl⟩ := exists_encoded smallSecond
    exact Nat.le_antisymm ((same a).mp (Nat.le_refl _)) ((same b).mpr (Nat.le_refl _))
  · rintro rfl a
    exact .rfl

/-! ## The loop -/

/-- The loop of `reach`, ended after a number of images if not before. -/
def reachWithin (fuel bits limit : Nat) : ManagerM (Ref × Nat) := do
  let steps ← transition bits limit
  let zero ← value bits 0
  reachFrom bits steps fuel zero 0

section Programs

variable {m : Manager} (sound : m.Sound)
include sound

/-- From an initial segment, the loop adds the numbers up to the limit one by one and then ends. -/
theorem ensures_reachFrom (small : limit < 2 ^ bits) {steps reached : Ref} {number fuel : Nat}
    (describesSteps : m.Describes steps (Steps bits limit))
    (describes : m.Describes reached (AtMost bits number)) (le : number ≤ limit)
    (enough : limit < number + fuel) :
    Ensures (reachFrom bits steps fuel reached number) m fun result later =>
      result.2 = limit ∧ later.Describes result.1 (AtMost bits limit) := by
  induction fuel generalizing m reached number with
  | zero => omega
  | succ fuel ih =>
      rw [reachFrom]
      refine (builds_image sound describesSteps describes decidedBy_steps
        (decidedBy_atMost number)).bind fun soundImage grownImage image => ?_
      refine (builds_disj soundImage (describes.extend sound grownImage) image).bind
        fun {larger later} soundLarger grownLarger union => ?_
      have grown := grownImage.trans grownLarger
      have segment := union.congr (atMost_grows small le)
      have before := describes.extend sound grown
      -- The test for equal references tells whether the segment has grown.
      have same_iff : larger = reached ↔ min (number + 1) limit = number := by
        rw [segment.ref_eq_iff soundLarger before, atMost_iff_iff (by omega) (by omega)]
      by_cases done : number = limit
      · subst done
        rw [if_pos (same_iff.mpr (by omega))]
        exact .pure soundLarger ⟨rfl, before⟩
      · rw [if_neg (mt same_iff.mp (by omega))]
        rw [Nat.min_eq_left (by omega)] at segment
        exact ih soundLarger (describesSteps.extend sound grown) segment (by omega) (by omega)

theorem ensures_reachWithin (small : limit < 2 ^ bits) {fuel : Nat} (enough : limit < fuel) :
    Ensures (reachWithin fuel bits limit) m fun result later =>
      result.2 = limit ∧ later.Describes result.1 (AtMost bits limit) := by
  refine (builds_transition sound small).bind fun soundSteps _ steps => ?_
  refine (builds_encoded soundSteps (Nat.two_pow_pos bits)).bind fun soundZero grown zero => ?_
  refine ensures_reachFrom soundZero small (steps.extend soundSteps grown) (zero.congr fun a => ?_)
    (Nat.zero_le limit) (by omega)
  rw [AtMost, Nat.le_zero]

end Programs

/-! ## The checks -/

/-- Whether all states with the value are states of the diagram, and whether some are. -/
def asked (bits : Nat) (states : Ref) (number : Nat) : ManagerM (Bool × Bool) := do
  let state ← value bits number
  let contained ← contains states state
  let met ← intersects states state
  return (contained, met)

/-- What both answers are if the limit is right about the value. -/
def expected (limit number : Nat) : Bool × Bool :=
  (decide (number ≤ limit), decide (number ≤ limit))

theorem asserted_iff {α : Type} {P : Prop} [Decidable P] {refuse next : ManagerM α}
    {fault : Fault} {m last : Manager} {a : α} (refuses : refuse m = .error fault m) :
    (if P then refuse else next) m = .ok a last ↔ ¬ P ∧ next m = .ok a last := by
  by_cases holds : P
  · rw [if_pos holds, refuses]
    simp [holds]
  · simp [holds]

/-- A check passes exactly if both answers are as expected, and then it does no more than ask. -/
theorem checkValue_eq_ok_iff {m later : Manager} {states : Ref} {number : Nat} :
    checkValue bits limit states number m = .ok () later ↔
      asked bits states number m = .ok (expected limit number) later := by
  unfold checkValue asked
  simp only [bind_eq_ok_iff, pure_eq_ok_iff]
  constructor
  · rintro ⟨state, withState, runState, contained, middle, runContained, passed⟩
    obtain ⟨same, rest⟩ := (asserted_iff rfl).mp passed
    obtain rfl := Classical.not_not.mp same
    obtain ⟨met, last, runMet, passedMet⟩ := bind_eq_ok_iff.mp rest
    obtain ⟨sameMet, ended⟩ := (asserted_iff rfl).mp passedMet
    obtain rfl := Classical.not_not.mp sameMet
    exact ⟨state, withState, runState, _, middle, runContained, _, last, runMet, rfl,
      (pure_eq_ok_iff.mp ended).2⟩
  · rintro ⟨state, withState, runState, contained, middle, runContained, met, last, runMet, same,
      rfl⟩
    cases same
    refine ⟨state, withState, runState, _, middle, runContained, ?_⟩
    refine (asserted_iff rfl).mpr ⟨not_not_intro rfl, bind_eq_ok_iff.mpr ⟨_, last, runMet, ?_⟩⟩
    exact (asserted_iff rfl).mpr ⟨not_not_intro rfl, rfl⟩

/-- So do the checks of a list of numbers. -/
theorem checks_eq_ok_iff {m later : Manager} {states : Ref} {numbers : List Nat} :
    numbers.forM (checkValue bits limit states) m = .ok () later ↔
      numbers.mapM (asked bits states) m = .ok (numbers.map (expected limit)) later := by
  induction numbers generalizing m with
  | nil => simp [pure_eq_ok_iff]
  | cons number rest ih =>
      rw [List.mapM_cons, List.map_cons]
      change (checkValue bits limit states number >>= fun _ => rest.forM _) m = _ ↔ _
      simp only [bind_eq_ok_iff, ih, pure_eq_ok_iff]
      constructor
      · rintro ⟨_, middle, first, others⟩
        exact ⟨_, middle, checkValue_eq_ok_iff.mp first, _, later, others, rfl, rfl⟩
      · rintro ⟨answer, middle, first, answers, last, others, same, rfl⟩
        cases same
        exact ⟨(), middle, checkValue_eq_ok_iff.mpr first, others⟩

section Programs

variable {m : Manager} (sound : m.Sound) {reached : Ref}
include sound

theorem ensures_asked (describes : m.Describes reached (AtMost bits limit)) {number : Nat}
    (small : number < 2 ^ bits) :
    Ensures (asked bits reached number) m fun answers _ => expected limit number = answers := by
  obtain ⟨a, rfl⟩ := exists_encoded small
  refine (builds_encoded sound small).bind fun soundState grownState state => ?_
  have reachedState := describes.extend sound grownState
  refine (ensures_contains soundState reachedState state).bind
    fun {contained later} soundContained grownContained answer => ?_
  have reachedContained := reachedState.extend soundState grownContained
  have stateContained := state.extend soundState grownContained
  refine (ensures_intersects soundContained reachedContained stateContained).bind
    fun {met later} soundMet grownMet answerMet => ?_
  have all : contained = decide (encoded bits a ≤ limit) := by
    rw [Bool.eq_iff_iff, answer, decide_eq_true_iff]
    exact ⟨fun all => all a rfl, fun le b same => by rw [AtMost, same]; exact le⟩
  have some : met = decide (encoded bits a ≤ limit) := by
    rw [Bool.eq_iff_iff, answerMet, decide_eq_true_iff]
    exact ⟨fun ⟨b, le, same⟩ => same ▸ le, fun le => ⟨a, le, rfl⟩⟩
  rw [expected, ← all]
  exact .pure soundMet (Prod.ext rfl (all.trans some.symm))

/-- All answers about the diagram of the numbers up to the limit are as expected. -/
theorem ensures_answers (describes : m.Describes reached (AtMost bits limit)) {numbers : List Nat}
    (small : ∀ number ∈ numbers, number < 2 ^ bits) :
    Ensures (numbers.mapM (asked bits reached)) m fun answers _ =>
      answers = numbers.map (expected limit) := by
  refine (Ensures.mapM (fun tried soundLater grown =>
    ensures_asked soundLater (describes.extend sound grown) (small _ tried))
    (fun _ _ same => same) sound).mono fun _ answers => ?_
  exact (List.forall₂_eq_eq_eq ▸ List.forall₂_map_left_iff.mpr answers).symm

end Programs

end DecisionDiagram.Counter
