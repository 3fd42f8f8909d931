import DecisionDiagram.Proofs.Reached.Ensures

/-!
# Containment and intersection

A question about diagrams is answered by making a diagram and comparing it with a leaf. Since
diagrams keep their sets, the answer is the same whenever the question is asked. Containment of
diagrams is containment of their sets, and so it is a partial order; diagrams intersect if and only
if their sets have an assignment in common.
-/

namespace DecisionDiagram.Manager

def Replies (question : ManagerM Bool) (m : Manager) (answer : Bool) : Prop :=
  ∀ history, ∃ later, question (Operation.run history m).2 = .ok answer later

/-- The question has one answer for good, which tells whether the statement is true. -/
def Settles (question : ManagerM Bool) (m : Manager) (statement : Prop) : Prop :=
  ∃ answer, Replies question m answer ∧ (answer = true ↔ statement)

/-- Whether nothing of `q` lies outside `p`, found by making the diagram of what does. -/
def noneOutside (p q : Ref) : ManagerM Bool := do
  let complement ← neg p
  let outside ← conj q complement
  return outside = Ref.falseLeaf

/-! ## Answers -/

section Answers

variable {m : Manager} {question : ManagerM Bool} {statement : Prop}

theorem Replies.eq_of_run {answer other : Bool} {later : Manager}
    (replies : Replies question m answer) (run : question m = .ok other later) :
    answer = other := by
  obtain ⟨_, runNow⟩ := replies []
  cases runNow.symm.trans run
  rfl

/-- What a settled question is answered now is its answer for good. -/
theorem Settles.replies (settles : Settles question m statement) {answer : Bool} {later : Manager}
    (run : question m = .ok answer later) : Replies question m answer := by
  obtain ⟨found, replies, _⟩ := settles
  obtain rfl : found = answer := replies.eq_of_run run
  exact replies

theorem Settles.replies_iff (settles : Settles question m statement) {answer : Bool} :
    Replies question m answer ↔ (answer = true ↔ statement) := by
  obtain ⟨found, replies, tells⟩ := settles
  constructor
  · intro again
    obtain ⟨_, run⟩ := again []
    obtain rfl : found = answer := replies.eq_of_run run
    exact tells
  · intro same
    obtain rfl : answer = found := Bool.eq_iff_iff.mpr (same.trans tells.symm)
    exact replies

theorem Settles.replies_true_iff (settles : Settles question m statement) :
    Replies question m true ↔ statement := by
  simp [settles.replies_iff]

/-- A question is settled if it is answered by one statement from now on. -/
theorem settles_of_ensures (sound : m.Sound)
    (ensures : ∀ {later}, later.Sound → m.arena.Extends later.arena →
      Ensures question later fun answer _ => answer = true ↔ statement) :
    Settles question m statement := by
  obtain ⟨answer, _, _, _, _, tells⟩ := ensures sound (.refl _)
  refine ⟨answer, fun history => ?_, tells⟩
  obtain ⟨soundNext, grown⟩ := Operation.run_kept sound history
  obtain ⟨other, later, run, _, _, tellsOther⟩ := ensures soundNext grown
  obtain rfl : other = answer := Bool.eq_iff_iff.mpr (tellsOther.trans tells.symm)
  exact ⟨later, run⟩

end Answers

/-! ## Questions about sets -/

section Sound

variable {m : Manager} (sound : m.Sound) {p q : Ref} {S T : (Nat → Bool) → Prop}
  (first : m.Describes p S) (second : m.Describes q T)
include sound first second

theorem ensures_noneOutside :
    Ensures (noneOutside p q) m fun answer _ => answer = true ↔ ∀ a, T a → S a := by
  refine (builds_neg sound first).bind fun soundNeg grown complement => ?_
  refine (builds_conj soundNeg (second.extend sound grown) complement).bind
    fun soundLater _ outside => ?_
  refine .pure soundLater ?_
  rw [decide_eq_true_iff, outside.eq_falseLeaf_iff soundLater]
  exact forall_congr' fun a => not_and_not_right

theorem settles_contains : Settles (contains p q) m (∀ a, T a → S a) :=
  settles_of_ensures sound fun soundLater grown =>
    ensures_contains soundLater (first.extend sound grown) (second.extend sound grown)

theorem settles_noneOutside : Settles (noneOutside p q) m (∀ a, T a → S a) :=
  settles_of_ensures sound fun soundLater grown =>
    ensures_noneOutside soundLater (first.extend sound grown) (second.extend sound grown)

theorem settles_intersects : Settles (intersects p q) m (∃ a, S a ∧ T a) :=
  settles_of_ensures sound fun soundLater grown =>
    ensures_intersects soundLater (first.extend sound grown) (second.extend sound grown)

end Sound

/--
Containment of diagrams tells whether every assignment of the one set is in the other, and whether
nothing is left of the one outside the other. Intersection tells whether the sets meet. So
containment is reflexive and transitive, diagrams that contain each other are one reference, and
intersection is symmetric.
-/
theorem Reached.containment {m : Manager} (reached : m.Reached) {p q : Ref}
    (insideP : m.Resident p) (insideQ : m.Resident q) :
    ∃ φ ψ : (Nat → Bool) → Bool, m.Represents p φ ∧ m.Represents q ψ ∧
      Settles (contains p q) m (∀ a, ψ a = true → φ a = true) ∧
      Settles (noneOutside p q) m (∀ a, ψ a = true → φ a = true) ∧
      Settles (intersects p q) m (∃ a, φ a = true ∧ ψ a = true) ∧
      Replies (contains p p) m true ∧
      (∀ r, m.Resident r → Replies (contains p q) m true → Replies (contains q r) m true →
        Replies (contains p r) m true) ∧
      (Replies (contains p q) m true ∧ Replies (contains q p) m true ↔ p = q) ∧
      ∀ answer, Replies (intersects p q) m answer ↔ Replies (intersects q p) m answer := by
  have sound := reached.sound
  obtain ⟨φ, representsP⟩ := sound.exists_represents insideP
  obtain ⟨ψ, representsQ⟩ := sound.exists_represents insideQ
  have setP := representsP.describes
  have setQ := representsQ.describes
  have containsPQ := settles_contains sound setP setQ
  have intersectsPQ := settles_intersects sound setP setQ
  refine ⟨φ, ψ, representsP, representsQ, containsPQ, settles_noneOutside sound setP setQ,
    intersectsPQ, ?_, ?_, ?_, ?_⟩
  · exact (settles_contains sound setP setP).replies_true_iff.mpr fun _ => id
  · intro r insideR
    have setR := sound.describes insideR
    rw [containsPQ.replies_true_iff, (settles_contains sound setQ setR).replies_true_iff,
      (settles_contains sound setP setR).replies_true_iff]
    exact fun inPQ inQR a holds => inPQ a (inQR a holds)
  · rw [containsPQ.replies_true_iff, (settles_contains sound setQ setP).replies_true_iff,
      setP.ref_eq_iff sound setQ, ← forall_and]
    exact forall_congr' fun a => ⟨fun both => ⟨both.2, both.1⟩, fun same => ⟨same.2, same.1⟩⟩
  · intro answer
    rw [intersectsPQ.replies_iff, (settles_intersects sound setQ setP).replies_iff]
    simp only [and_comm]

def affirms (question : ManagerM Bool) (m : Manager) : Bool :=
  match question m with
  | .ok answer _ => answer
  | .error _ _ => false

theorem Settles.replies_of_affirms {m : Manager} {question : ManagerM Bool} {statement : Prop}
    (settles : Settles question m statement) (yes : affirms question m = true) :
    Replies question m true := by
  unfold affirms at yes
  split at yes
  next run => exact settles.replies (yes ▸ run)
  next => cases yes

def nested : Manager :=
  (Operation.run [.apply .or ⟨2⟩ ⟨3⟩, .apply .and ⟨2⟩ ⟨3⟩] twoLiterals).2

theorem containment_nested :
    (nested.Resident ⟨4⟩ ∧ nested.Resident ⟨2⟩ ∧ nested.Resident ⟨5⟩) ∧
      Replies (contains ⟨4⟩ ⟨2⟩) nested true ∧ Replies (contains ⟨2⟩ ⟨5⟩) nested true ∧
      Replies (contains ⟨4⟩ ⟨5⟩) nested true ∧
      ¬ Replies (contains ⟨2⟩ ⟨4⟩) nested true := by
  have reached : nested.Reached := reached_twoLiterals.run _
  have inside : nested.Resident ⟨4⟩ ∧ nested.Resident ⟨2⟩ ∧ nested.Resident ⟨5⟩ := by decide +kernel
  obtain ⟨_, _, _, _, upper, _, _, _, chain, same, _⟩ := reached.containment inside.1 inside.2.1
  obtain ⟨_, _, _, _, lower, _⟩ := reached.containment inside.2.1 inside.2.2
  have first := upper.replies_of_affirms (by decide +kernel)
  have second := lower.replies_of_affirms (by decide +kernel)
  exact ⟨inside, first, second, chain ⟨5⟩ inside.2.2 first second,
    fun converse => absurd (same.mp ⟨first, converse⟩) (by decide)⟩

end DecisionDiagram.Manager
