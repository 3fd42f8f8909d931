import DecisionDiagram.Proofs.Reached.Canonicity

/-!
# Structural equality within a manager

A comparison takes a pair that it noted before to be equal, whatever came of it. Within a proper
arena this does no harm. Branches lie in earlier cells than their decision, and a comparison goes on
after a pair of branches only if they are one reference, and such a pair is not noted. So all pairs
noted lie above the one that is met, which is new, and a comparison of different references goes
down to different labels or different leaves.
-/

namespace DecisionDiagram.Manager

/-! ## Runs of a comparison -/

instance : Std.TransCmp Ref.comparePairs :=
  inferInstanceAs (Std.TransCmp (compareLex (compareOn fun pair : Ref × Ref => pair.1.slot)
    (compareOn fun pair : Ref × Ref => pair.2.slot)))

theorem mem_insert_pair {compared : Compared} {pair other : Ref × Ref} :
    other ∈ compared.insert pair ↔ other = pair ∨ other ∈ compared := by
  have same : Ref.comparePairs pair other = .eq ↔ other = pair := by
    rw [Ref.comparePairs, compareLex_eq_eq]
    simp only [compareOn, Std.LawfulEqOrd.compare_eq_iff_eq]
    constructor
    · rintro ⟨first, second⟩
      exact (Prod.ext (congrArg Ref.mk first) (congrArg Ref.mk second)).symm
    · rintro rfl
      exact ⟨rfl, rfl⟩
  rw [Std.TreeSet.mem_insert, same]

/-- The comparison of labels and branches, which follows when a pair is met first. -/
def partsEqual (m : Manager) : Node → Node → StateT Compared (Except Fault) Bool
  | .leaf x, .leaf y => return x = y
  | .decision v highP lowP, .decision w highQ lowQ => do
      if v ≠ w then
        return false
      else if ← m.equalsFrom highP highQ then
        m.equalsFrom lowP lowQ
      else
        return false
  | _, _ => return false

section Runs

variable {m : Manager} {p q : Ref} {compared : Compared}

theorem equalsFrom_self : (m.equalsFrom p p).run compared = .ok (true, compared) := by
  rw [equalsFrom, if_pos rfl]
  rfl

theorem equalsFrom_of_new {a b : Node} (holdsP : m.arena.Holds p a) (holdsQ : m.arena.Holds q b)
    (ne : p ≠ q) (new : (p, q) ∉ compared) :
    (m.equalsFrom p q).run compared = (m.partsEqual a b).run (compared.insert (p, q)) := by
  have missing : ¬ compared.contains (p, q) := mt Std.TreeSet.mem_iff_contains.mpr new
  rw [equalsFrom, if_neg ne, node_of_holds holdsP, node_of_holds holdsQ]
  simp only [StateT.run_bind, StateT.run_get, pure_bind, if_neg missing]
  cases a <;> cases b <;> rfl

theorem partsEqual_decision {var : Nat} {highP lowP highQ lowQ : Ref} {middle : Compared}
    {answer : Bool} (run : (m.equalsFrom highP highQ).run compared = .ok (answer, middle)) :
    (m.partsEqual (.decision var highP lowP) (.decision var highQ lowQ)).run compared =
      if answer then (m.equalsFrom lowP lowQ).run middle else .ok (false, middle) := by
  rw [partsEqual, if_neg (not_not.mpr rfl), StateT.run_bind, run]
  cases answer <;> rfl

end Runs

/-! ## What a comparison answers -/

/-- The run tells whether the references are equal; it notes nothing if so, and little otherwise. -/
def Compares (p q : Ref) (compared : Compared) (result : Except Fault (Bool × Compared)) : Prop :=
  ∃ later, result = .ok (decide (p = q), later) ∧ (p = q → later = compared) ∧
    later.size ≤ compared.size + p.index

section Answers

variable {m : Manager} {p q : Ref} {compared : Compared}

theorem compares_self : Compares p p compared ((m.equalsFrom p p).run compared) := by
  rw [equalsFrom_self]
  exact ⟨compared, by rw [decide_eq_true rfl], fun _ => rfl, Nat.le_add_right _ _⟩

/-- Different decisions differ in their variable or in a branch, and the comparison finds it. -/
theorem partsEqual_of_ne {v w : Nat} {highP lowP highQ lowQ : Ref}
    (ne : Node.decision v highP lowP ≠ .decision w highQ lowQ)
    (below : (Node.decision v highP lowP).Below p)
    (onTrue : Compares highP highQ compared ((m.equalsFrom highP highQ).run compared))
    (onFalse : Compares lowP lowQ compared ((m.equalsFrom lowP lowQ).run compared)) :
    ∃ later, (m.partsEqual (.decision v highP lowP) (.decision w highQ lowQ)).run compared =
      .ok (false, later) ∧ later.size ≤ compared.size + p.slot := by
  by_cases vars : v = w
  · subst vars
    obtain ⟨middle, runHigh, kept, sizeHigh⟩ := onTrue
    rw [partsEqual_decision runHigh]
    by_cases highs : highP = highQ
    · obtain rfl := kept highs
      obtain ⟨later, runLow, _, sizeLow⟩ := onFalse
      have lows : lowP ≠ lowQ := by
        rintro rfl
        exact ne (congrArg (Node.decision v · lowP) highs)
      rw [decide_eq_true highs, if_pos rfl, runLow, decide_eq_false lows]
      exact ⟨later, rfl, Nat.le_trans sizeLow (Nat.add_le_add_left below.2 _)⟩
    · rw [decide_eq_false highs, if_neg Bool.false_ne_true]
      exact ⟨middle, rfl, Nat.le_trans sizeHigh (Nat.add_le_add_left below.1 _)⟩
  · rw [partsEqual, if_pos vars]
    exact ⟨compared, rfl, Nat.le_add_right _ _⟩

/-- Where all pairs noted lie above, a comparison of stored references tells if they are equal. -/
theorem equalsFrom_compares (proper : m.arena.Proper) {a b : Node} (holdsP : m.arena.Holds p a)
    (holdsQ : m.arena.Holds q b) (above : ∀ pair ∈ compared, p.slot < pair.1.slot) :
    Compares p q compared ((m.equalsFrom p q).run compared) := by
  induction slot : p.slot using Nat.strongRecOn generalizing p q a b compared with
  | ind n ih =>
      by_cases same : p = q
      · subst same
        exact compares_self
      have new : (p, q) ∉ compared := fun met => Nat.lt_irrefl _ (above _ met)
      have ne : a ≠ b := by
        rintro rfl
        exact same (proper.unique holdsP holdsQ)
      have size : (compared.insert (p, q)).size ≤ compared.size + 1 := Std.TreeSet.size_insert_le
      -- The references differ, so all that is left is that their nodes are found to differ.
      suffices differ : ∃ later, (m.partsEqual a b).run (compared.insert (p, q)) =
          .ok (false, later) ∧ later.size ≤ (compared.insert (p, q)).size + p.slot by
        obtain ⟨later, run, le⟩ := differ
        rw [Compares, equalsFrom_of_new holdsP holdsQ same new, run, decide_eq_false same]
        refine ⟨later, rfl, fun equal => absurd equal same, ?_⟩
        rw [Ref.index]
        omega
      cases a with
      | leaf x =>
          cases b with
          | leaf y =>
              have values : x ≠ y := fun equal => ne (congrArg Node.leaf equal)
              rw [partsEqual, decide_eq_false values]
              exact ⟨_, rfl, Nat.le_add_right _ _⟩
          | decision w highQ lowQ => exact ⟨_, rfl, Nat.le_add_right _ _⟩
      | decision v highP lowP =>
          cases b with
          | leaf y => exact ⟨_, rfl, Nat.le_add_right _ _⟩
          | decision w highQ lowQ =>
              have below : (Node.decision v highP lowP).Below p := proper.below holdsP
              have aboveBranch {x : Ref} (lt : x.slot < p.slot) :
                  ∀ pair ∈ compared.insert (p, q), x.slot < pair.1.slot := by
                intro pair met
                rcases mem_insert_pair.mp met with rfl | old
                · exact lt
                · exact Nat.lt_trans lt (above pair old)
              obtain ⟨_, ⟨_, highHoldsP, _⟩, ⟨_, lowHoldsP, _⟩⟩ := proper.orders holdsP
              obtain ⟨_, ⟨_, highHoldsQ, _⟩, ⟨_, lowHoldsQ, _⟩⟩ := proper.orders holdsQ
              exact partsEqual_of_ne ne below
                (ih _ (slot ▸ below.1) highHoldsP highHoldsQ (aboveBranch below.1) rfl)
                (ih _ (slot ▸ below.2) lowHoldsP lowHoldsQ (aboveBranch below.2) rfl)

theorem equalsFrom_of_holds (proper : m.arena.Proper) {a b : Node} (holdsP : m.arena.Holds p a)
    (holdsQ : m.arena.Holds q b) :
    ∃ compared, (m.equalsFrom p q).run ∅ = .ok (decide (p = q), compared) ∧
      compared.size ≤ p.index := by
  have none : ∀ pair ∈ (∅ : Compared), p.slot < pair.1.slot :=
    fun _ met => absurd met Std.TreeSet.not_mem_emptyc
  obtain ⟨compared, run, _, size⟩ := equalsFrom_compares proper holdsP holdsQ none
  rw [Std.TreeSet.size_emptyc, Nat.zero_add] at size
  exact ⟨compared, run, size⟩

theorem equals_of_holds (proper : m.arena.Proper) {a b : Node} (holdsP : m.arena.Holds p a)
    (holdsQ : m.arena.Holds q b) : m.equals p q = .ok (decide (p = q)) := by
  obtain ⟨compared, run, _⟩ := equalsFrom_of_holds proper holdsP holdsQ
  rw [equals, StateT.run'_eq, run]
  rfl

end Answers

/--
In a reached manager, two references with nodes are structurally equal if and only if they are one
reference. The comparison ends, with no more pairs noted than there are cells up to that of the
first reference, and it leaves the manager as it is.
-/
theorem Reached.equality {m : Manager} (reached : m.Reached) {p q : Ref} (insideP : m.Resident p)
    (insideQ : m.Resident q) :
    m.equals p q = .ok (decide (p = q)) ∧
      (∃ compared, (m.equalsFrom p q).run ∅ = .ok (decide (p = q), compared) ∧
        compared.size ≤ p.index) ∧
      (Operation.equals p q).perform m = .ok (.truth (decide (p = q))) m := by
  obtain ⟨a, holdsP⟩ := resident_iff.mp insideP
  obtain ⟨b, holdsQ⟩ := resident_iff.mp insideQ
  have proper := reached.sound.proper
  have answer := equals_of_holds proper holdsP holdsQ
  refine ⟨answer, equalsFrom_of_holds proper holdsP holdsQ, ?_⟩
  rw [Operation.perform, map_eq_pure_bind, bind_ok (ask_eq_ok answer)]
  rfl

/-- The exclusive disjunction of two literals and its negation, over the same branches. -/
def opposites : Manager :=
  (Operation.apply .eq ⟨2⟩ ⟨3⟩).after ((Operation.apply .xor ⟨2⟩ ⟨3⟩).after twoLiterals)

theorem equality_opposites :
    (opposites.Resident ⟨5⟩ ∧ opposites.Resident ⟨6⟩) ∧ opposites.equals ⟨5⟩ ⟨6⟩ = .ok false ∧
      ∃ compared, (opposites.equalsFrom ⟨5⟩ ⟨6⟩).run ∅ = .ok (false, compared) ∧
        compared.size ≤ 6 := by
  have reached : opposites.Reached := (reached_twoLiterals.operated _).operated _
  have inside : opposites.Resident ⟨5⟩ ∧ opposites.Resident ⟨6⟩ := by decide +kernel
  obtain ⟨answer, noted, _⟩ := reached.equality inside.1 inside.2
  exact ⟨inside, answer, noted⟩

end DecisionDiagram.Manager
