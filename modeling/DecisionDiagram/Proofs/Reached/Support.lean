import DecisionDiagram.Proofs.Manager.Answers
import DecisionDiagram.Proofs.Reached.Ensures

/-!
# Essential variables

In a proper arena every mentioned variable is essential: for some values of the other variables the
function of the diagram depends on it. So the support of a diagram lists the essential variables and
is the least set of variables that determines the value of the diagram, and a diagram can be shown to
lie within some variables by looking at its function only.
-/

namespace DecisionDiagram

namespace Arena

variable {arena : Arena} {f : Ref} {var : Nat}

/-- What lies after a variable mentions later ones only. -/
theorem Mentions.lt (mentions : arena.Mentions f var) (proper : arena.Proper) {top : Nat}
    (admits : arena.Admits top f) : top < var := by
  induction mentions generalizing top with
  | top holds => exact admits.lt holds
  | high holds _ ih => exact Nat.lt_trans (admits.lt holds) (ih (proper.orders holds).high)
  | low holds _ ih => exact Nat.lt_trans (admits.lt holds) (ih (proper.orders holds).low)

/-- The function is not the same for both values of the variable. -/
def Essential (φ : (Nat → Bool) → Bool) (var : Nat) : Prop :=
  ∃ a, φ (Function.update a var true) ≠ φ (Function.update a var false)

/-- A variable that is essential for a branch is so for the decision, if it is not decided on. -/
theorem Essential.of_branch {φ ψ : (Nat → Bool) → Bool} {top : Nat} {value : Bool}
    (essential : Essential ψ var) (ne : var ≠ top)
    (branch : ∀ a, φ (Function.update a top value) = ψ a) : Essential φ var := by
  obtain ⟨a, differs⟩ := essential
  refine ⟨Function.update a top value, ?_⟩
  rwa [Function.update_comm ne.symm, Function.update_comm ne.symm, branch, branch]

/-- Fixing the variable of a decision leaves the function of a branch. -/
theorem Denotes.update_top (proper : arena.Proper) {high low : Ref} {top : Nat}
    (holds : arena.Holds f (.decision top high low)) {φ onTrue onFalse : (Nat → Bool) → Bool}
    (denotesHigh : arena.Denotes high onTrue) (denotesLow : arena.Denotes low onFalse)
    (halves : ∀ a, φ a = if a top then onTrue a else onFalse a) (a : Nat → Bool) (value : Bool) :
    φ (Function.update a top value) = if value then onTrue a else onFalse a := by
  have orders := proper.orders holds
  rw [halves, Function.update_self, denotesHigh.update_of_admits proper orders.high,
    denotesLow.update_of_admits proper orders.low]

theorem Mentions.essential (mentions : arena.Mentions f var) (proper : arena.Proper)
    {φ : (Nat → Bool) → Bool} (denotes : arena.Denotes f φ) : Essential φ var := by
  induction mentions generalizing φ with
  | top holds =>
      obtain ⟨onTrue, onFalse, denotesHigh, denotesLow, halves⟩ := denotes.branches holds
      have fixed := Denotes.update_top proper holds denotesHigh denotesLow halves
      -- Branches with the same function would be the same reference.
      have differ : ∃ a, onTrue a ≠ onFalse a := by
        by_contra never
        have same (a : Nat → Bool) : onTrue a = onFalse a :=
          Classical.not_not.mp fun differs => never ⟨a, differs⟩
        exact proper.branches_ne holds ((denotesHigh.congr same).ref_eq proper denotesLow)
      obtain ⟨a, differs⟩ := differ
      exact ⟨a, by rw [fixed, fixed]; exact differs⟩
  | high holds inside ih =>
      obtain ⟨onTrue, onFalse, denotesHigh, denotesLow, halves⟩ := denotes.branches holds
      have fixed := Denotes.update_top proper holds denotesHigh denotesLow halves
      have lt := inside.lt proper (proper.orders holds).high
      exact (ih denotesHigh).of_branch (Nat.ne_of_gt lt) fun a => fixed a true
  | low holds inside ih =>
      obtain ⟨onTrue, onFalse, denotesHigh, denotesLow, halves⟩ := denotes.branches holds
      have fixed := Denotes.update_top proper holds denotesHigh denotesLow halves
      have lt := inside.lt proper (proper.orders holds).low
      exact (ih denotesLow).of_branch (Nat.ne_of_gt lt) fun a => fixed a false

/-- Variables that determine the values of a function are all that is essential for it. -/
theorem Essential.mem {φ : (Nat → Bool) → Bool} (essential : Essential φ var)
    {allowed : Nat → Prop}
    (decides : ∀ a b : Nat → Bool, (∀ other, allowed other → a other = b other) → φ a = φ b) :
    allowed var := by
  by_contra outside
  obtain ⟨a, differs⟩ := essential
  refine differs (decides _ _ fun other inside => ?_)
  have ne : other ≠ var := fun same => outside (same ▸ inside)
  rw [Function.update_of_ne ne, Function.update_of_ne ne]

/-- A diagram mentions the essential variables of its function and no others. -/
theorem Denotes.mentions_iff (proper : arena.Proper) {φ : (Nat → Bool) → Bool}
    (denotes : arena.Denotes f φ) : arena.Mentions f var ↔ Essential φ var := by
  constructor
  · exact fun mentions => mentions.essential proper denotes
  · exact fun essential => essential.mem fun _ _ agree => denotes.congr_mentions agree

/-- Flipping an essential variable changes the value somewhere. -/
theorem essential_iff {φ : (Nat → Bool) → Bool} :
    Essential φ var ↔ ∃ a, φ (Function.update a var (!a var)) ≠ φ a := by
  constructor
  · rintro ⟨a, differs⟩
    refine ⟨Function.update a var true, ?_⟩
    rw [Function.update_self, Function.update_idem]
    exact differs.symm
  · rintro ⟨a, differs⟩
    refine ⟨a, fun same => differs ?_⟩
    have whole := Function.update_eq_self var a
    cases value : a var with
    | false => rw [value] at whole; exact same.trans (congrArg φ whole)
    | true => rw [value] at whole; exact same.symm.trans (congrArg φ whole)

end Arena

namespace Manager

/-- The support of the diagram is found and lies within the allowed variables. -/
def Within (m : Manager) (f : Ref) (allowed : Nat → Prop) : Prop :=
  ∃ vars, m.support f = .ok vars ∧ ∀ var ∈ vars, allowed var

theorem support_of_listed {m : Manager} {f : Ref} {vars : List Nat}
    (listed : (m.support f).toOption = some vars) : m.support f = .ok vars := by
  cases found : m.support f with
  | error fault => rw [found] at listed; cases listed
  | ok others => rw [found] at listed; cases listed; rfl

theorem within_of_listed {m : Manager} {f : Ref} {allowed : Nat → Prop} {vars : List Nat}
    (listed : (m.support f).toOption = some vars) (inside : ∀ var ∈ vars, allowed var) :
    m.Within f allowed :=
  ⟨vars, support_of_listed listed, inside⟩

/-- Assignments that agree on the allowed variables are both in the set or both outside. -/
def DecidedBy (allowed : Nat → Prop) (S : (Nat → Bool) → Prop) : Prop :=
  ∀ a b : Nat → Bool, (∀ var, allowed var → a var = b var) → (S a ↔ S b)

section Sound

variable {m : Manager} (sound : m.Sound) {f : Ref} {allowed : Nat → Prop}
include sound

theorem within_iff :
    m.Within f allowed ↔ m.Resident f ∧ ∀ var, m.arena.Mentions f var → allowed var := by
  constructor
  · rintro ⟨vars, found, inside⟩
    have resident : m.Resident f := by
      by_contra foreign
      cases (support_of_foreign foreign).symm.trans found
    obtain ⟨node, holds⟩ := resident_iff.mp resident
    obtain ⟨listed, foundListed, mem_listed⟩ := support_of_holds sound.proper holds
    cases found.symm.trans foundListed
    exact ⟨resident, fun var mentions => inside var ((mem_listed var).mpr mentions)⟩
  · rintro ⟨resident, mentioned⟩
    obtain ⟨node, holds⟩ := resident_iff.mp resident
    obtain ⟨vars, found, mem_vars⟩ := support_of_holds sound.proper holds
    exact ⟨vars, found, fun var inside => mentioned var ((mem_vars var).mp inside)⟩

/-- A diagram lies within the variables that decide about its set of assignments. -/
theorem Describes.within_iff {S : (Nat → Bool) → Prop} (describes : m.Describes f S) :
    m.Within f allowed ↔ DecidedBy allowed S := by
  obtain ⟨φ, represents, value⟩ := describes
  rw [Manager.within_iff sound]
  constructor
  · rintro ⟨_, mentioned⟩ a b agree
    have same : φ a = φ b :=
      represents.congr_mentions sound fun var mentions => agree var (mentioned var mentions)
    rw [← value, ← value, same]
  · refine fun decided => ⟨represents.1, fun var mentions => ?_⟩
    have denotes := sound.denotes_of_represents represents
    refine (mentions.essential sound.proper denotes).mem fun a b agree => ?_
    exact Bool.eq_iff_iff.mpr ((value a).trans ((decided a b agree).trans (value b).symm))

/-- The support of a diagram lists the essential variables of its function. -/
theorem Represents.support {φ : (Nat → Bool) → Bool} (represents : m.Represents f φ) :
    ∃ vars, m.support f = .ok vars ∧ ∀ var, var ∈ vars ↔ Arena.Essential φ var := by
  obtain ⟨node, holds⟩ := resident_iff.mp represents.1
  obtain ⟨vars, listed, mem_vars⟩ := support_of_holds sound.proper holds
  refine ⟨vars, listed, fun var => (mem_vars var).trans ?_⟩
  exact (sound.denotes_of_represents represents).mentions_iff sound.proper

end Sound

/--
The support of a diagram consists of the variables whose change can change its value. So assignments
that agree on the support have the same value, and every set of variables with this property
contains the support.
-/
theorem Reached.support_exact {m : Manager} (reached : m.Reached) {f : Ref}
    (inside : m.Resident f) :
    ∃ (φ : (Nat → Bool) → Bool) (vars : List Nat),
      m.Represents f φ ∧ m.support f = .ok vars ∧
      (∀ var, var ∈ vars ↔ ∃ a, φ (Function.update a var (!a var)) ≠ φ a) ∧
      (∀ a b : Nat → Bool, (∀ var ∈ vars, a var = b var) → φ a = φ b) ∧
      ∀ allowed : Nat → Prop,
        (∀ a b : Nat → Bool, (∀ var, allowed var → a var = b var) → φ a = φ b) →
        ∀ var ∈ vars, allowed var := by
  have sound := reached.sound
  obtain ⟨φ, represents⟩ := sound.exists_represents inside
  obtain ⟨vars, listed, mem_vars⟩ := represents.support sound
  have denotes := sound.denotes_of_represents represents
  refine ⟨φ, vars, represents, listed, ?_, ?_, ?_⟩
  · exact fun var => (mem_vars var).trans Arena.essential_iff
  · intro a b agree
    refine represents.congr_mentions sound fun var mentions => agree var ?_
    exact (mem_vars var).mpr (mentions.essential sound.proper denotes)
  · intro allowed decides var listedVar
    exact ((mem_vars var).mp listedVar).mem decides

theorem reached_bothCopies : bothCopies.Reached :=
  (reached_fresh (by decide)).run _

theorem support_bothCopies : bothCopies.support ⟨5⟩ = .ok [1, 2, 3] :=
  support_of_listed (by decide +kernel)

theorem support_exact_bothCopies :
    bothCopies.Resident ⟨5⟩ ∧ ∃ φ : (Nat → Bool) → Bool, bothCopies.Represents ⟨5⟩ φ ∧
      (∀ var, var ∈ [1, 2, 3] ↔ ∃ a, φ (Function.update a var (!a var)) ≠ φ a) ∧
      ¬ ∀ a b : Nat → Bool, (∀ var, var ≠ 3 → a var = b var) → φ a = φ b := by
  have inside : bothCopies.Resident ⟨5⟩ := by decide
  obtain ⟨φ, vars, represents, listed, exact, _, least⟩ := reached_bothCopies.support_exact inside
  obtain rfl : vars = [1, 2, 3] := Except.ok.inj (listed.symm.trans support_bothCopies)
  exact ⟨inside, φ, represents, exact, fun decides => least _ decides 3 (by decide) rfl⟩

end Manager

end DecisionDiagram
