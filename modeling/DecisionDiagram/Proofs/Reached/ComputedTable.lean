import Mathlib.Data.List.ReduceOption
import DecisionDiagram.Proofs.Reached.Canonicity

/-!
# The computed table of a reached manager

What is remembered is correct: every entry of the computed table names operands
with nodes and a result that represents the function promised by the key. And it
is a mere convenience: a history brings the same and makes the same nodes if the
table is cleared at any times in between.
-/

namespace DecisionDiagram

namespace Manager

/-! ## Correct entries -/

/-- What a key promises about its result. -/
def Correct (m : Manager) : ComputedKey → Ref → Prop
  | .apply op p q, ref =>
      p.slot ≤ q.slot ∧
      (∃ a b, m.table.get? p = some a ∧ m.table.get? q = some b ∧ ¬ (a.isLeaf ∧ b.isLeaf)) ∧
      ∃ φ ψ, m.Represents p φ ∧ m.Represents q ψ ∧ m.Represents ref fun a => op.eval (φ a) (ψ a)
  | .restrict f var value, ref =>
      (∃ top high low, m.table.get? f = some (.decision top high low) ∧ top < var) ∧
      ∃ φ, m.Represents f φ ∧ m.Represents ref fun a => φ (Function.update a var value)
  | .rename copy f, ref =>
      (∃ var high low, m.table.get? f = some (.decision var high low)) ∧
      ∃ φ, m.Represents f φ ∧ m.Represents ref fun a => φ fun var => a (copy.rename var)

theorem Sound.correct {m : Manager} (sound : m.Sound) {key : ComputedKey} {ref : Ref}
    (settled : m.arena.Settled key ref) : m.Correct key ref := by
  have proper := sound.proper
  cases key with
  | apply op p q =>
      obtain ⟨le, ⟨a, b, holdsP, holdsQ, split⟩, applies⟩ := settled
      refine ⟨le, ⟨a, b, holdsP, holdsQ, ?_⟩, ?_⟩
      · rintro ⟨leafA, leafB⟩
        cases a with
        | decision _ _ _ => cases leafA
        | leaf _ =>
            cases b with
            | decision _ _ _ => cases leafB
            | leaf _ => exact split rfl
      · obtain ⟨φ, denotesP⟩ := proper.exists_denotes holdsP.slot_lt
        obtain ⟨ψ, denotesQ⟩ := proper.exists_denotes holdsQ.slot_lt
        exact ⟨φ, ψ, .of_denotes denotesP, .of_denotes denotesQ,
          .of_denotes (applies.denotes proper denotesP denotesQ)⟩
  | restrict f var value =>
      obtain ⟨⟨top, high, low, holds, lt⟩, restricts⟩ := settled
      obtain ⟨φ, denotes⟩ := proper.exists_denotes holds.slot_lt
      exact ⟨⟨top, high, low, holds, lt⟩, φ, .of_denotes denotes,
        .of_denotes (restricts.denotes proper denotes)⟩
  | rename copy f =>
      obtain ⟨⟨var, high, low, holds⟩, renames⟩ := settled
      obtain ⟨φ, denotes⟩ := proper.exists_denotes holds.slot_lt
      exact ⟨⟨var, high, low, holds⟩, φ, .of_denotes denotes,
        .of_denotes (renames.denotes proper denotes)⟩

/-- Every entry of the computed table of a reached manager is correct. -/
theorem Reached.remembers {m : Manager} (reached : m.Reached) {key : ComputedKey} {ref : Ref}
    (found : m.computed.entries[key]? = some ref) : m.Correct key ref :=
  reached.sound.correct (reached.sound.settled key ref found)

def conjunction : Manager :=
  (Operation.apply .and ⟨2⟩ ⟨3⟩).after twoLiterals

theorem remembers_conjunction :
    conjunction.computed.entries[ComputedKey.apply .and ⟨2⟩ ⟨3⟩]? = some ⟨4⟩ ∧
      conjunction.Correct (.apply .and ⟨2⟩ ⟨3⟩) ⟨4⟩ := by
  have reached : conjunction.Reached := reached_twoLiterals.operated _
  have found : conjunction.computed.entries[ComputedKey.apply .and ⟨2⟩ ⟨3⟩]? = some ⟨4⟩ := by
    decide +kernel
  exact ⟨found, reached.remembers found⟩

end Manager

/-! ## Clearing -/

namespace Operation

open Manager

/-- Of what a history with additions brings, the part that the given operations bring. -/
def common : List (Option Operation) → List (Except Fault Answer) → List (Except Fault Answer)
  | some _ :: steps, outcome :: outcomes => outcome :: common steps outcomes
  | none :: steps, _ :: outcomes => common steps outcomes
  | _, _ => []

/-- The history with the computed table cleared wherever no operation is given. -/
def clearing (steps : List (Option Operation)) : List Operation :=
  steps.map fun step => step.getD .clearComputed

theorem twin_cleared {m n : Manager} (twin : Twin m n) :
    Twin m (Operation.clearComputed.after n) :=
  ⟨twin.left, twin.right.cleared, twin.same⟩

/-- Of two twins, one follows the history as it is and the other with clearings added. -/
theorem run_twin {m n : Manager} (twin : Twin m n) (steps : List (Option Operation)) :
    common steps (run (clearing steps) n).1 = (run steps.reduceOption m).1 ∧
      Twin (run steps.reduceOption m).2 (run (clearing steps) n).2 := by
  induction steps generalizing m n with
  | nil => exact ⟨rfl, twin⟩
  | cons step rest ih =>
      cases step with
      | none => exact ih (twin_cleared twin)
      | some op =>
          obtain ⟨outcome, later, _⟩ := twin.operated op
          obtain ⟨outcomes, final⟩ := ih later
          constructor
          · exact congrArg₂ List.cons outcome.symm outcomes
          · exact final

/--
A history brings the same with clearings added anywhere, as far as its own operations go, and it
makes the same nodes in the same cells.
-/
theorem run_clearing {m : Manager} (reached : m.Reached) (steps : List (Option Operation)) :
    common steps (run (clearing steps) m).1 = (run steps.reduceOption m).1 ∧
      (run (clearing steps) m).2.nodeCount = (run steps.reduceOption m).2.nodeCount ∧
      ∀ ref, (run (clearing steps) m).2.table.get? ref =
        (run steps.reduceOption m).2.table.get? ref := by
  obtain ⟨outcomes, twin⟩ := run_twin (Twin.refl reached.sound) steps
  have cells := twin.same
  refine ⟨outcomes, congrArg Array.size cells.symm, ?_⟩
  intro ref
  exact congrArg (fun arena : Arena => arena[ref.slot]?) cells.symm

theorem run_clearing_twoLiterals :
    (run [.apply .and ⟨2⟩ ⟨3⟩, .clearComputed, .neg ⟨4⟩] twoLiterals).2.nodeCount =
      (run [.apply .and ⟨2⟩ ⟨3⟩, .neg ⟨4⟩] twoLiterals).2.nodeCount :=
  (run_clearing reached_twoLiterals [some (.apply .and ⟨2⟩ ⟨3⟩), none, some (.neg ⟨4⟩)]).2.1

end Operation

end DecisionDiagram
