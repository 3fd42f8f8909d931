import DecisionDiagram.StateVariable
import DecisionDiagram.Proofs.Arena.Apply

/-!
# Choice and renaming in an arena

`Chooses` decides on a variable that may stand anywhere in the order. If it does
not precede both branches, the choice is composed from its literals by
connectives, and the auxiliary diagrams stay in the arena. `Renames` takes every
variable of a diagram to one copy, from the leaves up.
-/

namespace DecisionDiagram

namespace Connective

theorem eval_and (x y : Bool) : Connective.and.eval x y = (x && y) := by
  cases x <;> cases y <;> rfl

theorem eval_or (x y : Bool) : Connective.or.eval x y = (x || y) := by
  cases x <;> cases y <;> rfl

theorem eval_imply (x y : Bool) : Connective.imply.eval x y = (!x || y) := by
  cases x <;> cases y <;> rfl

end Connective

theorem StateCopy.rename_ne_zero (copy : StateCopy) {var : Nat} (ne : var ≠ 0) :
    copy.rename var ≠ 0 := by
  cases copy with
  | current =>
      rw [rename]
      split <;> omega
  | next =>
      rw [rename]
      omega

namespace Arena

/-! ## Choice -/

inductive Chooses (var : Nat) : Arena → Ref → Ref → Ref → Arena → Prop where
  | same {arena : Arena} {f : Ref} : Chooses var arena f f f arena
  | plain {arena later : Arena} {high low ref : Ref} {a b : Node} (ne : high ≠ low)
      (holdsHigh : arena.Holds high a) (holdsLow : arena.Holds low b)
      (ordered : a.admits var && b.admits var)
      (made : arena.decision var high low = (ref, later)) : Chooses var arena high low ref later
  | composed {arena withVar withTrue withNot withFalse later : Arena}
      {high low x notX onTrue onFalse ref : Ref} {a b : Node} (ne : high ≠ low)
      (holdsHigh : arena.Holds high a) (holdsLow : arena.Holds low b)
      (disordered : ¬ (a.admits var && b.admits var))
      (made : arena.decision var (Ref.ofBool true) (Ref.ofBool false) = (x, withVar))
      (conjTrue : withVar.Applies .and x high onTrue withTrue)
      (negation : withTrue.Applies .imply x Ref.falseLeaf notX withNot)
      (conjFalse : withNot.Applies .and notX low onFalse withFalse)
      (disjunction : withFalse.Applies .or onTrue onFalse ref later) :
      Chooses var arena high low ref later

/-- The literal of a variable can be made in every proper arena. -/
theorem Proper.orders_leaves {arena : Arena} (proper : arena.Proper) {var : Nat} (ne : var ≠ 0)
    (x y : Bool) : arena.Orders var (Ref.ofBool x) (Ref.ofBool y) :=
  ⟨ne, ⟨_, proper.leaf x, rfl⟩, ⟨_, proper.leaf y, rfl⟩⟩

theorem Proper.orders_nodes {arena : Arena} {var : Nat} (ne : var ≠ 0) {high low : Ref}
    {a b : Node} (holdsHigh : arena.Holds high a) (holdsLow : arena.Holds low b)
    (ordered : a.admits var && b.admits var) : arena.Orders var high low := by
  obtain ⟨first, second⟩ := Bool.and_eq_true_iff.mp ordered
  exact ⟨ne, ⟨a, holdsHigh, first⟩, ⟨b, holdsLow, second⟩⟩

/-- The five steps of a composed choice all start in proper arenas. -/
theorem Proper.composed_steps {arena withVar withTrue withNot withFalse later : Arena}
    (proper : arena.Proper) {var : Nat} (ne : var ≠ 0) {high low x notX onTrue onFalse ref : Ref}
    (made : arena.decision var (Ref.ofBool true) (Ref.ofBool false) = (x, withVar))
    (conjTrue : withVar.Applies .and x high onTrue withTrue)
    (negation : withTrue.Applies .imply x Ref.falseLeaf notX withNot)
    (conjFalse : withNot.Applies .and notX low onFalse withFalse)
    (disjunction : withFalse.Applies .or onTrue onFalse ref later) :
    arena.Decided var (Ref.ofBool true) (Ref.ofBool false) x withVar ∧
      withVar.Yields (withVar.Precedes x high) onTrue withTrue ∧
      withTrue.Yields (withTrue.Precedes x Ref.falseLeaf) notX withNot ∧
      withNot.Yields (withNot.Precedes notX low) onFalse withFalse ∧
      withFalse.Yields (withFalse.Precedes onTrue onFalse) ref later := by
  have first := decided proper (proper.orders_leaves ne true false) made
  have second := conjTrue.yields first.proper
  have third := negation.yields second.proper
  have fourth := conjFalse.yields third.proper
  exact ⟨first, second, third, fourth, disjunction.yields fourth.proper⟩

namespace Chooses

variable {var : Nat} {arena later : Arena} {high low ref : Ref}

theorem yields (chooses : arena.Chooses var high low ref later) (proper : arena.Proper)
    (ne : var ≠ 0) (insideHigh : arena.Admits 0 high) :
    arena.Yields (· = 0) ref later := by
  cases chooses with
  | same => exact ⟨.refl _, proper, fun zero => zero ▸ insideHigh⟩
  | plain _ holdsHigh holdsLow ordered made =>
      have step := decided proper (Proper.orders_nodes ne holdsHigh holdsLow ordered) made
      exact ⟨step.grown, step.proper, fun zero => step.admits (zero ▸ Nat.pos_of_ne_zero ne)⟩
  | composed _ _ _ _ made conjTrue negation conjFalse disjunction =>
      obtain ⟨first, second, third, fourth, fifth⟩ :=
        proper.composed_steps ne made conjTrue negation conjFalse disjunction
      have grown := first.grown.trans (second.grown.trans (third.grown.trans fourth.grown))
      exact ⟨grown.trans fifth.grown, fifth.proper,
        fun zero => zero ▸ disjunction.inside fourth.proper⟩

/-- The result depends on the operands and the arena only. -/
theorem unique (chooses : arena.Chooses var high low ref later) {ref' : Ref} {later' : Arena}
    (other : arena.Chooses var high low ref' later') : ref = ref' ∧ later = later' := by
  cases chooses with
  | same =>
      cases other with
      | same => exact ⟨rfl, rfl⟩
      | plain ne _ _ _ _ => exact absurd rfl ne
      | composed ne _ _ _ _ _ _ _ _ => exact absurd rfl ne
  | plain ne holdsHigh holdsLow ordered made =>
      cases other with
      | same => exact absurd rfl ne
      | plain _ _ _ _ otherMade =>
          cases made.symm.trans otherMade
          exact ⟨rfl, rfl⟩
      | composed _ otherHigh otherLow disordered _ _ _ _ _ =>
          cases holdsHigh.inj otherHigh
          cases holdsLow.inj otherLow
          exact absurd ordered disordered
  | composed ne holdsHigh holdsLow disordered made conjTrue negation conjFalse disjunction =>
      cases other with
      | same => exact absurd rfl ne
      | plain _ otherHigh otherLow ordered _ =>
          cases holdsHigh.inj otherHigh
          cases holdsLow.inj otherLow
          exact absurd ordered disordered
      | composed _ _ _ _ otherMade otherTrue otherNegation otherFalse otherDisjunction =>
          cases made.symm.trans otherMade
          obtain ⟨rfl, rfl⟩ := conjTrue.unique otherTrue
          obtain ⟨rfl, rfl⟩ := negation.unique otherNegation
          obtain ⟨rfl, rfl⟩ := conjFalse.unique otherFalse
          exact disjunction.unique otherDisjunction

/-- What has been chosen is chosen again without effect. -/
theorem again (chooses : arena.Chooses var high low ref later) (proper : arena.Proper)
    (ne : var ≠ 0) {final : Arena} (properFinal : final.Proper) (grown : later.Extends final) :
    final.Chooses var high low ref final := by
  cases chooses with
  | same => exact .same
  | plain differ holdsHigh holdsLow ordered made =>
      have step := decided proper (Proper.orders_nodes ne holdsHigh holdsLow ordered) made
      have before := step.grown.trans grown
      exact .plain differ (before _ _ holdsHigh) (before _ _ holdsLow) ordered
        (step.again properFinal grown)
  | composed differ holdsHigh holdsLow disordered made conjTrue negation conjFalse disjunction =>
      obtain ⟨first, second, third, fourth, fifth⟩ :=
        proper.composed_steps ne made conjTrue negation conjFalse disjunction
      have afterFourth := fifth.grown.trans grown
      have afterThird := fourth.grown.trans afterFourth
      have afterSecond := third.grown.trans afterThird
      have afterFirst := second.grown.trans afterSecond
      have before := first.grown.trans afterFirst
      exact .composed differ (before _ _ holdsHigh) (before _ _ holdsLow) disordered
        (first.again properFinal afterFirst) (conjTrue.again first.proper properFinal afterSecond)
        (negation.again second.proper properFinal afterThird)
        (conjFalse.again third.proper properFinal afterFourth)
        (disjunction.again fourth.proper properFinal grown)

/-- The result denotes the choice between the functions of the operands. -/
theorem denotes (chooses : arena.Chooses var high low ref later) (proper : arena.Proper)
    (ne : var ≠ 0) {φ ψ : (Nat → Bool) → Bool} (denotesHigh : arena.Denotes high φ)
    (denotesLow : arena.Denotes low ψ) :
    later.Denotes ref fun a => if a var then φ a else ψ a := by
  cases chooses with
  | same =>
      refine denotesHigh.congr fun a => ?_
      rw [denotesLow.inj denotesHigh a, ite_self]
  | plain differ holdsHigh holdsLow ordered made =>
      have step := decided proper (Proper.orders_nodes ne holdsHigh holdsLow ordered) made
      exact step.denotes denotesHigh denotesLow
  | composed differ holdsHigh holdsLow disordered made conjTrue negation conjFalse disjunction =>
      obtain ⟨first, second, third, fourth, fifth⟩ :=
        proper.composed_steps ne made conjTrue negation conjFalse disjunction
      have denotesVar := first.denotes (.leaf (proper.leaf true)) (.leaf (proper.leaf false))
      have denotesTrue :=
        conjTrue.denotes first.proper denotesVar (denotesHigh.extend first.grown)
      have denotesNot := negation.denotes second.proper (denotesVar.extend second.grown)
        (.leaf (second.proper.leaf false))
      have denotesFalse := conjFalse.denotes third.proper denotesNot
        (denotesLow.extend (first.grown.trans (second.grown.trans third.grown)))
      have denotesAll := disjunction.denotes fourth.proper
        (denotesTrue.extend (third.grown.trans fourth.grown)) denotesFalse
      refine denotesAll.congr fun a => ?_
      rw [Connective.eval_or, Connective.eval_and, Connective.eval_and, Connective.eval_imply]
      cases a var <;> simp

end Chooses

/-! ## Renaming -/

inductive Renames (copy : StateCopy) : Arena → Ref → Ref → Arena → Prop where
  | leaf {arena : Arena} {f : Ref} {x : Bool} (holds : arena.Holds f (.leaf x)) :
      Renames copy arena f f arena
  | node {arena middle last later : Arena} {f high low onTrue onFalse ref : Ref} {var : Nat}
      (holds : arena.Holds f (.decision var high low))
      (renamesHigh : Renames copy arena high onTrue middle)
      (renamesLow : Renames copy middle low onFalse last)
      (chooses : last.Chooses (copy.rename var) onTrue onFalse ref later) :
      Renames copy arena f ref later

namespace Renames

variable {copy : StateCopy} {arena later : Arena} {f ref : Ref}

theorem yields (renames : arena.Renames copy f ref later) (proper : arena.Proper) :
    arena.Yields (· = 0) ref later := by
  induction renames with
  | leaf holds => exact ⟨.refl _, proper, fun zero => zero ▸ proper.admits_zero holds⟩
  | node holds _ _ chooses ihHigh ihLow =>
      have high := ihHigh proper
      have low := ihLow high.proper
      have ne := copy.rename_ne_zero (proper.orders holds).var_ne_zero
      have choice := chooses.yields low.proper ne ((high.admits rfl).extend low.grown)
      exact ⟨(high.grown.trans low.grown).trans choice.grown, choice.proper, choice.admits⟩

/-- The result depends on the operand and the arena only. -/
theorem unique (renames : arena.Renames copy f ref later) {ref' : Ref} {later' : Arena}
    (other : arena.Renames copy f ref' later') : ref = ref' ∧ later = later' := by
  induction renames generalizing ref' later' with
  | leaf holds =>
      cases other with
      | leaf _ => exact ⟨rfl, rfl⟩
      | node otherHolds _ _ _ => cases holds.inj otherHolds
  | node holds _ _ chooses ihHigh ihLow =>
      cases other with
      | leaf otherHolds => cases holds.inj otherHolds
      | node otherHolds renamesHigh renamesLow otherChooses =>
          cases holds.inj otherHolds
          obtain ⟨rfl, rfl⟩ := ihHigh renamesHigh
          obtain ⟨rfl, rfl⟩ := ihLow renamesLow
          exact chooses.unique otherChooses

/-- What has been renamed is renamed again without effect. -/
theorem again (renames : arena.Renames copy f ref later) (proper : arena.Proper) {final : Arena}
    (properFinal : final.Proper) (grown : later.Extends final) :
    final.Renames copy f ref final := by
  induction renames with
  | leaf holds => exact .leaf (grown _ _ holds)
  | node holds renamesHigh renamesLow chooses ihHigh ihLow =>
      have high := renamesHigh.yields proper
      have low := renamesLow.yields high.proper
      have ne := copy.rename_ne_zero (proper.orders holds).var_ne_zero
      have choice := chooses.yields low.proper ne ((high.admits rfl).extend low.grown)
      have afterLow := choice.grown.trans grown
      have afterHigh := low.grown.trans afterLow
      exact .node (high.grown.trans afterHigh _ _ holds) (ihHigh proper afterHigh)
        (ihLow high.proper afterLow) (chooses.again low.proper ne properFinal grown)

/-- The result denotes the function of the renamed assignment. -/
theorem denotes (renames : arena.Renames copy f ref later) (proper : arena.Proper)
    {φ : (Nat → Bool) → Bool} (denotesF : arena.Denotes f φ) :
    later.Denotes ref fun a => φ fun var => a (copy.rename var) := by
  induction renames generalizing φ with
  | leaf holds =>
      refine denotesF.congr fun a => ?_
      have constant := denotesF.inj (.leaf holds)
      rw [constant, constant]
  | node holds renamesHigh renamesLow chooses ihHigh ihLow =>
      have high := renamesHigh.yields proper
      have low := renamesLow.yields high.proper
      have ne := copy.rename_ne_zero (proper.orders holds).var_ne_zero
      obtain ⟨onTrue, onFalse, denotesHigh, denotesLow, halves⟩ := denotesF.branches holds
      have renamedHigh := (ihHigh proper denotesHigh).extend low.grown
      have renamedLow := ihLow high.proper (denotesLow.extend high.grown)
      refine (chooses.denotes low.proper ne renamedHigh renamedLow).congr fun a => ?_
      rw [halves]

end Renames

end Arena

end DecisionDiagram
