import DecisionDiagram.Connective
import DecisionDiagram.Proofs.Arena.Unfolding

/-!
# Applying a connective in an arena

`Applies` is the algorithm without memory: split both operands on the smaller
top variable, apply the connective to the branches for a true variable, then to
those for a false one, and make the decision. It relates the arena before to the
result and the arena after. In a proper arena it denotes the connective, and
once it has run it runs again without storing anything.
-/

namespace DecisionDiagram

/-! ## Splitting -/

namespace Node

theorem topVar?_comm (a b : Node) : topVar? b a = topVar? a b := by
  cases a with
  | leaf _ => cases b <;> rfl
  | decision v _ _ =>
      cases b with
      | leaf _ => rfl
      | decision w _ _ => rw [topVar?, topVar?, Nat.min_comm]

/-- Only two leaves are not split. -/
theorem leaves_of_topVar? {a b : Node} (split : topVar? a b = none) :
    (∃ x, a = leaf x) ∧ ∃ y, b = leaf y := by
  cases a with
  | leaf x =>
      cases b with
      | leaf y => exact ⟨⟨x, rfl⟩, ⟨y, rfl⟩⟩
      | decision _ _ _ => cases split
  | decision _ _ _ => cases b <;> cases split

/-- Two nodes are split on the label of one of them. -/
theorem topVar?_eq_some {a b : Node} {var : Nat} (split : topVar? a b = some var) :
    (∃ high low, a = decision var high low) ∨ ∃ high low, b = decision var high low := by
  cases a with
  | leaf _ =>
      cases b with
      | leaf _ => cases split
      | decision w high low =>
          cases split
          exact Or.inr ⟨high, low, rfl⟩
  | decision v highA lowA =>
      cases b with
      | leaf _ =>
          cases split
          exact Or.inl ⟨highA, lowA, rfl⟩
      | decision w highB lowB =>
          cases split
          rcases Nat.le_total v w with le | le
          · exact Or.inl ⟨highA, lowA, by rw [Nat.min_eq_left le]⟩
          · exact Or.inr ⟨highB, lowB, by rw [Nat.min_eq_right le]⟩

theorem le_of_topVar? {b : Node} {top var : Nat} {high low : Ref}
    (split : topVar? (decision top high low) b = some var) : var ≤ top := by
  cases b with
  | leaf _ => exact Nat.le_of_eq (Option.some.inj split).symm
  | decision w _ _ => exact Option.some.inj split ▸ Nat.min_le_left top w

end Node

namespace Arena

/-- The cofactor of a cell stays behind the variable that it is split on. -/
theorem Proper.admits_cofactor {arena : Arena} (proper : arena.Proper) {p : Ref} {a b : Node}
    (holds : arena.Holds p a) {var : Nat} (split : Node.topVar? a b = some var) (value : Bool) :
    arena.Admits var (a.cofactor var value p) := by
  cases a with
  | leaf x => exact ⟨.leaf x, holds, rfl⟩
  | decision top high low =>
      rw [Node.cofactor]
      split
      next same =>
        subst same
        have orders := proper.orders holds
        cases value
        · exact orders.low
        · exact orders.high
      next ne =>
        have lt : var < top := Nat.lt_of_le_of_ne (Node.le_of_topVar? split) ne
        exact ⟨_, holds, decide_eq_true lt⟩

theorem Denotes.cofactors {arena : Arena} {p : Ref} {a : Node} (holds : arena.Holds p a)
    {φ : (Nat → Bool) → Bool} (denotes : arena.Denotes p φ) (var : Nat) :
    ∃ onTrue onFalse, arena.Denotes (a.cofactor var true p) onTrue ∧
      arena.Denotes (a.cofactor var false p) onFalse ∧
        ∀ x, φ x = if x var then onTrue x else onFalse x := by
  cases a with
  | leaf value => exact ⟨φ, φ, denotes, denotes, fun x => (ite_self (φ x)).symm⟩
  | decision top high low =>
      by_cases same : var = top
      · subst same
        simpa [Node.cofactor] using denotes.branches holds
      · refine ⟨φ, φ, ?_, ?_, fun x => (ite_self (φ x)).symm⟩
        · rwa [Node.cofactor, if_neg same]
        · rwa [Node.cofactor, if_neg same]

/-! ## The algorithm -/

inductive Applies (op : Connective) : Arena → Ref → Ref → Ref → Arena → Prop where
  | leaves {arena : Arena} {p q : Ref} {x y : Bool} (holdsP : arena.Holds p (.leaf x))
      (holdsQ : arena.Holds q (.leaf y)) :
      Applies op arena p q (Ref.ofBool (op.eval x y)) arena
  | split {arena middle last later : Arena} {p q high low ref : Ref} {a b : Node} {var : Nat}
      (holdsP : arena.Holds p a) (holdsQ : arena.Holds q b)
      (split : Node.topVar? a b = some var)
      (onTrue : Applies op arena (a.cofactor var true p) (b.cofactor var true q) high middle)
      (onFalse : Applies op middle (a.cofactor var false p) (b.cofactor var false q) low last)
      (made : last.decision var high low = (ref, later)) : Applies op arena p q ref later

def Precedes (arena : Arena) (p q : Ref) (var : Nat) : Prop :=
  arena.Admits var p ∧ arena.Admits var q

theorem Proper.split_ne_zero {arena : Arena} (proper : arena.Proper) {p q : Ref} {a b : Node}
    {var : Nat} (holdsP : arena.Holds p a) (holdsQ : arena.Holds q b)
    (split : Node.topVar? a b = some var) : var ≠ 0 := by
  rcases Node.topVar?_eq_some split with ⟨_, _, rfl⟩ | ⟨_, _, rfl⟩
  · exact (proper.orders holdsP).var_ne_zero
  · exact (proper.orders holdsQ).var_ne_zero

/-- The results for the branches of a split can be decided between. -/
theorem Proper.orders_split {arena middle last : Arena} (proper : arena.Proper)
    {p q high low : Ref} {a b : Node} {var : Nat} (holdsP : arena.Holds p a)
    (holdsQ : arena.Holds q b) (split : Node.topVar? a b = some var)
    (onTrue : arena.Yields (arena.Precedes (a.cofactor var true p) (b.cofactor var true q))
      high middle)
    (onFalse : middle.Yields (middle.Precedes (a.cofactor var false p) (b.cofactor var false q))
      low last) : last.Orders var high low where
  var_ne_zero := proper.split_ne_zero holdsP holdsQ split
  high := by
    have above := onTrue.admits ⟨proper.admits_cofactor holdsP split true,
      proper.admits_cofactor holdsQ (Node.topVar?_comm a b ▸ split) true⟩
    exact above.extend onFalse.grown
  low := by
    have aboveP := proper.admits_cofactor holdsP split false
    have aboveQ := proper.admits_cofactor holdsQ (Node.topVar?_comm a b ▸ split) false
    exact onFalse.admits ⟨aboveP.extend onTrue.grown, aboveQ.extend onTrue.grown⟩

namespace Applies

variable {op : Connective} {arena later : Arena} {p q ref : Ref}

theorem yields (applies : arena.Applies op p q ref later) (proper : arena.Proper) :
    arena.Yields (arena.Precedes p q) ref later := by
  induction applies with
  | leaves _ _ => exact ⟨.refl _, proper, fun _ => ⟨_, proper.leaf _, rfl⟩⟩
  | split holdsP holdsQ split _ _ made ihTrue ihFalse =>
      have onTrue := ihTrue proper
      have onFalse := ihFalse onTrue.proper
      have orders := proper.orders_split holdsP holdsQ split onTrue onFalse
      have step := decided onFalse.proper orders made
      refine ⟨(onTrue.grown.trans onFalse.grown).trans step.grown, step.proper, ?_⟩
      rintro var ⟨admitsP, admitsQ⟩
      apply step.admits
      rcases Node.topVar?_eq_some split with ⟨_, _, rfl⟩ | ⟨_, _, rfl⟩
      · exact admitsP.lt holdsP
      · exact admitsQ.lt holdsQ

/-- The three steps of a split: on true, on false, and the decision between the results. -/
theorem steps {middle last : Arena} (proper : arena.Proper) {a b : Node} {var : Nat}
    {high low : Ref} (holdsP : arena.Holds p a) (holdsQ : arena.Holds q b)
    (split : Node.topVar? a b = some var)
    (onTrue : arena.Applies op (a.cofactor var true p) (b.cofactor var true q) high middle)
    (onFalse : middle.Applies op (a.cofactor var false p) (b.cofactor var false q) low last)
    (made : last.decision var high low = (ref, later)) :
    arena.Yields (arena.Precedes (a.cofactor var true p) (b.cofactor var true q)) high middle ∧
      middle.Yields (middle.Precedes (a.cofactor var false p) (b.cofactor var false q)) low last ∧
      last.Decided var high low ref later := by
  have first := onTrue.yields proper
  have second := onFalse.yields first.proper
  have orders := proper.orders_split holdsP holdsQ split first second
  exact ⟨first, second, decided second.proper orders made⟩

theorem inside (applies : arena.Applies op p q ref later) (proper : arena.Proper) :
    later.Admits 0 ref := by
  apply (applies.yields proper).admits
  cases applies with
  | leaves holdsP holdsQ => exact ⟨proper.admits_zero holdsP, proper.admits_zero holdsQ⟩
  | split holdsP holdsQ _ _ _ _ => exact ⟨proper.admits_zero holdsP, proper.admits_zero holdsQ⟩

/-- The result depends on the operands and the arena only. -/
theorem unique (applies : arena.Applies op p q ref later) {ref' : Ref} {later' : Arena}
    (other : arena.Applies op p q ref' later') : ref = ref' ∧ later = later' := by
  induction applies generalizing ref' later' with
  | leaves holdsP holdsQ =>
      cases other with
      | leaves otherP otherQ =>
          cases holdsP.inj otherP
          cases holdsQ.inj otherQ
          exact ⟨rfl, rfl⟩
      | split otherP otherQ split _ _ _ =>
          cases holdsP.inj otherP
          cases holdsQ.inj otherQ
          cases split
  | split holdsP holdsQ split _ _ made ihTrue ihFalse =>
      cases other with
      | leaves otherP otherQ =>
          cases holdsP.inj otherP
          cases holdsQ.inj otherQ
          cases split
      | split otherP otherQ otherSplit onTrue onFalse otherMade =>
          cases holdsP.inj otherP
          cases holdsQ.inj otherQ
          cases split.symm.trans otherSplit
          obtain ⟨rfl, rfl⟩ := ihTrue onTrue
          obtain ⟨rfl, rfl⟩ := ihFalse onFalse
          cases made.symm.trans otherMade
          exact ⟨rfl, rfl⟩

/-- What has been applied is applied again without effect. -/
theorem again (applies : arena.Applies op p q ref later) (proper : arena.Proper) {final : Arena}
    (properFinal : final.Proper) (grown : later.Extends final) :
    final.Applies op p q ref final := by
  induction applies with
  | leaves holdsP holdsQ => exact .leaves (grown _ _ holdsP) (grown _ _ holdsQ)
  | split holdsP holdsQ split onTrue onFalse made ihTrue ihFalse =>
      obtain ⟨first, second, step⟩ := steps proper holdsP holdsQ split onTrue onFalse made
      have afterSecond := step.grown.trans grown
      have afterFirst := second.grown.trans afterSecond
      exact .split (first.grown.trans afterFirst _ _ holdsP)
        (first.grown.trans afterFirst _ _ holdsQ) split (ihTrue proper afterFirst)
        (ihFalse first.proper afterSecond) (step.again properFinal grown)

theorem flip (applies : arena.Applies op p q ref later) :
    arena.Applies op.flip q p ref later := by
  induction applies with
  | leaves holdsP holdsQ => exact op.eval_flip _ _ ▸ .leaves holdsQ holdsP
  | split holdsP holdsQ split _ _ made ihTrue ihFalse =>
      exact .split holdsQ holdsP (Node.topVar?_comm _ _ ▸ split) ihTrue ihFalse made

/-- The result denotes the connective at the functions of the operands. -/
theorem denotes (applies : arena.Applies op p q ref later) (proper : arena.Proper)
    {φ ψ : (Nat → Bool) → Bool} (denotesP : arena.Denotes p φ) (denotesQ : arena.Denotes q ψ) :
    later.Denotes ref fun a => op.eval (φ a) (ψ a) := by
  induction applies generalizing φ ψ with
  | leaves holdsP holdsQ =>
      refine (Denotes.leaf (proper.leaf _)).congr fun a => ?_
      rw [denotesP.inj (.leaf holdsP) a, denotesQ.inj (.leaf holdsQ) a]
  | split holdsP holdsQ split onTrue onFalse made ihTrue ihFalse =>
      obtain ⟨first, second, step⟩ := steps proper holdsP holdsQ split onTrue onFalse made
      obtain ⟨trueP, falseP, denotesTrueP, denotesFalseP, halvesP⟩ :=
        denotesP.cofactors holdsP _
      obtain ⟨trueQ, falseQ, denotesTrueQ, denotesFalseQ, halvesQ⟩ :=
        denotesQ.cofactors holdsQ _
      have onHigh := ihTrue proper denotesTrueP denotesTrueQ
      have onLow := ihFalse first.proper (denotesFalseP.extend first.grown)
        (denotesFalseQ.extend first.grown)
      refine (step.denotes (onHigh.extend second.grown) onLow).congr fun a => ?_
      rw [halvesP, halvesQ]
      split <;> rfl

end Applies

end Arena

end DecisionDiagram
