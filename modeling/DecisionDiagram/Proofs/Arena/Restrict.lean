import DecisionDiagram.Proofs.Arena.Unfolding

/-!
# Restriction in an arena

`Restricts` is restriction without memory: the branches of every decision before
the fixed variable are restricted, the one for a true variable first, and the
decision is made anew.
-/

namespace DecisionDiagram.Arena

inductive Restricts (var : Nat) (value : Bool) : Arena → Ref → Ref → Arena → Prop where
  | unaffected {arena : Arena} {f : Ref} (admits : arena.Admits var f) :
      Restricts var value arena f f arena
  | here {arena : Arena} {f high low : Ref} (holds : arena.Holds f (.decision var high low)) :
      Restricts var value arena f (if value then high else low) arena
  | deeper {arena middle last later : Arena} {f high low onTrue onFalse ref : Ref} {top : Nat}
      (holds : arena.Holds f (.decision top high low)) (lt : top < var)
      (restrictsHigh : Restricts var value arena high onTrue middle)
      (restrictsLow : Restricts var value middle low onFalse last)
      (made : last.decision top onTrue onFalse = (ref, later)) :
      Restricts var value arena f ref later

/-- The restricted branches of a decision can be decided between. -/
theorem Proper.orders_branches {arena middle last : Arena} (proper : arena.Proper)
    {f high low onTrue onFalse : Ref} {top : Nat}
    (holds : arena.Holds f (.decision top high low))
    (yieldsHigh : arena.Yields (arena.Admits · high) onTrue middle)
    (yieldsLow : middle.Yields (middle.Admits · low) onFalse last) :
    last.Orders top onTrue onFalse where
  var_ne_zero := (proper.orders holds).var_ne_zero
  high := (yieldsHigh.admits (proper.orders holds).high).extend yieldsLow.grown
  low := yieldsLow.admits ((proper.orders holds).low.extend yieldsHigh.grown)

namespace Restricts

variable {var : Nat} {value : Bool} {arena later : Arena} {f ref : Ref}

theorem yields (restricts : arena.Restricts var value f ref later) (proper : arena.Proper) :
    arena.Yields (arena.Admits · f) ref later := by
  induction restricts with
  | unaffected _ => exact ⟨.refl _, proper, id⟩
  | here holds =>
      refine ⟨.refl _, proper, fun {earlier} admits => ?_⟩
      have orders := proper.orders holds
      have le := Nat.le_of_lt (admits.lt holds)
      cases value
      · exact orders.low.mono le
      · exact orders.high.mono le
  | deeper holds _ _ _ made ihHigh ihLow =>
      have yieldsHigh := ihHigh proper
      have yieldsLow := ihLow yieldsHigh.proper
      have orders := proper.orders_branches holds yieldsHigh yieldsLow
      have step := decided yieldsLow.proper orders made
      refine ⟨(yieldsHigh.grown.trans yieldsLow.grown).trans step.grown, step.proper, ?_⟩
      intro earlier admits
      exact step.admits (admits.lt holds)

/-- The three steps of a restriction below the top: on both branches, and the decision. -/
theorem steps {middle last : Arena} (proper : arena.Proper) {high low onTrue onFalse : Ref}
    {top : Nat} (holds : arena.Holds f (.decision top high low))
    (restrictsHigh : arena.Restricts var value high onTrue middle)
    (restrictsLow : middle.Restricts var value low onFalse last)
    (made : last.decision top onTrue onFalse = (ref, later)) :
    arena.Yields (arena.Admits · high) onTrue middle ∧
      middle.Yields (middle.Admits · low) onFalse last ∧
      last.Decided top onTrue onFalse ref later := by
  have first := restrictsHigh.yields proper
  have second := restrictsLow.yields first.proper
  have orders := proper.orders_branches holds first second
  exact ⟨first, second, decided second.proper orders made⟩

/-- The result depends on the operand and the arena only. -/
theorem unique (restricts : arena.Restricts var value f ref later) {ref' : Ref} {later' : Arena}
    (other : arena.Restricts var value f ref' later') : ref = ref' ∧ later = later' := by
  induction restricts generalizing ref' later' with
  | unaffected admits =>
      cases other with
      | unaffected _ => exact ⟨rfl, rfl⟩
      | here holds => exact absurd (admits.lt holds) (Nat.lt_irrefl _)
      | deeper holds lt _ _ _ => exact absurd (admits.lt holds) (Nat.lt_asymm lt)
  | here holds =>
      cases other with
      | unaffected admits => exact absurd (admits.lt holds) (Nat.lt_irrefl _)
      | here otherHolds =>
          cases holds.inj otherHolds
          exact ⟨rfl, rfl⟩
      | deeper otherHolds lt _ _ _ =>
          cases holds.inj otherHolds
          exact absurd lt (Nat.lt_irrefl _)
  | deeper holds lt _ _ made ihHigh ihLow =>
      cases other with
      | unaffected admits => exact absurd (admits.lt holds) (Nat.lt_asymm lt)
      | here otherHolds =>
          cases holds.inj otherHolds
          exact absurd lt (Nat.lt_irrefl _)
      | deeper otherHolds _ restrictsHigh restrictsLow otherMade =>
          cases holds.inj otherHolds
          obtain ⟨rfl, rfl⟩ := ihHigh restrictsHigh
          obtain ⟨rfl, rfl⟩ := ihLow restrictsLow
          cases made.symm.trans otherMade
          exact ⟨rfl, rfl⟩

/-- What has been restricted is restricted again without effect. -/
theorem again (restricts : arena.Restricts var value f ref later) (proper : arena.Proper)
    {final : Arena} (properFinal : final.Proper) (grown : later.Extends final) :
    final.Restricts var value f ref final := by
  induction restricts with
  | unaffected admits => exact .unaffected (admits.extend grown)
  | here holds => exact .here (grown _ _ holds)
  | deeper holds lt restrictsHigh restrictsLow made ihHigh ihLow =>
      obtain ⟨first, second, step⟩ := steps proper holds restrictsHigh restrictsLow made
      have afterSecond := step.grown.trans grown
      have afterFirst := second.grown.trans afterSecond
      exact .deeper (first.grown.trans afterFirst _ _ holds) lt (ihHigh proper afterFirst)
        (ihLow first.proper afterSecond) (step.again properFinal grown)

/-- The result denotes the function with the variable fixed. -/
theorem denotes (restricts : arena.Restricts var value f ref later) (proper : arena.Proper)
    {φ : (Nat → Bool) → Bool} (denotesF : arena.Denotes f φ) :
    later.Denotes ref fun a => φ (Function.update a var value) := by
  induction restricts generalizing φ with
  | unaffected admits =>
      exact denotesF.congr fun a => (denotesF.update_of_admits proper admits a value).symm
  | here holds =>
      obtain ⟨onTrue, onFalse, denotesHigh, denotesLow, halves⟩ := denotesF.branches holds
      have orders := proper.orders holds
      cases value
      · refine denotesLow.congr fun a => ?_
        rw [halves, Function.update_self, denotesLow.update_of_admits proper orders.low]
        rfl
      · refine denotesHigh.congr fun a => ?_
        rw [halves, Function.update_self, denotesHigh.update_of_admits proper orders.high]
        rfl
  | deeper holds lt restrictsHigh restrictsLow made ihHigh ihLow =>
      obtain ⟨first, second, step⟩ := steps proper holds restrictsHigh restrictsLow made
      obtain ⟨onTrue, onFalse, denotesHigh, denotesLow, halves⟩ := denotesF.branches holds
      have high := (ihHigh proper denotesHigh).extend second.grown
      have low := ihLow first.proper (denotesLow.extend first.grown)
      refine (step.denotes high low).congr fun a => ?_
      rw [halves, Function.update_of_ne (Nat.ne_of_lt lt)]

end Restricts

end DecisionDiagram.Arena
