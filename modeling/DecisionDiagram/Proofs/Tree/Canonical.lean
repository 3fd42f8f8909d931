import Mathlib.Logic.Function.Basic
import DecisionDiagram.Detached.Basic

/-!
# Canonical trees

A tree is ordered if its variables increase along every path, and reduced if no
decision has equal branches. An ordered and reduced tree is determined by its
values: two such trees that agree under every assignment are equal.
-/

namespace DecisionDiagram.Tree

def After (var : Nat) : Tree → Prop
  | leaf _ => True
  | node top high low => var < top ∧ high.After var ∧ low.After var

def Ordered : Tree → Prop
  | leaf _ => True
  | node var high low => (high.After var ∧ low.After var) ∧ high.Ordered ∧ low.Ordered

def Reduced : Tree → Prop
  | leaf _ => True
  | node _ high low => high ≠ low ∧ high.Reduced ∧ low.Reduced

theorem After.mono {var later : Nat} {t : Tree} (after : t.After later) (le : var ≤ later) :
    t.After var := by
  induction t with
  | leaf value => trivial
  | node top high low ihHigh ihLow =>
      obtain ⟨lt, afterHigh, afterLow⟩ := after
      exact ⟨Nat.lt_of_le_of_lt le lt, ihHigh afterHigh, ihLow afterLow⟩

/-- An ordered tree lies after every variable before its top one. -/
theorem Ordered.after {var top : Nat} {high low : Tree}
    (ordered : (node top high low).Ordered) (lt : var < top) : (node top high low).After var :=
  ⟨lt, ordered.1.1.mono (Nat.le_of_lt lt), ordered.1.2.mono (Nat.le_of_lt lt)⟩

/-! ## Values of ordered trees -/

/-- Only the variables of a tree matter for its value. -/
theorem evaluate_congr {var : Nat} {t : Tree} (after : t.After var) {a b : Nat → Bool}
    (agree : ∀ later, var < later → a later = b later) : t.evaluate a = t.evaluate b := by
  induction t with
  | leaf value => rfl
  | node top high low ihHigh ihLow =>
      obtain ⟨lt, afterHigh, afterLow⟩ := after
      rw [evaluate, evaluate, agree top lt, ihHigh afterHigh, ihLow afterLow]

theorem evaluate_update {var : Nat} {t : Tree} (after : t.After var) (a : Nat → Bool)
    (value : Bool) : t.evaluate (Function.update a var value) = t.evaluate a := by
  apply evaluate_congr after
  intro later lt
  exact Function.update_of_ne (Nat.ne_of_gt lt) value a

/-- Fixing the top variable of an ordered tree selects one of its branches. -/
theorem evaluate_update_node {var : Nat} {high low : Tree}
    (ordered : (node var high low).Ordered) (a : Nat → Bool) (value : Bool) :
    (node var high low).evaluate (Function.update a var value) =
      if value then high.evaluate a else low.evaluate a := by
  rw [evaluate, Function.update_self, evaluate_update ordered.1.1, evaluate_update ordered.1.2]

/-! ## Uniqueness -/

/-- Where a decision agrees with a tree that comes after its variable, so do both branches. -/
theorem branches_agree {var : Nat} {high low t : Tree} (ordered : (node var high low).Ordered)
    (after : t.After var) (agree : ∀ a, (node var high low).evaluate a = t.evaluate a)
    (a : Nat → Bool) : high.evaluate a = t.evaluate a ∧ low.evaluate a = t.evaluate a := by
  have onTrue := agree (Function.update a var true)
  have onFalse := agree (Function.update a var false)
  rw [evaluate_update_node ordered, evaluate_update after] at onTrue onFalse
  exact ⟨onTrue, onFalse⟩

/-- A reduced decision does not agree with such a tree, if trees like its branches are unique. -/
theorem not_agree {var : Nat} {high low t : Tree} (ordered : (node var high low).Ordered)
    (reduced : (node var high low).Reduced) (after : t.After var)
    (uniqueHigh : (∀ a, high.evaluate a = t.evaluate a) → high = t)
    (uniqueLow : (∀ a, low.evaluate a = t.evaluate a) → low = t) :
    ¬ ∀ a, (node var high low).evaluate a = t.evaluate a := by
  intro agree
  have branches := branches_agree ordered after agree
  have sameHigh := uniqueHigh fun a => (branches a).1
  have sameLow := uniqueLow fun a => (branches a).2
  exact reduced.1 (sameHigh.trans sameLow.symm)

/-- Decisions on one variable agree only if their branches do. -/
theorem branches_congr {var : Nat} {highS lowS highT lowT : Tree}
    (orderedS : (node var highS lowS).Ordered) (orderedT : (node var highT lowT).Ordered)
    (agree : ∀ a, (node var highS lowS).evaluate a = (node var highT lowT).evaluate a)
    (a : Nat → Bool) : highS.evaluate a = highT.evaluate a ∧ lowS.evaluate a = lowT.evaluate a := by
  have onTrue := agree (Function.update a var true)
  have onFalse := agree (Function.update a var false)
  rw [evaluate_update_node orderedS, evaluate_update_node orderedT] at onTrue onFalse
  exact ⟨onTrue, onFalse⟩

/-- Ordered and reduced trees with the same values are equal. -/
theorem eq_of_evaluate {s t : Tree} (orderedS : s.Ordered) (reducedS : s.Reduced)
    (orderedT : t.Ordered) (reducedT : t.Reduced) (agree : ∀ a, s.evaluate a = t.evaluate a) :
    s = t := by
  -- The outer induction serves a top variable that comes first in `s`, the inner one in `t`.
  induction s generalizing t with
  | leaf x =>
      induction t with
      | leaf y => exact congrArg leaf (agree fun _ => false)
      | node w high low ihHigh ihLow =>
          refine absurd (fun a => (agree a).symm) (not_agree orderedT reducedT trivial ?_ ?_)
          · exact fun same => (ihHigh orderedT.2.1 reducedT.2.1 fun a => (same a).symm).symm
          · exact fun same => (ihLow orderedT.2.2 reducedT.2.2 fun a => (same a).symm).symm
  | node v highS lowS ihHighS ihLowS =>
      induction t with
      | leaf y =>
          refine absurd agree (not_agree orderedS reducedS trivial ?_ ?_)
          · exact ihHighS orderedS.2.1 reducedS.2.1 trivial trivial
          · exact ihLowS orderedS.2.2 reducedS.2.2 trivial trivial
      | node w highT lowT ihHighT ihLowT =>
          rcases Nat.lt_trichotomy v w with first | same | second
          · refine absurd agree (not_agree orderedS reducedS (orderedT.after first) ?_ ?_)
            · exact ihHighS orderedS.2.1 reducedS.2.1 orderedT reducedT
            · exact ihLowS orderedS.2.2 reducedS.2.2 orderedT reducedT
          · subst same
            have branches := branches_congr orderedS orderedT agree
            rw [ihHighS orderedS.2.1 reducedS.2.1 orderedT.2.1 reducedT.2.1 fun a => (branches a).1,
              ihLowS orderedS.2.2 reducedS.2.2 orderedT.2.2 reducedT.2.2 fun a => (branches a).2]
          · refine absurd (fun a => (agree a).symm)
              (not_agree orderedT reducedT (orderedS.after second) ?_ ?_)
            · exact fun same => (ihHighT orderedT.2.1 reducedT.2.1 fun a => (same a).symm).symm
            · exact fun same => (ihLowT orderedT.2.2 reducedT.2.2 fun a => (same a).symm).symm

end DecisionDiagram.Tree
