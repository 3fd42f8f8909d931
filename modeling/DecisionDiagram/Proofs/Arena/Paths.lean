import Mathlib.Data.Set.Card
import DecisionDiagram.Proofs.Arena.Apply
import DecisionDiagram.Proofs.Arena.Restrict

/-!
# Paths in an arena

A reference leads to all that branches, followed from it, come to: these are the cells of its
diagram. In a proper arena none of them lies after the reference, and no later cell joins them. An
algorithm spans what it adds to an arena if its result leads to every new cell. Decisions between
the results for two branches do, as long as the results themselves are spanned.
-/

namespace DecisionDiagram.Arena

/-- Branches, followed from the first reference, come to the second, which may be the first. -/
inductive Leads (arena : Arena) : Ref → Ref → Prop where
  | self (f : Ref) : Leads arena f f
  | high {f g high low : Ref} {var : Nat} (holds : arena.Holds f (.decision var high low))
      (onward : Leads arena high g) : Leads arena f g
  | low {f g high low : Ref} {var : Nat} (holds : arena.Holds f (.decision var high low))
      (onward : Leads arena low g) : Leads arena f g

/-- The cells of a diagram: all references that it leads to, itself and the leaves included. -/
def cellsOf (arena : Arena) (f : Ref) : Set Ref :=
  {g | arena.Leads f g}

/-! ## Following branches -/

namespace Leads

variable {arena later : Arena} {f g h : Ref}

theorem trans (first : arena.Leads f g) (second : arena.Leads g h) : arena.Leads f h := by
  induction first with
  | self f => exact second
  | high holds _ ih => exact .high holds (ih second)
  | low holds _ ih => exact .low holds (ih second)

theorem extend (leads : arena.Leads f g) (grown : arena.Extends later) : later.Leads f g := by
  induction leads with
  | self f => exact .self f
  | high holds _ ih => exact .high (grown _ _ holds) ih
  | low holds _ ih => exact .low (grown _ _ holds) ih

theorem slot_le (leads : arena.Leads f g) (proper : arena.Proper) : g.slot ≤ f.slot := by
  induction leads with
  | self f => exact Nat.le_refl _
  | high holds _ ih => exact Nat.le_trans ih (Nat.le_of_lt (proper.below holds).1)
  | low holds _ ih => exact Nat.le_trans ih (Nat.le_of_lt (proper.below holds).2)

/-- What a stored cell leads to in a larger arena, it led to before. -/
theorem of_extends (leads : later.Leads f g) (proper : arena.Proper)
    (grown : arena.Extends later) (inside : f.slot < arena.size) : arena.Leads f g := by
  induction leads with
  | self f => exact .self f
  | high holds _ ih =>
      obtain ⟨node, stored⟩ := exists_holds inside
      cases holds.inj (grown _ _ stored)
      exact .high stored (ih (Nat.lt_trans (proper.below stored).1 inside))
  | low holds _ ih =>
      obtain ⟨node, stored⟩ := exists_holds inside
      cases holds.inj (grown _ _ stored)
      exact .low stored (ih (Nat.lt_trans (proper.below stored).2 inside))

theorem cofactor {a : Node} (holds : arena.Holds f a) (var : Nat) (value : Bool) :
    arena.Leads f (a.cofactor var value f) := by
  cases a with
  | leaf x => exact .self f
  | decision top high low =>
      rw [Node.cofactor]
      split
      · cases value
        · exact .low holds (.self low)
        · exact .high holds (.self high)
      · exact .self f

end Leads

/-! ## The cells of a diagram -/

section Cells

variable {arena : Arena} {f : Ref}

@[simp]
theorem mem_cellsOf {g : Ref} : g ∈ arena.cellsOf f ↔ arena.Leads f g :=
  Iff.rfl

theorem cellsOf_leaf {value : Bool} (holds : arena.Holds f (.leaf value)) :
    arena.cellsOf f = {f} := by
  ext g
  rw [mem_cellsOf, Set.mem_singleton_iff]
  constructor
  · intro leads
    cases leads with
    | self => rfl
    | high other _ => cases holds.inj other
    | low other _ => cases holds.inj other
  · rintro rfl
    exact .self g

theorem cellsOf_decision {var : Nat} {high low : Ref}
    (holds : arena.Holds f (.decision var high low)) :
    arena.cellsOf f = insert f (arena.cellsOf high ∪ arena.cellsOf low) := by
  ext g
  rw [mem_cellsOf, Set.mem_insert_iff, Set.mem_union, mem_cellsOf, mem_cellsOf]
  constructor
  · intro leads
    cases leads with
    | self => exact Or.inl rfl
    | high other onward =>
        cases holds.inj other
        exact Or.inr (Or.inl onward)
    | low other onward =>
        cases holds.inj other
        exact Or.inr (Or.inr onward)
  · rintro (rfl | onward | onward)
    · exact .self g
    · exact .high holds onward
    · exact .low holds onward

/-- A diagram has finitely many cells, since none of them lies after its reference. -/
theorem Proper.finite_cellsOf (proper : arena.Proper) (f : Ref) : (arena.cellsOf f).Finite := by
  refine ((Set.finite_le_nat f.slot).image Ref.mk).subset fun g leads => ?_
  exact ⟨g.slot, leads.slot_le proper, rfl⟩

end Cells

/-! ## New cells -/

/-- The reference leads to every cell that the later arena has and the earlier one has not. -/
def Spans (arena : Arena) (ref : Ref) (later : Arena) : Prop :=
  ∀ g : Ref, arena.size ≤ g.slot → g.slot < later.size → later.Leads ref g

/-- An arena that grew without getting larger is what it was. -/
theorem Extends.eq_of_size_le {arena later : Arena} (grown : arena.Extends later)
    (le : later.size ≤ arena.size) : later = arena := by
  refine Array.ext_getElem? fun slot => ?_
  by_cases inside : slot < arena.size
  · obtain ⟨node, holds⟩ : ∃ node, arena.Holds ⟨slot⟩ node := exists_holds inside
    exact (grown _ _ holds).trans holds.symm
  · rw [Array.getElem?_eq_none (Nat.le_of_not_lt inside),
      Array.getElem?_eq_none (Nat.le_trans le (Nat.le_of_not_lt inside))]

/-- If the result was there before, nothing has been added. -/
theorem Spans.eq_of_inside {arena later : Arena} {ref : Ref} (spans : arena.Spans ref later)
    (grown : arena.Extends later) (proper : later.Proper) (inside : ref.slot < arena.size) :
    later = arena := by
  refine grown.eq_of_size_le (Nat.le_of_not_lt fun larger => ?_)
  have le := (spans ⟨arena.size⟩ (Nat.le_refl _) larger).slot_le proper
  exact absurd inside (Nat.not_lt_of_le le)

theorem Spans.refl (arena : Arena) (ref : Ref) : arena.Spans ref arena :=
  fun _ new inside => absurd inside (Nat.not_lt_of_le new)

/-- A decision adds no cell but the one of its result. -/
theorem eq_of_decision_new {arena later : Arena} {var : Nat} {high low ref g : Ref}
    (made : arena.decision var high low = (ref, later)) (new : arena.size ≤ g.slot)
    (inside : g.slot < later.size) : g = ref := by
  unfold decision intern at made
  split at made
  · cases made
    exact absurd inside (Nat.not_lt_of_le new)
  · split at made
    · cases made
      exact absurd inside (Nat.not_lt_of_le new)
    · cases made
      rw [Array.size_push] at inside
      exact congrArg Ref.mk (Nat.le_antisymm (Nat.le_of_lt_succ inside) new)

/-- A decision between two results leads to all that the results lead to. -/
theorem Spans.decision {arena middle last later : Arena} {var : Nat} {high low ref : Ref}
    (onTrue : arena.Spans high middle) (onFalse : middle.Spans low last)
    (grown : middle.Extends last) (step : last.Decided var high low ref later)
    (made : last.decision var high low = (ref, later)) : arena.Spans ref later := by
  have toHigh : later.Leads ref high := by
    rcases step.result with ⟨_, rfl⟩ | ⟨_, holds⟩
    · exact .self ref
    · exact .high holds (.self high)
  have toLow : later.Leads ref low := by
    rcases step.result with ⟨rfl, rfl⟩ | ⟨_, holds⟩
    · exact .self ref
    · exact .low holds (.self low)
  intro g new inside
  by_cases beforeMiddle : g.slot < middle.size
  · exact toHigh.trans ((onTrue g new beforeMiddle).extend (grown.trans step.grown))
  · by_cases beforeLast : g.slot < last.size
    · exact toLow.trans ((onFalse g (Nat.le_of_not_lt beforeMiddle) beforeLast).extend step.grown)
    · obtain rfl := eq_of_decision_new made (Nat.le_of_not_lt beforeLast) inside
      exact .self g

variable {arena later : Arena} {ref : Ref}

theorem Applies.spans {op : Connective} {p q : Ref} (applies : arena.Applies op p q ref later)
    (proper : arena.Proper) : arena.Spans ref later := by
  induction applies with
  | leaves _ _ => exact .refl _ _
  | split holdsP holdsQ split onTrue onFalse made ihTrue ihFalse =>
      obtain ⟨first, second, step⟩ := steps proper holdsP holdsQ split onTrue onFalse made
      exact (ihTrue proper).decision (ihFalse first.proper) second.grown step made

theorem Restricts.spans {var : Nat} {value : Bool} {f : Ref}
    (restricts : arena.Restricts var value f ref later) (proper : arena.Proper) :
    arena.Spans ref later := by
  induction restricts with
  | unaffected _ => exact .refl _ _
  | here _ => exact .refl _ _
  | deeper holds _ restrictsHigh restrictsLow made ihHigh ihLow =>
      obtain ⟨first, second, step⟩ := steps proper holds restrictsHigh restrictsLow made
      exact (ihHigh proper).decision (ihLow first.proper) second.grown step made

end DecisionDiagram.Arena
