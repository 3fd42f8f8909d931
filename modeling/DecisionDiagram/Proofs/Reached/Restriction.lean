import DecisionDiagram.Proofs.Reached.Support

/-!
# Restriction in reached managers

Fixing a variable computes the function of the changed assignment and takes the variable out of the
support. Of two values for one variable only the first one counts, and variables can be fixed in any
order. A diagram is put together again from what it is for either value of a variable.
-/

namespace DecisionDiagram.Manager

/-- The diagram made anew of its two restrictions, by deciding on the variable with literals. -/
def expansion (f : Ref) (var : Nat) : ManagerM Ref := do
  let x ← literal var true
  let onTrue ← restrict f var true
  let withX ← conj x onTrue
  let notX ← literal var false
  let onFalse ← restrict f var false
  let withoutX ← conj notX onFalse
  disj withX withoutX

theorem Steady.expansion (f : Ref) (var : Nat) : Steady (expansion f var) :=
  (literal var true).bind fun x => (restrict f var true).bind fun onTrue =>
    (conj x onTrue).bind fun withX => (literal var false).bind fun notX =>
      (restrict f var false).bind fun onFalse => (conj notX onFalse).bind fun withoutX =>
        disj withX withoutX

theorem Steady.restrict_restrict (f : Ref) (var other : Nat) (value choice : Bool) :
    Steady (Manager.restrict f var value >>= (Manager.restrict · other choice)) :=
  (restrict f var value).bind fun g => restrict g other choice

section Sound

variable {m : Manager} (sound : m.Sound) {f : Ref} {φ : (Nat → Bool) → Bool}
  (represents : m.Represents f φ) {var : Nat} (ne : var ≠ 0)
include sound represents ne

theorem computes_restrict_restrict {other : Nat} (neOther : other ≠ 0) (value choice : Bool) :
    Computes (restrict f var value >>= (restrict · other choice)) m fun a =>
      φ (Function.update (Function.update a other choice) var value) :=
  (computes_restrict sound represents ne value).bind sound (.restrict f var value)
    fun soundLater fixed => computes_restrict soundLater fixed neOther choice

/-- The restricted diagram does not mention the variable, and no variable that was not there. -/
theorem ensures_within_restrict {vars : List Nat} (listed : m.support f = .ok vars)
    (value : Bool) : Ensures (restrict f var value) m fun g later =>
      later.Within g fun other => other ∈ vars ∧ other ≠ var := by
  have inVars : m.Within f (· ∈ vars) := ⟨vars, listed, fun _ inside => inside⟩
  have decided := (represents.describes.within_iff sound).mp inVars
  refine (builds_restrict sound represents.describes ne value).mono fun soundLater fixed => ?_
  refine (fixed.within_iff soundLater).mpr fun a b agree => decided _ _ fun other inside => ?_
  by_cases same : other = var
  · rw [same, Function.update_self, Function.update_self]
  · rw [Function.update_of_ne same, Function.update_of_ne same]
    exact agree other ⟨inside, same⟩

theorem builds_expansion : Builds (expansion f var) m fun a => φ a = true := by
  refine (builds_literal sound ne true).bind fun soundX grownX isX => ?_
  have atX := represents.extend sound grownX
  refine (builds_restrict soundX atX.describes ne true).bind fun soundTrue grownTrue onTrue => ?_
  refine (builds_conj soundTrue (isX.extend soundX grownTrue) onTrue).bind
    fun soundWith grownWith withX => ?_
  have atWith := (atX.extend soundX grownTrue).extend soundTrue grownWith
  refine (builds_literal soundWith ne false).bind fun soundNot grownNot isNot => ?_
  have atNot := atWith.extend soundWith grownNot
  refine (builds_restrict soundNot atNot.describes ne false).bind
    fun soundFalse grownFalse onFalse => ?_
  refine (builds_conj soundFalse (isNot.extend soundNot grownFalse) onFalse).bind
    fun soundLast grownLast withoutX => ?_
  have withXStill := withX.extend soundWith (grownNot.trans (grownFalse.trans grownLast))
  refine (builds_disj soundLast withXStill withoutX).congr fun a => ?_
  -- On either value of the variable, the update of the other conjunct changes nothing.
  have same := Function.update_eq_self var a
  cases value : a var <;> rw [value] at same <;> simp [same]

/-! ## References -/

theorem coincide_restrict_self (value again : Bool) :
    Coincide (restrict f var value >>= (restrict · var again)) (restrict f var value) m := by
  refine sound.coincide_of_represents represents (.restrict_restrict f var var value again)
    (.restrict f var value) ?_ fun soundLater still => computes_restrict soundLater still ne value
  intro later soundLater still
  refine (computes_restrict_restrict soundLater still ne ne value again).congr fun a => ?_
  rw [Function.update_idem]

theorem coincide_restrict_comm {other : Nat} (neOther : other ≠ 0) (differ : other ≠ var)
    (value choice : Bool) :
    Coincide (restrict f var value >>= (restrict · other choice))
      (restrict f other choice >>= (restrict · var value)) m := by
  refine sound.coincide_of_represents represents (.restrict_restrict f var other value choice)
    (.restrict_restrict f other var choice value)
    (fun soundLater still => computes_restrict_restrict soundLater still ne neOther value choice) ?_
  intro later soundLater still
  refine (computes_restrict_restrict soundLater still neOther ne choice value).congr fun a => ?_
  rw [Function.update_comm differ]

theorem coincide_expansion : Coincide (expansion f var) (pure f) m :=
  sound.coincide_of_represents represents (.expansion f var) (.pure f)
    (fun soundLater still => (builds_expansion soundLater still ne).computes soundLater)
    fun {later} _ still => ⟨f, later, rfl, still, fun _ _ same => same⟩

end Sound

/--
A restriction computes the function of the updated assignment, and its support is within that of the
diagram and without the variable. Fixing the variable again changes nothing, different variables can
be fixed in either order, and the diagram comes back from its two restrictions.
-/
theorem Reached.restriction {m : Manager} (reached : m.Reached) {f : Ref} (inside : m.Resident f)
    {var : Nat} (ne : var ≠ 0) :
    ∃ (φ : (Nat → Bool) → Bool) (vars : List Nat),
      m.Represents f φ ∧ m.support f = .ok vars ∧
      (∀ value, Computes (restrict f var value) m fun a => φ (Function.update a var value)) ∧
      (∀ value, Ensures (restrict f var value) m fun g later =>
        later.Within g fun other => other ∈ vars ∧ other ≠ var) ∧
      (∀ value again, Coincide (restrict f var value >>= (restrict · var again))
        (restrict f var value) m) ∧
      (∀ other, other ≠ 0 → other ≠ var → ∀ value choice,
        Coincide (restrict f var value >>= (restrict · other choice))
          (restrict f other choice >>= (restrict · var value)) m) ∧
      Coincide (expansion f var) (pure f) m := by
  have sound := reached.sound
  obtain ⟨φ, represents⟩ := sound.exists_represents inside
  obtain ⟨node, holds⟩ := resident_iff.mp inside
  obtain ⟨vars, listed, _⟩ := support_of_holds sound.proper holds
  refine ⟨φ, vars, represents, listed, ?_, ?_, ?_, ?_, ?_⟩
  · exact computes_restrict sound represents ne
  · exact ensures_within_restrict sound represents ne listed
  · exact coincide_restrict_self sound represents ne
  · intro other neOther differ
    exact coincide_restrict_comm sound represents ne neOther differ
  · exact coincide_expansion sound represents ne

theorem restriction_bothCopies :
    bothCopies.Resident ⟨5⟩ ∧ bothCopies.support ⟨5⟩ = .ok [1, 2, 3] ∧
      (Ensures (restrict ⟨5⟩ 2 true) bothCopies fun g later =>
        later.Within g fun other => other ∈ [1, 2, 3] ∧ other ≠ 2) ∧
      Coincide (restrict ⟨5⟩ 2 true >>= (restrict · 7 false))
        (restrict ⟨5⟩ 7 false >>= (restrict · 2 true)) bothCopies ∧
      Coincide (expansion ⟨5⟩ 2) (pure ⟨5⟩) bothCopies := by
  have reached : bothCopies.Reached := (reached_fresh (by decide)).run _
  have inside : bothCopies.Resident ⟨5⟩ := by decide
  have three : (bothCopies.support ⟨5⟩).toOption = some [1, 2, 3] := by decide +kernel
  obtain ⟨_, vars, _, listed, _, within, _, commute, whole⟩ :=
    reached.restriction inside (by decide : 2 ≠ 0)
  rw [listed] at three
  obtain rfl : vars = [1, 2, 3] := Option.some.inj three
  exact ⟨inside, listed, within true, commute 7 (by decide) (by decide) true false, whole⟩

end DecisionDiagram.Manager
