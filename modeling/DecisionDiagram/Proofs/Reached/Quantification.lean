import DecisionDiagram.Proofs.Reached.Containment
import DecisionDiagram.Proofs.Reached.Support

/-!
# Quantification in reached managers

Existential quantification frees a list of variables: the result is true wherever a change of their
values can make the diagram true. It takes them out of the support, and neither their order nor
their repetitions matter. Universal quantification is its dual, and a diagram lies between the two.
-/

namespace DecisionDiagram.Manager

def dualForallVar (f : Ref) (var : Nat) : ManagerM Ref := do
  let complement ← neg f
  let refuted ← existsVar complement var
  neg refuted

/-- Freeing variables leaves a set that the other variables decide about. -/
theorem DecidedBy.free {allowed : Nat → Prop} {S : (Nat → Bool) → Prop}
    (decided : DecidedBy allowed S) (vars : List Nat) :
    DecidedBy (fun var => allowed var ∧ var ∉ vars) fun a =>
      ∃ b, (∀ var, var ∉ vars → b var = a var) ∧ S b := by
  -- The freed variables keep their values, the others take those of the second assignment.
  have transfer {a c : Nat → Bool} (agree : ∀ var, allowed var ∧ var ∉ vars → a var = c var) :
      (∃ b, (∀ var, var ∉ vars → b var = a var) ∧ S b) →
        ∃ b, (∀ var, var ∉ vars → b var = c var) ∧ S b := by
    rintro ⟨b, outside, holds⟩
    refine ⟨fun var => if var ∈ vars then b var else c var, fun var out => if_neg out, ?_⟩
    refine (decided _ _ fun var inAllowed => ?_).mp holds
    by_cases freed : var ∈ vars
    · rw [if_pos freed]
    · rw [if_neg freed, outside var freed, agree var ⟨inAllowed, freed⟩]
  intro a c agree
  exact ⟨transfer agree, transfer fun var both => (agree var both).symm⟩

section Sound

variable {m : Manager} (sound : m.Sound) {f : Ref} {S : (Nat → Bool) → Prop}
  (describes : m.Describes f S)
include sound describes

/-! ## Lists of variables -/

/-- Quantified variables are no longer in the support, and no variable is new there. -/
theorem ensures_existsVars {support vars : List Nat} (listed : m.support f = .ok support)
    (nonzero : ∀ var ∈ vars, var ≠ 0) :
    Ensures (existsVars f vars) m fun g later =>
      later.Describes g (fun a => ∃ b, (∀ var, var ∉ vars → b var = a var) ∧ S b) ∧
        later.Within g fun var => var ∈ support ∧ var ∉ vars := by
  have inSupport : m.Within f (· ∈ support) := ⟨support, listed, fun _ inside => inside⟩
  have decided := (describes.within_iff sound).mp inSupport
  refine (builds_existsVars sound describes nonzero).mono fun soundLater freed => ⟨freed, ?_⟩
  exact (freed.within_iff soundLater).mpr (decided.free vars)

/-- Only the set of the quantified variables matters. -/
theorem coincide_existsVars {vars others : List Nat} (nonzero : ∀ var ∈ vars, var ≠ 0)
    (same : ∀ var, var ∈ others ↔ var ∈ vars) :
    Coincide (existsVars f vars) (existsVars f others) m := by
  have nonzeroOthers : ∀ var ∈ others, var ≠ 0 := fun var inside =>
    nonzero var ((same var).mp inside)
  refine coincide_of_builds sound
    (fun soundLater grown => builds_existsVars soundLater (describes.extend sound grown) nonzero)
    fun soundLater grown => ?_
  refine (builds_existsVars soundLater (describes.extend sound grown) nonzeroOthers).congr
    fun a => ?_
  simp only [same]

/-! ## One variable -/

variable {var : Nat} (ne : var ≠ 0)
include ne

theorem builds_dualForallVar :
    Builds (dualForallVar f var) m fun a => ∀ value, S (Function.update a var value) := by
  refine (builds_neg sound describes).bind fun soundNeg _ complement => ?_
  refine (builds_existsVar soundNeg complement ne).bind fun soundExists _ refuted => ?_
  exact (builds_neg soundExists refuted).congr fun a => by simp

theorem coincide_dualForallVar : Coincide (forallVar f var) (dualForallVar f var) m :=
  coincide_of_builds sound
    (fun soundLater grown => builds_forallVar soundLater (describes.extend sound grown) ne)
    (fun soundLater grown => builds_dualForallVar soundLater (describes.extend sound grown) ne)

theorem replies_existsVar_contains : Replies (existsVar f var >>= (contains · f)) m true := by
  have settles : Settles (existsVar f var >>= (contains · f)) m
      (∀ a, S a → ∃ value, S (Function.update a var value)) :=
    settles_of_ensures sound fun soundLater grown =>
      (builds_existsVar soundLater (describes.extend sound grown) ne).bind
        fun soundLast after weaker => ensures_contains soundLast weaker
          ((describes.extend sound grown).extend soundLater after)
  refine settles.replies_true_iff.mpr fun a holds => ⟨a var, ?_⟩
  rwa [Function.update_eq_self]

theorem replies_contains_forallVar : Replies (forallVar f var >>= contains f) m true := by
  have settles : Settles (forallVar f var >>= contains f) m
      (∀ a, (∀ value, S (Function.update a var value)) → S a) :=
    settles_of_ensures sound fun soundLater grown =>
      (builds_forallVar soundLater (describes.extend sound grown) ne).bind
        fun soundLast after stronger => ensures_contains soundLast
          ((describes.extend sound grown).extend soundLater after) stronger
  refine settles.replies_true_iff.mpr fun a always => ?_
  have holds := always (a var)
  rwa [Function.update_eq_self] at holds

end Sound

/--
Quantifying a list of variables is true where the diagram is true for some other values of these
variables; its support is that of the diagram without them, and lists of the same variables bring
the same reference. The universal quantification of a variable is true where the diagram is true for
both of its values. It is the dual of the existential one; the diagram is contained in the latter
and contains the former.
-/
theorem Reached.quantification {m : Manager} (reached : m.Reached) {f : Ref}
    (inside : m.Resident f) :
    ∃ (φ : (Nat → Bool) → Bool) (support : List Nat),
      m.Represents f φ ∧ m.support f = .ok support ∧
      (∀ vars : List Nat, (∀ var ∈ vars, var ≠ 0) →
        Ensures (existsVars f vars) m (fun g later =>
          later.Describes g (fun a => ∃ b, (∀ var, var ∉ vars → b var = a var) ∧ φ b = true) ∧
            later.Within g fun var => var ∈ support ∧ var ∉ vars) ∧
        ∀ others : List Nat, (∀ var, var ∈ others ↔ var ∈ vars) →
          Coincide (existsVars f vars) (existsVars f others) m) ∧
      ∀ var, var ≠ 0 →
        Builds (forallVar f var) m (fun a => ∀ value, φ (Function.update a var value) = true) ∧
        Coincide (forallVar f var) (dualForallVar f var) m ∧
        Replies (existsVar f var >>= (contains · f)) m true ∧
        Replies (forallVar f var >>= contains f) m true := by
  have sound := reached.sound
  obtain ⟨φ, represents⟩ := sound.exists_represents inside
  obtain ⟨support, listed, _⟩ := represents.support sound
  have describes := represents.describes
  refine ⟨φ, support, represents, listed, ?_, ?_⟩
  · intro vars nonzero
    exact ⟨ensures_existsVars sound describes listed nonzero,
      fun others same => coincide_existsVars sound describes nonzero same⟩
  · intro var ne
    exact ⟨builds_forallVar sound describes ne, coincide_dualForallVar sound describes ne,
      replies_existsVar_contains sound describes ne, replies_contains_forallVar sound describes ne⟩

theorem quantification_bothCopies :
    bothCopies.Resident ⟨5⟩ ∧ bothCopies.support ⟨5⟩ = .ok [1, 2, 3] ∧
      (Ensures (existsVars ⟨5⟩ [3, 2, 7]) bothCopies fun g later =>
        later.Within g fun var => var ∈ [1, 2, 3] ∧ var ∉ [3, 2, 7]) ∧
      Coincide (existsVars ⟨5⟩ [3, 2, 7]) (existsVars ⟨5⟩ [2, 7, 3, 2]) bothCopies ∧
      Coincide (forallVar ⟨5⟩ 1) (dualForallVar ⟨5⟩ 1) bothCopies := by
  have inside : bothCopies.Resident ⟨5⟩ := by decide
  obtain ⟨_, support, _, listed, lists, single⟩ := reached_bothCopies.quantification inside
  obtain rfl : support = [1, 2, 3] := Except.ok.inj (listed.symm.trans support_bothCopies)
  obtain ⟨freed, orders⟩ := lists [3, 2, 7] (by decide)
  obtain ⟨_, dual, _⟩ := single 1 (by decide)
  refine ⟨inside, listed, freed.mono fun _ => And.right, orders _ fun var => ?_, dual⟩
  grind

end DecisionDiagram.Manager
