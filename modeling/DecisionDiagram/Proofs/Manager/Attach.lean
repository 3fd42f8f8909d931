import DecisionDiagram.Manager.Detach
import DecisionDiagram.Proofs.Detached.Made
import DecisionDiagram.Proofs.Manager.Algorithms

/-!
# Attaching a diagram

On a sound manager, attaching a diagram succeeds, whatever the order of its
variables, and the result denotes the function of its tree. What has been noted
about an instance stays right while the arena grows.
-/

namespace DecisionDiagram.Manager

open Detached (Among Made Noted)

/-! ## Runs -/

theorem attachFrom_leaf (s : Nat) (value : Bool) (attached : Attached) (m : Manager) :
    (attachFrom (.leaf s value)).run attached m = .ok (Ref.ofBool value, attached) m := rfl

theorem attachFrom_of_some {s var : Nat} {high low : Detached} {attached : Attached} {ref : Ref}
    (found : attached[s]? = some ref) (m : Manager) :
    (attachFrom (.node s var high low)).run attached m = .ok (ref, attached) m := by
  rw [attachFrom]
  simp only [StateT.run_bind, StateT.run_get, pure_bind, found]
  rfl

theorem attachFrom_of_none {s var : Nat} {high low : Detached} {attached : Attached}
    (missing : attached[s]? = none) :
    (attachFrom (.node s var high low)).run attached = (do
      let first ← (attachFrom high).run attached
      let second ← (attachFrom low).run first.2
      let result ← choose var first.1 second.1
      pure (result, second.2.insert s result) : ManagerM (Ref × Attached)) := by
  rw [attachFrom]
  simp only [StateT.run_bind, StateT.run_get, StateT.run_monadLift, StateT.run_modify,
    StateT.run_pure, bind_assoc, pure_bind, missing]
  rfl

theorem attach_of_run {d : Detached} {m later : Manager} {ref : Ref} {notes : Attached}
    (run : (attachFrom d).run ∅ m = .ok (ref, notes) later) : attach d m = .ok ref later := by
  change (Prod.fst <$> (attachFrom d).run ∅) m = _
  rw [map_eq_pure_bind, bind_ok run]
  rfl

/-! ## Attached diagrams -/

def Stands (m : Manager) (d : Detached) (ref : Ref) : Prop :=
  m.arena.Denotes ref fun a => d.tree.evaluate a

structure Attaches (m : Manager) (diagrams : List Detached) (d : Detached) (ref : Ref)
    (attached : Attached) (later : Manager) : Prop where
  sound : later.Sound
  grown : m.arena.Extends later.arena
  stands : later.Stands d ref
  noted : Noted diagrams later.Stands attached

/-- Choice joins the branches that were attached. -/
theorem Attaches.choose {m middle last : Manager} {diagrams : List Detached} {supply : Supply}
    (made : Made supply diagrams) {s var : Nat} {high low : Detached}
    (among : Among diagrams (.node s var high low)) {onTrue onFalse : Ref}
    {first second : Attached} (attachesHigh : m.Attaches diagrams high onTrue first middle)
    (attachesLow : middle.Attaches diagrams low onFalse second last) :
    ∃ ref later, choose var onTrue onFalse last = .ok ref later ∧
      m.Attaches diagrams (.node s var high low) ref (second.insert s ref) later := by
  have ne := made.var_ne_zero among
  have denotesTrue := attachesHigh.stands.extend attachesLow.grown
  have denotesFalse := attachesLow.stands
  obtain ⟨_, unfoldsTrue, _⟩ := id denotesTrue
  obtain ⟨_, unfoldsFalse, _⟩ := id denotesFalse
  obtain ⟨_, holdsTrue⟩ := Arena.exists_holds unfoldsTrue.slot_lt
  obtain ⟨_, holdsFalse⟩ := Arena.exists_holds unfoldsFalse.slot_lt
  have proper := attachesLow.sound.proper
  obtain ⟨ref, later, run, sound, chooses⟩ := attachesLow.sound.choose ne holdsTrue holdsFalse
  have grown := (chooses.yields proper ne (proper.admits_zero holdsTrue)).grown
  have stands : later.Stands (.node s var high low) ref :=
    chooses.denotes proper ne denotesTrue denotesFalse
  have noted := attachesLow.noted.mono (List.Subset.refl _) fun stands => stands.extend grown
  exact ⟨ref, later, run, sound, (attachesHigh.grown.trans attachesLow.grown).trans grown, stands,
    noted.insert among stands⟩

theorem Sound.attachFrom {m : Manager} (sound : m.Sound) {supply : Supply}
    {diagrams : List Detached} (made : Made supply diagrams) {d : Detached}
    (among : Among diagrams d) {attached : Attached} (noted : Noted diagrams m.Stands attached) :
    ∃ ref notes later, (attachFrom d).run attached m = .ok (ref, notes) later ∧
      m.Attaches diagrams d ref notes later := by
  induction d generalizing m attached with
  | leaf s value =>
      exact ⟨_, attached, m, attachFrom_leaf s value attached m, sound, .refl _,
        .leaf (sound.proper.leaf value), noted⟩
  | node s var high low ihHigh ihLow =>
      cases stored : attached[s]? with
      | some ref =>
          exact ⟨ref, attached, m, attachFrom_of_some stored m, sound, .refl _,
            noted.of_some made.coherent among stored, noted⟩
      | none =>
          obtain ⟨onTrue, first, middle, runHigh, attachesHigh⟩ := ihHigh sound among.high noted
          obtain ⟨onFalse, second, last, runLow, attachesLow⟩ :=
            ihLow attachesHigh.sound among.low attachesHigh.noted
          obtain ⟨ref, later, run, attaches⟩ := attachesHigh.choose made among attachesLow
          refine ⟨ref, second.insert s ref, later, ?_, attaches⟩
          rw [attachFrom_of_none stored, bind_ok runHigh, bind_ok runLow, bind_ok run]
          rfl

/-- Attaching a diagram brings a reference that denotes the function of its tree. -/
theorem Sound.attach {m : Manager} (sound : m.Sound) {supply : Supply} {diagrams : List Detached}
    (made : Made supply diagrams) {d : Detached} (among : Among diagrams d) :
    ∃ ref later, attach d m = .ok ref later ∧ later.Sound ∧ m.arena.Extends later.arena ∧
      later.Stands d ref := by
  obtain ⟨ref, notes, later, run, attaches⟩ :=
    sound.attachFrom made among (.empty diagrams m.Stands)
  exact ⟨ref, later, attach_of_run run, attaches.sound, attaches.grown, attaches.stands⟩

end DecisionDiagram.Manager
