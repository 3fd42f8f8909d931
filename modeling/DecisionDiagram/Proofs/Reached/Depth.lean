import DecisionDiagram.Proofs.Reached.Descent
import DecisionDiagram.Proofs.Reached.Exchange

/-!
# The depth of recursions

The store changes while a recursion goes on, and its operands are slots of it. Yet no chain of
nested calls is longer, by more than one, than there are variables in the support of the operands,
and the calls of a chain are for these variables in ascending order. The chains of an operation
begin with its own call.
-/

namespace DecisionDiagram.Manager

/-- Both programs succeed alike, and the chains of the calls traced by the second are allowed. -/
def Calls {κ α : Type} (y : ManagerM α) (x : Tracing κ ManagerM α) (m : Manager)
    (allowed : List κ → Prop) : Prop :=
  ∃ a later chains, y m = .ok a later ∧ x.run [] m = .ok (a, chains) later ∧
    ∀ chain ∈ chains, allowed chain

namespace Calls

variable {κ α : Type} {y : ManagerM α} {x : Tracing κ ManagerM α} {m : Manager}
  {allowed weaker : List κ → Prop}

theorem of_run (erases : Erases x y) (traces : Traces (Keeping m.arena) allowed x) {a : α}
    {later : Manager} (run : y m = .ok a later) : Calls y x m allowed := by
  have plain : (Prod.fst <$> x.run []) m = .ok a later := (congrFun (erases []) m).trans run
  rw [map_eq_pure_bind] at plain
  cases traced : x.run [] m with
  | error fault last =>
      rw [bind_error traced] at plain
      cases plain
  | ok result last =>
      obtain ⟨_, met⟩ := traces.run_nil m result last (.refl _) traced
      rw [bind_ok traced] at plain
      cases plain
      exact ⟨result.1, later, result.2, run, traced, met⟩

theorem mono (calls : Calls y x m allowed) (implies : ∀ chain, allowed chain → weaker chain) :
    Calls y x m weaker := by
  obtain ⟨a, later, chains, run, traced, met⟩ := calls
  exact ⟨a, later, chains, run, traced, fun chain listed => implies chain (met chain listed)⟩

/-- The list is not empty: it begins with the call itself. -/
theorem outermost (calls : Calls y x m allowed) {call : κ} (opens : Opens call x) :
    ∃ a later chains, x.run [] m = .ok (a, [call] :: chains) later := by
  obtain ⟨a, later, chains, _, traced, _⟩ := calls
  obtain ⟨rest, same⟩ := opens
  rw [same, map_eq_pure_bind] at traced
  obtain ⟨result, middle, _, ended⟩ := bind_eq_ok_iff.mp traced
  obtain ⟨listed, rfl⟩ := pure_eq_ok_iff.mp ended
  rw [same, map_eq_pure_bind, traced, ← listed]
  exact ⟨result.1, middle, result.2, rfl⟩

end Calls

/-! ## Calls on sound managers -/

section Sound

variable {m : Manager} (sound : m.Sound) {p q : Ref} {a b : Node}
include sound

theorem calls_apply (holdsP : m.arena.Holds p a) (holdsQ : m.arena.Holds q b) (op : Connective) :
    Calls (apply op p q) (applyTracing op p q) m (Descends m.arena.Split (p, q)) := by
  obtain ⟨ref, later, run, _⟩ := sound.apply op holdsP holdsQ
  exact .of_run (erases_apply op p q) (traces_apply sound.proper op holdsP holdsQ) run

theorem calls_restrict (holds : m.arena.Holds p a) {var : Nat} (ne : var ≠ 0) (value : Bool) :
    Calls (restrict p var value) (restrictTracing p var value) m (Descends m.arena.Branch p) := by
  obtain ⟨ref, later, run, _⟩ := sound.restrict holds ne value
  exact .of_run (erases_restrict p var value) (traces_restrict sound.proper holds ne value) run

theorem calls_rename (holds : m.arena.Holds p a) (copy : StateCopy) :
    Calls (rename copy p) (renameTracing copy p) m (Descends m.arena.Branch p) := by
  obtain ⟨ref, later, run, _⟩ := sound.rename copy holds
  exact .of_run (erases_rename copy p) (traces_rename sound.proper copy holds) run

theorem calls_rebuild (holds : m.arena.Holds p a) :
    Calls (rebuild p) (rebuildTracing p) m (Descends m.arena.Branch p) :=
  .of_run (erases_rebuild p) ((traces_rebuildFrom sound.proper holds).afresh ∅)
    (rebuild_of_holds sound holds)

end Sound

theorem detach_calls {m : Manager} {f : Ref} {allowed : List Ref → Prop}
    (traces : Traces Drawing allowed (m.detachTracing f)) {supply later : Supply} {d : Detached}
    (run : (m.detach f).run.run supply = (.ok d, later)) :
    ∃ chains, ((m.detachTracing f).run []).run.run supply = (.ok (d, chains), later) ∧
      ∀ chain ∈ chains, allowed chain := by
  have plain : (Prod.fst <$> (m.detachTracing f).run []).run.run supply = (.ok d, later) := by
    rw [← run, ← erases_detach m f []]
    rfl
  rw [map_eq_pure_bind, ExceptT.run_bind, StateT.run_bind] at plain
  cases traced : ((m.detachTracing f).run []).run.run supply with
  | mk result last =>
      rw [traced] at plain
      cases result with
      | error fault => cases plain
      | ok pair =>
          have met := traces.run_nil supply pair last traced
          cases plain
          exact ⟨pair.2, rfl, met⟩

theorem evaluate_calls {m : Manager} {f : Ref} {assignment : Nat → Bool}
    {allowed : List Ref → Prop} (traces : Traces Answering allowed (m.evaluateTracing f assignment))
    {value : Bool} (run : m.evaluate f assignment = .ok value) :
    ∃ chains, (m.evaluateTracing f assignment).run [] = .ok (value, chains) ∧
      ∀ chain ∈ chains, allowed chain := by
  have plain : Prod.fst <$> (m.evaluateTracing f assignment).run [] = .ok value :=
    (erases_evaluate m f assignment []).trans run
  cases traced : (m.evaluateTracing f assignment).run [] with
  | error fault =>
      rw [traced] at plain
      cases plain
  | ok pair =>
      have met := traces.run_nil pair traced
      rw [traced] at plain
      cases plain
      exact ⟨pair.2, rfl, met⟩

theorem detach_outermost {m : Manager} {f : Ref} {supply later : Supply} {d : Detached}
    (run : (m.detach f).run.run supply = (.ok d, later)) :
    ∃ chains, ((m.detachTracing f).run []).run.run supply = (.ok (d, [f] :: chains), later) := by
  obtain ⟨rest, same⟩ := opens_detach m f
  have plain : (Prod.fst <$> (m.detachTracing f).run []).run.run supply = (.ok d, later) := by
    rw [← run, ← erases_detach m f []]
    rfl
  rw [same, ← comp_map, ExceptT.run_map, StateT.run_map] at plain
  rw [same, ExceptT.run_map, StateT.run_map]
  cases ended : rest.run.run supply with
  | mk result last =>
      rw [ended] at plain
      cases result with
      | error fault => cases plain
      | ok pair =>
          cases plain
          exact ⟨pair.2, rfl⟩

theorem evaluate_outermost {m : Manager} {f : Ref} {assignment : Nat → Bool} {value : Bool}
    (run : m.evaluate f assignment = .ok value) :
    ∃ chains, (m.evaluateTracing f assignment).run [] = .ok (value, [f] :: chains) := by
  obtain ⟨rest, same⟩ := opens_evaluate m f assignment
  have plain : Prod.fst <$> (m.evaluateTracing f assignment).run [] = .ok value :=
    (erases_evaluate m f assignment []).trans run
  rw [same] at plain ⊢
  cases rest with
  | error fault => cases plain
  | ok pair =>
      cases plain
      exact ⟨pair.2, rfl⟩

/--
Every chain of calls that a connective makes on two diagrams splits on ascending variables of their
supports; the calls of a restriction, a renaming, a rebuilding or a detaching and the rounds of an
evaluation are for ascending variables of the support. Hence no chain is longer, by more than one,
than there are such variables. A restriction of variable zero fails at once.
-/
theorem Reached.recursion_depth {m : Manager} (reached : m.Reached) {p q : Ref}
    (insideP : m.Resident p) (insideQ : m.Resident q) :
    ∃ vars others, m.support p = .ok vars ∧ m.support q = .ok others ∧
      (∀ op, Calls (apply op p q) (applyTracing op p q) m
        (Shallow m.arena.splitVar? (vars.toFinset ∪ others.toFinset) (p, q))) ∧
      (∀ var value, var ≠ 0 → Calls (restrict p var value) (restrictTracing p var value) m
        (Shallow m.arena.var? vars.toFinset p)) ∧
      (∀ value, restrict p 0 value m = .error .zeroVariable m) ∧
      (∀ copy, Calls (rename copy p) (renameTracing copy p) m
        (Shallow m.arena.var? vars.toFinset p)) ∧
      Calls (rebuild p) (rebuildTracing p) m (Shallow m.arena.var? vars.toFinset p) ∧
      (∀ supply, ∃ d later chains, m.Detaches p supply d later ∧
        ((m.detachTracing p).run []).run.run supply = (.ok (d, chains), later) ∧
        ∀ chain ∈ chains, Shallow m.arena.var? vars.toFinset p chain) ∧
      ∀ assignment, ∃ value chains, m.evaluate p assignment = .ok value ∧
        (m.evaluateTracing p assignment).run [] = .ok (value, chains) ∧
        ∀ chain ∈ chains, Shallow m.arena.var? vars.toFinset p chain := by
  have sound := reached.sound
  have proper := sound.proper
  obtain ⟨a, holdsP⟩ := resident_iff.mp insideP
  obtain ⟨b, holdsQ⟩ := resident_iff.mp insideQ
  obtain ⟨vars, listed, mem_vars⟩ := support_of_holds proper holdsP
  obtain ⟨others, listedOthers, mem_others⟩ := support_of_holds proper holdsQ
  have single (chain : List Ref) (descends : Descends m.arena.Branch p chain) :
      Shallow m.arena.var? vars.toFinset p chain :=
    descends.shallow proper.ordered_branch fun var inside =>
      List.mem_toFinset.mpr ((mem_vars var).mpr inside)
  have double (chain : List (Ref × Ref)) (descends : Descends m.arena.Split (p, q) chain) :
      Shallow m.arena.splitVar? (vars.toFinset ∪ others.toFinset) (p, q) chain := by
    refine descends.shallow proper.ordered_split fun var inside => ?_
    rw [Finset.mem_union, List.mem_toFinset, List.mem_toFinset, mem_vars, mem_others]
    exact inside
  refine ⟨vars, others, listed, listedOthers, ?_, ?_, ?_, ?_, ?_, ?_, ?_⟩
  · exact fun op => (calls_apply sound holdsP holdsQ op).mono double
  · exact fun var value ne => (calls_restrict sound holdsP ne value).mono single
  · exact restrict_of_zero m p
  · exact fun copy => (calls_rename sound holdsP copy).mono single
  · exact (calls_rebuild sound holdsP).mono single
  · intro supply
    obtain ⟨_, later, _, run, _, _, d, rfl, _⟩ := detach_succeeds proper holdsP (.nil supply)
    obtain ⟨chains, traced, met⟩ := detach_calls ((traces_detachFrom proper holdsP).afresh ∅) run
    exact ⟨d, later, chains, run, traced, fun chain inside => single chain (met chain inside)⟩
  · intro assignment
    obtain ⟨φ, denotes⟩ := proper.exists_denotes holdsP.slot_lt
    have run := evaluate_of_denotes denotes assignment
    obtain ⟨chains, traced, met⟩ := evaluate_calls (traces_evaluate proper assignment holdsP) run
    exact ⟨_, chains, run, traced, fun chain inside => single chain (met chain inside)⟩

theorem recursion_depth_bothCopies :
    bothCopies.Resident ⟨5⟩ ∧ bothCopies.Resident ⟨6⟩ ∧
      Calls (apply .and ⟨5⟩ ⟨6⟩) (applyTracing .and ⟨5⟩ ⟨6⟩) bothCopies
        (Shallow bothCopies.arena.splitVar? {1, 2, 3} (⟨5⟩, ⟨6⟩)) ∧
      Calls (restrict ⟨5⟩ 2 true) (restrictTracing ⟨5⟩ 2 true) bothCopies
        (Shallow bothCopies.arena.var? {1, 2, 3} ⟨5⟩) ∧
      Calls (rebuild ⟨5⟩) (rebuildTracing ⟨5⟩) bothCopies
        (Shallow bothCopies.arena.var? {1, 2, 3} ⟨5⟩) := by
  have inside : bothCopies.Resident ⟨5⟩ ∧ bothCopies.Resident ⟨6⟩ := by decide
  have one : bothCopies.support ⟨6⟩ = .ok [2] := support_of_listed (by decide +kernel)
  obtain ⟨vars, others, listed, listedOthers, connective, fixed, _, _, rebuilt, _⟩ :=
    reached_bothCopies.recursion_depth inside.1 inside.2
  obtain rfl : vars = [1, 2, 3] := Except.ok.inj (listed.symm.trans support_bothCopies)
  obtain rfl : others = [2] := Except.ok.inj (listedOthers.symm.trans one)
  have union : [1, 2, 3].toFinset ∪ [2].toFinset = ({1, 2, 3} : Finset Nat) := by decide
  exact ⟨inside.1, inside.2, union ▸ connective .and, fixed 2 true (by decide), rebuilt⟩

/-- The list of each operation begins with the operation's own call, so there are chains. -/
theorem Reached.outermost_call {m : Manager} (reached : m.Reached) {p q : Ref}
    (insideP : m.Resident p) (insideQ : m.Resident q) :
    (∀ op, ∃ ref later chains,
      (applyTracing op p q).run [] m = .ok (ref, [(p, q)] :: chains) later) ∧
      (∀ var value, var ≠ 0 → ∃ ref later chains,
        (restrictTracing p var value).run [] m = .ok (ref, [p] :: chains) later) ∧
      (∀ copy, ∃ ref later chains,
        (renameTracing copy p).run [] m = .ok (ref, [p] :: chains) later) ∧
      (∃ ref later chains, (rebuildTracing p).run [] m = .ok (ref, [p] :: chains) later) ∧
      (∀ supply, ∃ d later chains,
        ((m.detachTracing p).run []).run.run supply = (.ok (d, [p] :: chains), later)) ∧
      ∀ assignment, ∃ value chains,
        (m.evaluateTracing p assignment).run [] = .ok (value, [p] :: chains) := by
  have sound := reached.sound
  obtain ⟨a, holdsP⟩ := resident_iff.mp insideP
  obtain ⟨b, holdsQ⟩ := resident_iff.mp insideQ
  refine ⟨fun op => (calls_apply sound holdsP holdsQ op).outermost (opens_apply op p q),
    fun var value ne => (calls_restrict sound holdsP ne value).outermost
      (opens_restrict p var value),
    fun copy => (calls_rename sound holdsP copy).outermost (opens_rename copy p),
    (calls_rebuild sound holdsP).outermost (opens_rebuild p), ?_, ?_⟩
  · intro supply
    obtain ⟨_, later, _, run, _, _, d, rfl, _⟩ := detach_succeeds sound.proper holdsP (.nil supply)
    obtain ⟨chains, traced⟩ := detach_outermost run
    exact ⟨d, later, chains, traced⟩
  · intro assignment
    obtain ⟨φ, denotes⟩ := sound.proper.exists_denotes holdsP.slot_lt
    obtain ⟨chains, traced⟩ := evaluate_outermost (evaluate_of_denotes denotes assignment)
    exact ⟨_, chains, traced⟩

/-- The bound is attained: four nested calls for three variables. -/
example : (match (applyTracing .and ⟨5⟩ ⟨6⟩).run [] bothCopies with
    | .ok (_, chains) _ => chains.contains [(⟨5⟩, ⟨6⟩), (⟨4⟩, ⟨6⟩), (⟨3⟩, ⟨1⟩), (⟨0⟩, ⟨1⟩)]
    | .error .. => false) = true := by
  decide +kernel

end DecisionDiagram.Manager
