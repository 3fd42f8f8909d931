import DecisionDiagram.Proofs.Reached.Asking
import DecisionDiagram.Proofs.Reached.Attaching
import DecisionDiagram.Proofs.Reached.Exchange
import DecisionDiagram.Proofs.Reached.Guarded

/-!
# The contracts of reached managers

An operation on a reached manager fails if and only if its own contract is violated: some variable
is zero, some reference has no node, or a decision or cofactors are asked for out of order. The
checks inside the recursions never fail; neither do those of a program that asks for the cofactors
of its operands instead of reading them off. What fails changes nothing, except that renaming counts
one look-up and that a fold keeps what its steps made before.
-/

namespace DecisionDiagram

open Manager

namespace Operation

/-- What the operation is given can exist: no decision to be attached is on variable zero. -/
def Supplied : Operation → Prop
  | attach d => d.Proper
  | _ => True

def Violates (op : Operation) (m : Manager) : Prop :=
  match op with
  | leaf _ => False
  | decision var high low =>
      var = 0 ∨ high ≠ low ∧
        (¬ m.Resident high ∨ ¬ m.Resident low ∨ m.Obstructs var high ∨ m.Obstructs var low)
  | literal var _ => var = 0
  | apply _ p q => m.Foreign p q
  | neg f => ¬ m.Resident f
  | conjAll diagrams => Refuses conj Foreign diagrams Ref.trueLeaf m
  | disjAll diagrams => Refuses disj Foreign diagrams Ref.falseLeaf m
  | restrict f var _ => m.Unfit f var
  | existsVar f var => m.Unfit f var
  | forallVar f var => m.Unfit f var
  | existsVars f vars => Refuses Manager.existsVar Unfit vars f m
  | rename _ f => ¬ m.Resident f
  | rebuild f => ¬ m.Resident f
  | attach _ => False
  | detach f _ => ¬ m.Resident f
  | clearComputed => False
  | inspect f => ¬ m.Resident f
  | decisions f => ¬ m.Resident f
  | text f => ¬ m.Resident f
  | support f => ¬ m.Resident f
  | equals p q => p ≠ q ∧ m.Foreign p q
  | contains p q => m.Foreign p q
  | intersects p q => m.Foreign p q
  | cofactors f var =>
      var = 0 ∨ ¬ m.Resident f ∨
        ∃ top high low, m.table.get? f = some (.decision top high low) ∧ top < var
  | evaluate f _ => ¬ m.Resident f
  | truthTable f _ => ¬ m.Resident f

/-- The only faults besides bad operands are those of a decision or cofactors out of order. -/
def Raises (op : Operation) (fault : Fault) : Prop :=
  match op with
  | decision .. => True
  | cofactors .. => True
  | _ => fault.OfOperand

def Leaves (op : Operation) (m : Manager) (fault : Fault) (later : Manager) : Prop :=
  match op with
  | rename .. => m.MissedOnce later
  | conjAll diagrams => Stops conj diagrams Ref.trueLeaf m fault later
  | disjAll diagrams => Stops disj diagrams Ref.falseLeaf m fault later
  | existsVars f vars => Stops Manager.existsVar vars f m fault later
  | _ => later = m

/-- Diagrams of a bench can be attached. -/
theorem supplied_of_held {b : Bench} (bench : b.Reached) {d : Detached} (held : d ∈ b.diagrams) :
    (attach d).Supplied := by
  obtain ⟨family, sound⟩ := bench.sound
  exact sound.made.proper d (sound.held held)

/-- What is detached from a manager can be attached. -/
theorem supplied_of_detaches {m : Manager} (reached : m.Reached) {f : Ref}
    {supply later : Supply} {d : Detached} (detaches : m.Detaches f supply d later) :
    (attach d).Supplied := by
  have resident : m.Resident f := by
    by_contra foreign
    cases (detach_of_foreign foreign supply).symm.trans detaches
  obtain ⟨φ, represents⟩ := reached.sound.exists_represents resident
  obtain ⟨e, last, more, detachesE, made, _, ⟨other, held, inside⟩, _⟩ :=
    reached.sound.detaches represents (.nil supply)
  cases detachesE.symm.trans detaches
  exact fun stamp var high low part => made.proper other held stamp var high low (part.trans inside)

end Operation

namespace Manager

/-! ## Attaching -/

theorem Resident.extend {m later : Manager} {f : Ref} (resident : m.Resident f)
    (grown : m.arena.Extends later.arena) : later.Resident f := by
  obtain ⟨node, holds⟩ := resident_iff.mp resident
  exact resident_iff.mpr ⟨node, grown _ _ holds⟩

theorem ensures_choose {m : Manager} (sound : m.Sound) {var : Nat} (ne : var ≠ 0) {high low : Ref}
    (residentHigh : m.Resident high) (residentLow : m.Resident low) :
    Ensures (choose var high low) m fun ref later => later.Resident ref := by
  obtain ⟨a, holdsHigh⟩ := resident_iff.mp residentHigh
  obtain ⟨b, holdsLow⟩ := resident_iff.mp residentLow
  obtain ⟨ref, later, run, soundLater, chooses⟩ := sound.choose ne holdsHigh holdsLow
  have yields := chooses.yields sound.proper ne (sound.proper.admits_zero holdsHigh)
  obtain ⟨node, holds, _⟩ := yields.admits rfl
  exact ⟨ref, later, run, soundLater, yields.grown, resident_iff.mpr ⟨node, holds⟩⟩

def Lodged (m : Manager) (attached : Attached) : Prop :=
  ∀ (stamp : Nat) (ref : Ref), attached[stamp]? = some ref → m.Resident ref

theorem Lodged.extend {m later : Manager} {attached : Attached} (lodged : m.Lodged attached)
    (grown : m.arena.Extends later.arena) : later.Lodged attached :=
  fun stamp ref stored => (lodged stamp ref stored).extend grown

theorem Lodged.insert {m : Manager} {attached : Attached} (lodged : m.Lodged attached)
    (stamp : Nat) {ref : Ref} (resident : m.Resident ref) :
    m.Lodged (attached.insert stamp ref) := by
  intro other found stored
  rcases Detached.of_getElem?_insert stored with ⟨_, rfl⟩ | old
  · exact resident
  · exact lodged other found old

/-- Attaching needs no more than decisions on allowed variables. -/
theorem ensures_attachFrom {d : Detached} (proper : d.Proper) {m : Manager} (sound : m.Sound)
    {attached : Attached} (lodged : m.Lodged attached) :
    Ensures ((attachFrom d).run attached) m fun result later =>
      later.Resident result.1 ∧ later.Lodged result.2 := by
  induction d generalizing m attached with
  | leaf stamp value =>
      have leaf : m.Resident (Ref.ofBool value) := resident_iff.mpr ⟨_, sound.proper.leaf value⟩
      exact .pure sound ⟨leaf, lodged⟩
  | node stamp var high low ihHigh ihLow =>
      cases stored : attached[stamp]? with
      | some ref =>
          exact ⟨_, m, attachFrom_of_some stored m, sound, .refl _, lodged stamp ref stored, lodged⟩
      | none =>
          rw [attachFrom_of_none stored]
          have properHigh : high.Proper := fun s v h l inside => proper s v h l (.high inside)
          have properLow : low.Proper := fun s v h l inside => proper s v h l (.low inside)
          refine (ihHigh properHigh sound lodged).bind fun soundHigh _ attachedHigh => ?_
          obtain ⟨residentHigh, lodgedHigh⟩ := attachedHigh
          refine (ihLow properLow soundHigh lodgedHigh).bind fun soundLow grown attachedLow => ?_
          obtain ⟨residentLow, lodgedLow⟩ := attachedLow
          have nonzero : var ≠ 0 := proper stamp var high low .self
          refine (ensures_choose soundLow nonzero (residentHigh.extend grown) residentLow).bind
            fun soundLater grownLater resident => ?_
          exact .pure soundLater ⟨resident, (lodgedLow.extend grownLater).insert stamp resident⟩

theorem attach_succeeds {d : Detached} (proper : d.Proper) {m : Manager} (sound : m.Sound) :
    ∃ ref later, attach d m = .ok ref later := by
  have lodged : m.Lodged ∅ := fun stamp ref stored => by simp at stored
  have ends : Ensures (Prod.fst <$> (attachFrom d).run ∅) m fun _ _ => True := by
    rw [map_eq_pure_bind]
    exact (ensures_attachFrom proper sound lodged).bind fun soundLater _ _ =>
      .pure soundLater trivial
  exact ends.succeeds

/-! ## Contracts -/

/-- On sound managers all operations are guarded by their contracts. -/
theorem Sound.guarded {m : Manager} (sound : m.Sound) {op : Operation} (supplied : op.Supplied) :
    Guarded op.perform m (op.Violates m) fun fault later =>
      op.Raises fault ∧ op.Leaves m fault later := by
  cases op with
  | leaf value => exact ⟨False.elim, fun _ => ⟨_, m, rfl⟩⟩
  | decision var high low =>
      exact ((guarded_decision sound.unlimited var high low).mono fun left => ⟨trivial, left⟩).map _
  | literal var positive => exact (strict_literal sound var positive).map _
  | apply op p q => exact (strict_apply sound op p q).map _
  | neg f => exact (strict_neg sound f).map _
  | conjAll diagrams =>
      exact (guarded_foldlM (fun soundLater p q => strict_apply soundLater .and p q) .conj
        diagrams Ref.trueLeaf sound).map _
  | disjAll diagrams =>
      exact (guarded_foldlM (fun soundLater p q => strict_apply soundLater .or p q) .disj
        diagrams Ref.falseLeaf sound).map _
  | restrict f var value => exact (strict_restrict sound f var value).map _
  | existsVar f var => exact (strict_existsVar sound f var).map _
  | forallVar f var => exact (strict_forallVar sound f var).map _
  | existsVars f vars =>
      exact (guarded_foldlM strict_existsVar .existsVar vars f sound).map _
  | rename copy f => exact (guarded_rename sound copy f).map _
  | rebuild f => exact (strict_rebuild sound f).map _
  | attach d =>
      refine ⟨False.elim, fun _ => ?_⟩
      obtain ⟨ref, later, run⟩ := attach_succeeds supplied sound
      exact ⟨.ref ref, later, by rw [Operation.perform, map_eq_pure_bind, bind_ok run]; rfl⟩
  | detach f supply =>
      let answer (copied : Except Fault Detached × Supply) : Except Fault Answer :=
        copied.1.map (.detached · copied.2)
      refine strict_ask (fun foreign => congrArg answer (detach_of_foreign foreign supply)) ?_
      intro node holds
      obtain ⟨φ, represents⟩ := sound.exists_represents holds.slot_lt
      obtain ⟨d, later, _, detaches, _⟩ := sound.detaches represents (.nil supply)
      exact ⟨.detached d later, congrArg answer detaches⟩
  | clearComputed => exact ⟨False.elim, fun _ => ⟨.done, _, rfl⟩⟩
  | inspect f =>
      exact (strict_ask node_of_foreign fun holds => ⟨_, node_of_holds holds⟩).bind_pure _
  | decisions f =>
      exact (strict_ask decisions_of_foreign (decisions_of_holds sound.proper)).map _
  | text f =>
      refine (strict_ask text_of_foreign fun holds => ?_).map _
      obtain ⟨tree, unfolds⟩ := sound.proper.exists_unfolds holds.slot_lt
      exact text_of_unfolds unfolds
  | support f =>
      refine (strict_ask support_of_foreign fun holds => ?_).map _
      obtain ⟨vars, found, _⟩ := support_of_holds sound.proper holds
      exact ⟨vars, found⟩
  | equals p q => exact (strict_equals sound p q).map _
  | contains p q => exact (strict_contains sound p q).map _
  | intersects p q => exact (strict_intersects sound p q).map _
  | cofactors f var =>
      exact ((guarded_cofactors f var).mono fun left => ⟨trivial, left⟩).bind_pure _
  | evaluate f assignment =>
      refine (strict_ask (fun foreign => evaluate_of_foreign foreign assignment)
        fun holds => ?_).map _
      obtain ⟨φ, denotes⟩ := sound.proper.exists_denotes holds.slot_lt
      exact ⟨φ assignment, evaluate_of_denotes denotes assignment⟩
  | truthTable f vars =>
      refine (strict_ask (fun foreign => truthTable_of_foreign foreign vars)
        fun holds => ?_).map _
      obtain ⟨φ, denotes⟩ := sound.proper.exists_denotes holds.slot_lt
      exact truthTable_of_denotes denotes vars

theorem outcome_eq_error_iff {op : Operation} {m : Manager} {fault : Fault} :
    op.outcome m = .error fault ↔ op.perform m = .error fault (op.after m) := by
  unfold Operation.outcome Operation.after
  cases op.perform m <;> simp

/--
Operations fail exactly on violated contracts. Besides bad operands, there are faults of requests
for a decision or for cofactors only, and applying a connective would raise none if it asked for the
cofactors.
-/
theorem Reached.contracts {m : Manager} (reached : m.Reached) :
    (∀ op : Operation, op.Supplied →
      ((∃ fault, op.outcome m = .error fault) ↔ op.Violates m)) ∧
      (∀ (op : Operation) (fault : Fault), op.Supplied → op.outcome m = .error fault →
        op.Raises fault) ∧
      ∀ (op : Connective) (p q : Ref) (depth : Nat), p.slot + q.slot < depth →
        applyAsking op depth p q m = apply op p q m := by
  refine ⟨?_, ?_, fun op p q depth deep => applyAsking_eq_apply reached.sound op deep⟩
  · intro op supplied
    rw [← (reached.sound.guarded supplied).fails_iff]
    constructor
    · rintro ⟨fault, failed⟩
      exact ⟨fault, _, outcome_eq_error_iff.mp failed⟩
    · rintro ⟨fault, later, failed⟩
      exact ⟨fault, by rw [Operation.outcome, failed]⟩
  · intro op fault supplied failed
    exact ((reached.sound.guarded supplied).leaves_of_error (outcome_eq_error_iff.mp failed)).1

theorem contracts_twoLiterals :
    (∃ fault, (Operation.decision 3 ⟨2⟩ ⟨3⟩).outcome twoLiterals = .error fault) ∧
      (¬ ∃ fault, (Operation.apply .and ⟨3⟩ ⟨2⟩).outcome twoLiterals = .error fault) ∧
      applyAsking .and 6 ⟨3⟩ ⟨2⟩ twoLiterals = apply .and ⟨3⟩ ⟨2⟩ twoLiterals := by
  obtain ⟨fails, _, asking⟩ := reached_twoLiterals.contracts
  have obstructs : twoLiterals.Obstructs 3 ⟨2⟩ :=
    ⟨2, Ref.trueLeaf, Ref.falseLeaf, by decide, by decide⟩
  have disordered : (Operation.decision 3 ⟨2⟩ ⟨3⟩).Violates twoLiterals :=
    Or.inr ⟨by decide, Or.inr (Or.inr (Or.inl obstructs))⟩
  have inside : ¬ (Operation.apply .and ⟨3⟩ ⟨2⟩).Violates twoLiterals :=
    not_or.mpr ⟨not_not_intro (by decide), not_not_intro (by decide)⟩
  exact ⟨(fails (.decision 3 ⟨2⟩ ⟨3⟩) trivial).mpr disordered,
    mt (fails (.apply .and ⟨3⟩ ⟨2⟩) trivial).mp inside, asking .and ⟨3⟩ ⟨2⟩ 6 (by decide)⟩

end Manager

end DecisionDiagram
