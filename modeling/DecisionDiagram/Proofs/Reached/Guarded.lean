import DecisionDiagram.Proofs.Manager.Answers
import DecisionDiagram.Proofs.Reached.Ensures
import DecisionDiagram.Proofs.Reached.Equality

/-!
# Guarded operations

An operation has a contract with its callers. It is guarded if it fails exactly when the contract is
violated, and strict if it leaves the manager as it was when it fails. On sound managers all single
operations are guarded. They are strict but for renaming, which counts one look-up before it finds
out that its operand has no node. A fold fails at the first member that its step refuses, and then
it leaves what the steps before that member made.
-/

namespace DecisionDiagram

/-- The fault lies in one operand alone: it is variable zero or a reference without a node. -/
def Fault.OfOperand : Fault → Prop
  | zeroVariable => True
  | foreignRef _ => True
  | _ => False

namespace Manager

/-- The operation fails exactly if its contract is violated, and then it leaves such a manager. -/
structure Guarded {α : Type} (x : ManagerM α) (m : Manager) (violated : Prop)
    (leaves : Fault → Manager → Prop) : Prop where
  fails : violated → ∃ fault later, x m = .error fault later ∧ leaves fault later
  succeeds : ¬ violated → ∃ a later, x m = .ok a later

/-- It fails exactly if its contract is violated, for one bad operand, and then changes nothing. -/
abbrev Strict {α : Type} (x : ManagerM α) (m : Manager) (violated : Prop) : Prop :=
  Guarded x m violated fun fault later => fault.OfOperand ∧ later = m

namespace Guarded

variable {α β : Type} {x : ManagerM α} {m : Manager} {violated : Prop}
  {leaves : Fault → Manager → Prop}

theorem congr {other : Prop} (guarded : Guarded x m violated leaves) (same : violated ↔ other) :
    Guarded x m other leaves :=
  ⟨guarded.fails ∘ same.mpr, guarded.succeeds ∘ mt same.mp⟩

theorem mono {weaker : Fault → Manager → Prop} (guarded : Guarded x m violated leaves)
    (implies : ∀ {fault later}, leaves fault later → weaker fault later) :
    Guarded x m violated weaker where
  fails broken := by
    obtain ⟨fault, later, run, left⟩ := guarded.fails broken
    exact ⟨fault, later, run, implies left⟩
  succeeds := guarded.succeeds

theorem map (guarded : Guarded x m violated leaves) (f : α → β) :
    Guarded (f <$> x) m violated leaves where
  fails broken := by
    obtain ⟨fault, later, run, left⟩ := guarded.fails broken
    rw [map_eq_pure_bind]
    exact ⟨fault, later, bind_error run, left⟩
  succeeds kept := by
    obtain ⟨a, later, run⟩ := guarded.succeeds kept
    rw [map_eq_pure_bind]
    exact ⟨f a, later, bind_ok run⟩

theorem bind_pure (guarded : Guarded x m violated leaves) (f : α → β) :
    Guarded (x >>= fun a => pure (f a)) m violated leaves := by
  rw [← map_eq_pure_bind]
  exact guarded.map f

/-- If only the first step can fail, its guard is that of the sequence. -/
theorem bind {next : α → ManagerM β} (guarded : Guarded x m violated leaves)
    (whole : ¬ violated → ∃ b later, (x >>= next) m = .ok b later) :
    Guarded (x >>= next) m violated leaves where
  fails broken := by
    obtain ⟨fault, later, run, left⟩ := guarded.fails broken
    exact ⟨fault, later, bind_error run, left⟩
  succeeds := whole

theorem ask {question : Manager → Except Fault α} {names : Fault → Prop}
    (fails : violated → ∃ fault, question m = .error fault ∧ names fault)
    (succeeds : ¬ violated → ∃ a, question m = .ok a) :
    Guarded (ask question) m violated fun fault later => names fault ∧ later = m where
  fails broken := by
    obtain ⟨fault, failed, named⟩ := fails broken
    exact ⟨fault, m, ask_eq_error failed, named, rfl⟩
  succeeds kept := by
    obtain ⟨a, found⟩ := succeeds kept
    exact ⟨a, m, ask_eq_ok found⟩

/-- The guard decides how the operation ends. -/
theorem fails_iff (guarded : Guarded x m violated leaves) :
    (∃ fault later, x m = .error fault later) ↔ violated := by
  constructor
  · rintro ⟨fault, later, failed⟩
    by_contra kept
    obtain ⟨a, other, run⟩ := guarded.succeeds kept
    cases failed.symm.trans run
  · intro broken
    obtain ⟨fault, later, failed, _⟩ := guarded.fails broken
    exact ⟨fault, later, failed⟩

theorem not_of_ok (guarded : Guarded x m violated leaves) {a : α} {later : Manager}
    (run : x m = .ok a later) : ¬ violated := by
  intro broken
  obtain ⟨fault, last, failed, _⟩ := guarded.fails broken
  cases failed.symm.trans run

theorem leaves_of_error (guarded : Guarded x m violated leaves) {fault : Fault} {later : Manager}
    (failed : x m = .error fault later) : leaves fault later := by
  obtain ⟨other, last, run, left⟩ := guarded.fails (guarded.fails_iff.mp ⟨fault, later, failed⟩)
  cases failed.symm.trans run
  exact left

end Guarded

theorem Ensures.succeeds {α : Type} {x : ManagerM α} {m : Manager} {post : α → Manager → Prop}
    (ensures : Ensures x m post) : ∃ a later, x m = .ok a later := by
  obtain ⟨a, later, run, _⟩ := ensures
  exact ⟨a, later, run⟩

/-! ## Single operations -/

/-- The reference names a decision that a decision on the variable must not have as a branch. -/
def Obstructs (m : Manager) (var : Nat) (ref : Ref) : Prop :=
  ∃ top high low, m.table.get? ref = some (.decision top high low) ∧ ¬ var < top

abbrev Foreign (m : Manager) (p q : Ref) : Prop :=
  ¬ m.Resident p ∨ ¬ m.Resident q

abbrev Unfit (m : Manager) (f : Ref) (var : Nat) : Prop :=
  var = 0 ∨ ¬ m.Resident f

theorem not_obstructs_iff {m : Manager} {var : Nat} {ref : Ref} {node : Node}
    (holds : m.arena.Holds ref node) : ¬ m.Obstructs var ref ↔ node.admits var := by
  constructor
  · intro free
    cases node with
    | leaf value => rfl
    | decision top high low =>
        by_contra refused
        exact free ⟨top, high, low, holds, fun lt => refused (decide_eq_true lt)⟩
  · rintro admits ⟨top, high, low, stored, late⟩
    cases holds.inj stored
    exact late (of_decide_eq_true admits)

/-- A decision is refused for its variable, or for a branch if the branches differ. -/
theorem guarded_decision {m : Manager} (unlimited : m.limit? = none) (var : Nat) (high low : Ref) :
    Guarded (decision var high low) m
      (var = 0 ∨ high ≠ low ∧
        (¬ m.Resident high ∨ ¬ m.Resident low ∨ m.Obstructs var high ∨ m.Obstructs var low))
      fun _ later => later = m where
  fails broken := by
    by_cases zero : var = 0
    · subst zero
      exact ⟨_, m, decision_of_zero m high low, rfl⟩
    obtain ⟨ne, broken⟩ := broken.resolve_left zero
    by_cases residentHigh : m.Resident high
    case neg => exact ⟨_, m, decision_of_foreign_high zero ne residentHigh, rfl⟩
    obtain ⟨a, holdsHigh⟩ := resident_iff.mp residentHigh
    by_cases residentLow : m.Resident low
    case neg => exact ⟨_, m, decision_of_foreign_low zero ne holdsHigh residentLow, rfl⟩
    obtain ⟨b, holdsLow⟩ := resident_iff.mp residentLow
    have obstructed := (broken.resolve_left (not_not_intro residentHigh)).resolve_left
      (not_not_intro residentLow)
    refine ⟨_, m, decision_of_disordered zero ne holdsHigh holdsLow fun ordered => ?_, rfl⟩
    obtain ⟨first, second⟩ := Bool.and_eq_true_iff.mp ordered
    exact obstructed.elim ((not_obstructs_iff holdsHigh).mpr first)
      ((not_obstructs_iff holdsLow).mpr second)
  succeeds kept := by
    obtain ⟨nonzero, kept⟩ := not_or.mp kept
    by_cases same : high = low
    · subst same
      exact ⟨high, m, decision_of_eq m nonzero high⟩
    obtain ⟨residentHigh, kept⟩ := not_or.mp fun broken => kept ⟨same, broken⟩
    obtain ⟨residentLow, kept⟩ := not_or.mp kept
    obtain ⟨freeHigh, freeLow⟩ := not_or.mp kept
    obtain ⟨a, holdsHigh⟩ := resident_iff.mp (Classical.not_not.mp residentHigh)
    obtain ⟨b, holdsLow⟩ := resident_iff.mp (Classical.not_not.mp residentLow)
    have orders : m.arena.Orders var high low :=
      ⟨nonzero, ⟨a, holdsHigh, (not_obstructs_iff holdsHigh).mp freeHigh⟩,
        ⟨b, holdsLow, (not_obstructs_iff holdsLow).mp freeLow⟩⟩
    obtain ⟨inside, run⟩ := decision_of_ne unlimited same orders
    exact ⟨_, _, run⟩

/-- All that happened is one look-up that found nothing. -/
structure MissedOnce (m later : Manager) : Prop where
  table : later.table = m.table
  entries : later.computed.entries = m.computed.entries
  hits : later.computed.hits = m.computed.hits
  misses : later.computed.misses = m.computed.misses + 1

theorem missedOnce_counted {m : Manager} {key : ComputedKey}
    (missing : m.computed.entries[key]? = none) : m.MissedOnce (m.counted key) := by
  have looked : (m.counted key).computed = { m.computed with misses := m.computed.misses + 1 } := by
    rw [counted, ComputedTable.lookup, missing]
  constructor
  · rfl
  · rw [looked]
  · rw [looked]
  · rw [looked]

section Sound

variable {m : Manager} (sound : m.Sound)
include sound

theorem exists_describes {f : Ref} (resident : m.Resident f) : ∃ S, m.Describes f S :=
  ⟨_, sound.describes resident⟩

theorem describes_of_not_foreign {p q : Ref} (inside : ¬ m.Foreign p q) :
    ∃ S T, m.Describes p S ∧ m.Describes q T := by
  obtain ⟨residentP, residentQ⟩ := not_or.mp inside
  obtain ⟨S, describesP⟩ := exists_describes sound (Classical.not_not.mp residentP)
  obtain ⟨T, describesQ⟩ := exists_describes sound (Classical.not_not.mp residentQ)
  exact ⟨S, T, describesP, describesQ⟩

theorem describes_of_not_unfit {f : Ref} {var : Nat} (fit : ¬ m.Unfit f var) :
    var ≠ 0 ∧ ∃ S, m.Describes f S := by
  obtain ⟨nonzero, resident⟩ := not_or.mp fit
  exact ⟨nonzero, exists_describes sound (Classical.not_not.mp resident)⟩

theorem strict_literal (var : Nat) (positive : Bool) :
    Strict (literal var positive) m (var = 0) where
  fails zero := by
    subst zero
    exact ⟨_, m, decision_of_zero m _ _, trivial, rfl⟩
  succeeds nonzero := (builds_literal sound nonzero positive).succeeds

theorem strict_apply (op : Connective) (p q : Ref) :
    Strict (apply op p q) m (m.Foreign p q) where
  fails broken := by
    by_cases residentP : m.Resident p
    case neg => exact ⟨_, m, apply_of_foreign_left op q residentP, trivial, rfl⟩
    obtain ⟨a, holdsP⟩ := resident_iff.mp residentP
    have foreign := broken.resolve_left (not_not_intro residentP)
    exact ⟨_, m, apply_of_foreign_right op holdsP foreign, trivial, rfl⟩
  succeeds kept := by
    obtain ⟨S, T, ⟨φ, representsP, _⟩, ψ, representsQ, _⟩ := describes_of_not_foreign sound kept
    exact (builds_apply sound op representsP representsQ fun _ => .rfl).succeeds

theorem strict_neg (f : Ref) : Strict (neg f) m (¬ m.Resident f) := by
  have leaf : m.Resident Ref.falseLeaf := resident_iff.mpr ⟨_, sound.proper.leaf false⟩
  exact (strict_apply sound .imply f Ref.falseLeaf).congr (or_iff_left (not_not_intro leaf))

theorem strict_restrict (f : Ref) (var : Nat) (value : Bool) :
    Strict (restrict f var value) m (m.Unfit f var) where
  fails broken := by
    by_cases zero : var = 0
    · subst zero
      exact ⟨_, m, restrict_of_zero m f value, trivial, rfl⟩
    · exact ⟨_, m, restrict_of_foreign zero value (broken.resolve_left zero), trivial, rfl⟩
  succeeds kept := by
    obtain ⟨nonzero, S, describes⟩ := describes_of_not_unfit sound kept
    exact (builds_restrict sound describes nonzero value).succeeds

theorem strict_existsVar (f : Ref) (var : Nat) :
    Strict (existsVar f var) m (m.Unfit f var) := by
  refine (strict_restrict sound f var true).bind fun kept => ?_
  obtain ⟨nonzero, S, describes⟩ := describes_of_not_unfit sound kept
  exact (builds_existsVar sound describes nonzero).succeeds

theorem strict_forallVar (f : Ref) (var : Nat) :
    Strict (forallVar f var) m (m.Unfit f var) := by
  refine (strict_restrict sound f var true).bind fun kept => ?_
  obtain ⟨nonzero, S, describes⟩ := describes_of_not_unfit sound kept
  exact (builds_forallVar sound describes nonzero).succeeds

/-- Renaming looks its operand up before it asks for the node. -/
theorem guarded_rename (copy : StateCopy) (f : Ref) :
    Guarded (rename copy f) m (¬ m.Resident f) fun fault later =>
      fault.OfOperand ∧ m.MissedOnce later where
  fails foreign := by
    have inner : ¬ f.isLeaf := by
      intro leaf
      obtain ⟨value, rfl⟩ := f.isLeaf_iff.mp leaf
      exact foreign (resident_iff.mpr ⟨_, sound.proper.leaf value⟩)
    have missing := sound.missing_rename copy foreign
    exact ⟨_, _, rename_of_foreign copy inner missing foreign, trivial, missedOnce_counted missing⟩
  succeeds kept := by
    obtain ⟨S, describes⟩ := exists_describes sound (Classical.not_not.mp kept)
    exact (builds_rename sound describes copy).succeeds

theorem strict_rebuild (f : Ref) : Strict (rebuild f) m (¬ m.Resident f) where
  fails foreign := ⟨_, m, rebuild_of_foreign foreign, trivial, rfl⟩
  succeeds kept := by
    obtain ⟨node, holds⟩ := resident_iff.mp (Classical.not_not.mp kept)
    exact ⟨f, m, rebuild_of_holds sound holds⟩

theorem strict_contains (p q : Ref) :
    Strict (contains p q) m (m.Foreign p q) := by
  refine Guarded.bind ((strict_apply sound .imply q p).congr or_comm) fun kept => ?_
  obtain ⟨S, T, describesP, describesQ⟩ := describes_of_not_foreign sound kept
  exact (ensures_contains sound describesP describesQ).succeeds

theorem strict_intersects (p q : Ref) :
    Strict (intersects p q) m (m.Foreign p q) := by
  refine Guarded.bind ((strict_apply sound .and q p).congr or_comm) fun kept => ?_
  obtain ⟨S, T, describesP, describesQ⟩ := describes_of_not_foreign sound kept
  exact (ensures_intersects sound describesP describesQ).succeeds

/-! ## Queries -/

omit sound in
/-- A question about one reference is answered exactly if the reference has a node. -/
theorem strict_ask {α : Type} {question : Manager → Except Fault α} {f : Ref}
    (foreign : ¬ m.Resident f → question m = .error (.foreignRef f))
    (stored : ∀ {node}, m.arena.Holds f node → ∃ a, question m = .ok a) :
    Strict (ask question) m (¬ m.Resident f) := by
  refine .ask (fun broken => ⟨_, foreign broken, trivial⟩) fun kept => ?_
  obtain ⟨node, holds⟩ := resident_iff.mp (Classical.not_not.mp kept)
  exact stored holds

theorem strict_equals (p q : Ref) :
    Strict (ask (·.equals p q)) m (p ≠ q ∧ m.Foreign p q) := by
  refine .ask ?_ ?_
  · rintro ⟨ne, broken⟩
    by_cases residentP : m.Resident p
    · obtain ⟨a, holdsP⟩ := resident_iff.mp residentP
      have foreign := broken.resolve_left (not_not_intro residentP)
      exact ⟨_, equals_of_foreign_right foreign holdsP ne, trivial⟩
    · exact ⟨_, equals_of_foreign_left residentP ne, trivial⟩
  · intro kept
    by_cases same : p = q
    · subst same
      exact ⟨true, equals_self m p⟩
    · obtain ⟨residentP, residentQ⟩ := not_or.mp fun broken => kept ⟨same, broken⟩
      obtain ⟨a, holdsP⟩ := resident_iff.mp (Classical.not_not.mp residentP)
      obtain ⟨b, holdsQ⟩ := resident_iff.mp (Classical.not_not.mp residentQ)
      exact ⟨_, equals_of_holds sound.proper holdsP holdsQ⟩

omit sound in
theorem guarded_cofactors (f : Ref) (var : Nat) :
    Guarded (ask (·.cofactors f var)) m
      (var = 0 ∨ ¬ m.Resident f ∨
        ∃ top high low, m.table.get? f = some (.decision top high low) ∧ top < var)
      fun _ later => later = m := by
  refine Guarded.mono (?_ : Guarded _ m _ fun _ later => True ∧ later = m) And.right
  refine .ask ?_ ?_
  · intro broken
    by_cases zero : var = 0
    · subst zero
      exact ⟨_, cofactors_of_zero m f, trivial⟩
    rcases broken.resolve_left zero with foreign | ⟨top, high, low, stored, lt⟩
    · exact ⟨_, cofactors_of_foreign foreign zero, trivial⟩
    · exact ⟨_, cofactors_of_below stored lt, trivial⟩
  · intro kept
    obtain ⟨nonzero, kept⟩ := not_or.mp kept
    obtain ⟨resident, kept⟩ := not_or.mp kept
    obtain ⟨node, holds⟩ := resident_iff.mp (Classical.not_not.mp resident)
    refine ⟨_, cofactors_of_holds holds nonzero fun top high low same => ?_⟩
    exact Nat.le_of_not_lt fun lt => kept ⟨top, high, low, same ▸ holds, lt⟩

end Sound

/-! ## Folds -/

section Folds

variable {α β : Type}

/-- The fold comes to a member that its step refuses. -/
def Refuses (step : β → α → ManagerM β) (refused : Manager → β → α → Prop) :
    List α → β → Manager → Prop
  | [], _, _ => False
  | a :: rest, b, m =>
      refused m b a ∨ ∃ c later, step b a m = .ok c later ∧ Refuses step refused rest c later

/-- The fold ends in a fault of one step, with all that the steps before it made. -/
def Stops (step : β → α → ManagerM β) (list : List α) (b : β) (m : Manager) (fault : Fault)
    (later : Manager) : Prop :=
  ∃ before a after c, list = before ++ a :: after ∧ before.foldlM step b m = .ok c later ∧
    step c a later = .error fault later

theorem guarded_foldlM {step : β → α → ManagerM β} {refused : Manager → β → α → Prop}
    (strict : ∀ {m : Manager}, m.Sound → ∀ b a, Strict (step b a) m (refused m b a))
    (steady : ∀ b a, Steady (step b a)) (list : List α) (b : β) {m : Manager} (sound : m.Sound) :
    Guarded (list.foldlM step b) m (Refuses step refused list b m) fun fault later =>
      fault.OfOperand ∧ Stops step list b m fault later := by
  induction list generalizing b m with
  | nil => exact ⟨False.elim, fun _ => ⟨b, m, rfl⟩⟩
  | cons a rest ih =>
      rw [List.foldlM_cons]
      by_cases broken : refused m b a
      · obtain ⟨fault, _, failed, named, rfl⟩ := (strict sound b a).fails broken
        refine ⟨fun _ => ⟨fault, _, bind_error failed, named, ?_⟩,
          fun kept => absurd (Or.inl broken) kept⟩
        exact ⟨[], a, rest, b, rfl, rfl, failed⟩
      · obtain ⟨c, middle, run⟩ := (strict sound b a).succeeds broken
        have guarded := ih c ((steady b a).kept sound run).1
        constructor
        · rintro (refusal | ⟨d, other, runOther, refusal⟩)
          · exact absurd refusal broken
          · cases run.symm.trans runOther
            obtain ⟨fault, later, failed, named, before, x, after, e, split, done, last⟩ :=
              guarded.fails refusal
            refine ⟨fault, later, (bind_ok run).trans failed, named, a :: before, x, after, e, ?_,
              ?_, last⟩
            · rw [split, List.cons_append]
            · rw [List.foldlM_cons, bind_ok run, done]
        · intro kept
          obtain ⟨e, later, runRest⟩ :=
            guarded.succeeds fun refusal => kept (Or.inr ⟨c, middle, run, refusal⟩)
          exact ⟨e, later, (bind_ok run).trans runRest⟩

end Folds

end Manager

end DecisionDiagram
