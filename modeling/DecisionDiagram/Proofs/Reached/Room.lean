import DecisionDiagram.Proofs.History

/-!
# Managers that run out of references

With references for so many nodes only, a program does what it does without a limit as long as it
needs no more nodes. When it does need one more, it stops there, and all references are taken then.
What it leaves is sound even so: a result is remembered only when all of it is there. So the
managers reached with a limit are sound managers with that limit, and the reached managers that
have no more nodes are reached with it.
-/

namespace DecisionDiagram

namespace Manager

theorem arena_within (m : Manager) (limit : Nat) : (m.within limit).arena = m.arena := rfl

/-- With a limit the program ends as without, or it stops for the node that is one too many. -/
inductive Capped {α : Type} (limit : Nat) (x : ManagerM α) (m : Manager) : Prop where
  | ok {a : α} {later : Manager} (run : x m = .ok a later)
      (same : x (m.within limit) = .ok a (later.within limit)) (unlimited : later.limit? = none)
      (fits : later.nodeCount ≤ limit)
  | error {fault : Fault} {later : Manager} (run : x m = .error fault later)
      (same : x (m.within limit) = .error fault (later.within limit))
      (unlimited : later.limit? = none) (fits : later.nodeCount ≤ limit)
  | full {later : Manager} (more : limit < (left x m).nodeCount)
      (stopped : x (m.within limit) = .error .storageFull later)
      (taken : later.nodeCount = limit)

/-- The program keeps all nodes and heeds every limit. -/
structure Cappable {α : Type} (x : ManagerM α) : Prop where
  grows : ∀ m : Manager, m.arena.Extends (left x m).arena
  capped : ∀ {m : Manager} {limit : Nat}, m.limit? = none → m.nodeCount ≤ limit →
    Capped limit x m

/-! ## Programs -/

namespace Cappable

variable {α β : Type}

theorem pure (a : α) : Cappable (Pure.pure a) where
  grows _ := .refl _
  capped unlimited fits := .ok rfl rfl unlimited fits

theorem extends_left_bind (x : ManagerM α) {next : α → ManagerM β}
    (rest : ∀ a, Cappable (next a)) (m : Manager) :
    (left x m).arena.Extends (left (x >>= next) m).arena := by
  cases run : x m with
  | ok a later =>
      rw [left_of_ok run, left_bind run]
      exact (rest a).grows later
  | error fault later =>
      rw [left_of_error run, left_of_error (bind_error run)]
      exact .refl _

theorem bind {x : ManagerM α} {next : α → ManagerM β} (first : Cappable x)
    (rest : ∀ a, Cappable (next a)) : Cappable (x >>= next) where
  grows m := (first.grows m).trans (extends_left_bind x rest m)
  capped {m limit} unlimited fits := by
    cases first.capped unlimited fits with
    | @ok a later run same unlimitedLater fitsLater =>
        cases (rest a).capped unlimitedLater fitsLater with
        | ok runRest sameRest unlimitedLast fitsLast =>
            exact .ok ((bind_ok run).trans runRest) ((bind_ok same).trans sameRest) unlimitedLast
              fitsLast
        | error runRest sameRest unlimitedLast fitsLast =>
            exact .error ((bind_ok run).trans runRest) ((bind_ok same).trans sameRest)
              unlimitedLast fitsLast
        | full more stopped taken =>
            exact .full ((left_bind run next).symm ▸ more) ((bind_ok same).trans stopped) taken
    | error run same unlimitedLater fitsLater =>
        exact .error (bind_error run) (bind_error same) unlimitedLater fitsLater
    | full more stopped taken =>
        have grown := nodeCount_le_of_extends (extends_left_bind x rest m)
        exact .full (Nat.lt_of_lt_of_le more grown) (bind_error stopped) taken

theorem ask {question : Manager → Except Fault α}
    (reads : ∀ {m n : Manager}, m.arena = n.arena → question m = question n) :
    Cappable (ask question) where
  grows m := by
    cases answered : question m with
    | ok answer =>
        rw [left_of_ok (ask_eq_ok answered)]
        exact .refl _
    | error fault =>
        rw [left_of_error (ask_eq_error answered)]
        exact .refl _
  capped {m limit} unlimited fits := by
    have same : question (m.within limit) = question m := reads (arena_within m limit)
    cases answered : question m with
    | ok answer =>
        exact .ok (ask_eq_ok answered) (ask_eq_ok (same.trans answered)) unlimited fits
    | error fault =>
        exact .error (ask_eq_error answered) (ask_eq_error (same.trans answered)) unlimited fits

theorem remembered (key : ComputedKey) : Cappable (remembered key) where
  grows m := by
    rw [left_of_ok (remembered_eq m key)]
    exact .refl _
  capped {m limit} unlimited fits :=
    .ok (remembered_eq m key) (remembered_eq (m.within limit) key) unlimited fits

theorem remember (key : ComputedKey) (ref : Ref) : Cappable (remember key ref) where
  grows m := by
    rw [left_of_ok (remember_eq m key ref)]
    exact .refl _
  capped {m limit} unlimited fits :=
    .ok (remember_eq m key ref) (remember_eq (m.within limit) key ref) unlimited fits

theorem clearComputed : Cappable clearComputed where
  grows _ := .refl _
  capped unlimited fits := .ok rfl rfl unlimited fits

theorem extends_intern (m : Manager) (node : Node) (inside : node.Below ⟨m.nodeCount⟩) :
    m.arena.Extends (m.intern node inside).2.arena := by
  rw [arena, arena, table_intern]
  rcases m.table.cells_put node with same | ⟨_, pushed⟩
  · rw [same]
    exact .refl _
  · rw [pushed]
    exact Arena.extends_push _ _

theorem nodeCount_intern_of_some {m : Manager} {node : Node} {ref : Ref}
    (found : m.table.find? node = some ref) (inside : node.Below ⟨m.nodeCount⟩) :
    (m.intern node inside).2.nodeCount = m.nodeCount := by
  rw [nodeCount, table_intern, UniqueTable.put, found, nodeCount]

theorem nodeCount_intern_of_none {m : Manager} {node : Node} (missing : m.table.find? node = none)
    (inside : node.Below ⟨m.nodeCount⟩) :
    (m.intern node inside).2.nodeCount = m.nodeCount + 1 := by
  rw [nodeCount, table_intern, UniqueTable.put, missing, UniqueTable.size,
    UniqueTable.cells_insertNew, Array.size_push]
  rfl

/-- A decision that is not there is stored or one too many. -/
theorem decision (var : Nat) (high low : Ref) : Cappable (decision var high low) where
  grows m := by
    rcases decision_ends m var high low with ⟨fault, refused⟩ | plain | ⟨inside, made⟩
    · rw [left_of_error refused]
      exact .refl _
    · rw [left_of_ok plain]
      exact .refl _
    · rw [left_of_ok made]
      exact extends_intern m _ inside
  capped {m limit} unlimited fits := by
    rcases decision_cases m var high low with ⟨fault, refused⟩ | ⟨_, plain⟩ | ⟨ne, orders⟩
    · exact .error (refused m rfl) (refused (m.within limit) rfl) unlimited fits
    · exact .ok (plain m) (plain (m.within limit)) unlimited fits
    · obtain ⟨inside, run⟩ := decision_of_ne unlimited ne orders
      have limited : (m.within limit).arena.Orders var high low := orders
      obtain ⟨_, runWithin⟩ := decision_of_orders ne limited
      have checks : (m.within limit).checkRoom (.decision var high low) =
          m.table.checkPut limit (.decision var high low) := rfl
      cases found : m.table.find? (.decision var high low) with
      | some ref =>
          rw [checks, UniqueTable.checkPut, found] at runWithin
          refine .ok run runWithin unlimited ?_
          rwa [nodeCount_intern_of_some found]
      | none =>
          have counted := nodeCount_intern_of_none found inside
          rw [checks, UniqueTable.checkPut, found] at runWithin
          by_cases room : m.table.size < limit
          · rw [UniqueTable.checkRoom, if_pos room] at runWithin
            exact .ok run runWithin unlimited (counted ▸ room)
          · rw [UniqueTable.checkRoom, if_neg room] at runWithin
            have full : m.nodeCount = limit := Nat.le_antisymm fits (Nat.le_of_not_lt room)
            refine .full ?_ runWithin full
            rw [left_of_ok run, counted, full]
            exact Nat.lt_succ_self limit

theorem composed : Composed Cappable :=
  ⟨pure, bind, ask, remembered, remember, decision⟩

end Cappable

end Manager

open Manager

/-- All operations heed every limit. -/
theorem Operation.cappable (op : Operation) : Cappable op.perform :=
  Cappable.composed.perform .clearComputed op

namespace Manager

/-! ## Stopping -/

/-- With a limit the program leaves a sound manager with the limit, even where it stops. -/
def Orderly {α : Type} (x : ManagerM α) : Prop :=
  ∀ (m : Manager) (limit : Nat), m.Sound → m.nodeCount ≤ limit →
    ∃ n : Manager, n.Sound ∧ n.nodeCount ≤ limit ∧ left x (m.within limit) = n.within limit

theorem Steady.sound_left {α : Type} {x : ManagerM α} (steady : Steady x) {m : Manager}
    (sound : m.Sound) : (left x m).Sound := by
  have alike := steady m m (.refl sound)
  generalize run : x m = result at alike
  cases alike with
  | ok answer twin grown => exact left_of_ok run ▸ twin.left
  | error fault twin grown => exact left_of_error run ▸ twin.left

namespace Orderly

variable {α β : Type}

/-- Only what stops for want of a reference remains to be shown orderly. -/
theorem of_stopped {x : ManagerM α} (cappable : Cappable x) (steady : Steady x)
    (stopped : ∀ {m later : Manager} {limit : Nat}, m.Sound → m.nodeCount ≤ limit →
      x (m.within limit) = .error .storageFull later →
        ∃ n : Manager, n.Sound ∧ n.nodeCount ≤ limit ∧ later = n.within limit) : Orderly x := by
  intro m limit sound fits
  have soundLeft := steady.sound_left sound
  cases cappable.capped sound.unlimited fits with
  | ok run same _ fitsLater => exact ⟨_, left_of_ok run ▸ soundLeft, fitsLater, left_of_ok same⟩
  | error run same _ fitsLater =>
      exact ⟨_, left_of_error run ▸ soundLeft, fitsLater, left_of_error same⟩
  | full _ ended _ =>
      rw [left_of_error ended]
      exact stopped sound fits ended

theorem pure (a : α) : Orderly (Pure.pure a) :=
  fun m _ sound fits => ⟨m, sound, fits, rfl⟩

theorem bind {x : ManagerM α} {next : α → ManagerM β} (first : Orderly x)
    (rest : ∀ a, Orderly (next a)) : Orderly (x >>= next) := by
  intro m limit sound fits
  obtain ⟨n, soundN, fitsN, leaves⟩ := first m limit sound fits
  cases run : x (m.within limit) with
  | ok a later =>
      obtain rfl : later = n.within limit := (left_of_ok run).symm.trans leaves
      rw [left_bind run]
      exact rest a n limit soundN fitsN
  | error fault later =>
      rw [left_of_error (bind_error run)]
      exact ⟨n, soundN, fitsN, (left_of_error run).symm.trans leaves⟩

theorem ask {question : Manager → Except Fault α}
    (reads : ∀ {m n : Manager}, m.arena = n.arena → question m = question n) :
    Orderly (ask question) := by
  refine of_stopped (.ask reads) (.ask reads) fun {m later limit} sound fits stopped => ?_
  cases answered : question (m.within limit) with
  | ok answer => cases (ask_eq_ok answered).symm.trans stopped
  | error fault =>
      cases (ask_eq_error answered).symm.trans stopped
      exact ⟨m, sound, fits, rfl⟩

theorem decision (var : Nat) (high low : Ref) : Orderly (decision var high low) := by
  refine of_stopped (.decision var high low) (.decision var high low)
    fun {m later limit} sound fits stopped => ?_
  rcases decision_ends (m.within limit) var high low with ⟨fault, refused⟩ | plain | ⟨_, made⟩
  · cases refused.symm.trans stopped
    exact ⟨m, sound, fits, rfl⟩
  · cases plain.symm.trans stopped
  · cases made.symm.trans stopped

/-- A computation that stops is not remembered. -/
theorem memo_stopped {key : ComputedKey} {body : ManagerM Ref} (orderly : Orderly body)
    {m later : Manager} {limit : Nat} (sound : m.Sound) (fits : m.nodeCount ≤ limit)
    (stopped : memo key body (m.within limit) = .error .storageFull later) :
    ∃ n : Manager, n.Sound ∧ n.nodeCount ≤ limit ∧ later = n.within limit := by
  cases found : (m.within limit).computed.entries[key]? with
  | some ref => cases (memo_of_some found body).symm.trans stopped
  | none =>
      obtain ⟨n, soundN, fitsN, leaves⟩ := orderly _ limit (sound.counted key) fits
      cases run : body ((m.counted key).within limit) with
      | ok ref last => cases (memo_of_none found run).symm.trans stopped
      | error fault last =>
          cases (memo_of_error found run).symm.trans stopped
          exact ⟨n, soundN, fitsN, (left_of_error run).symm.trans leaves⟩

theorem apply (op : Connective) (p q : Ref) : Orderly (apply op p q) := by
  induction size : p.slot + q.slot using Nat.strongRecOn generalizing p q with
  | ind n ih =>
      refine of_stopped (Cappable.composed.apply op p q) (.apply op p q)
        fun {m later limit} sound fits stopped => ?_
      by_cases residentP : (m.within limit).Resident p
      case neg => cases (apply_of_foreign_left op q residentP).symm.trans stopped
      obtain ⟨a, holdsP⟩ := resident_iff.mp residentP
      by_cases residentQ : (m.within limit).Resident q
      case neg => cases (apply_of_foreign_right op holdsP residentQ).symm.trans stopped
      obtain ⟨b, holdsQ⟩ := resident_iff.mp residentQ
      cases split : Node.topVar? a b with
      | none =>
          obtain ⟨⟨x, rfl⟩, ⟨y, rfl⟩⟩ := Node.leaves_of_topVar? split
          cases (apply_of_leaves op holdsP holdsQ).symm.trans stopped
      | some var =>
          have smaller (value : Bool) := size ▸ Node.cofactors_slot_lt
            (sound.proper.below holdsP) (sound.proper.below holdsQ) split value
          rw [apply_of_split op holdsP holdsQ split] at stopped
          have branches := bind (ih _ (smaller true) _ _ rfl) fun high =>
            bind (ih _ (smaller false) _ _ rfl) fun low => decision var high low
          exact memo_stopped branches sound fits stopped

theorem closed : Closed Orderly :=
  ⟨pure, bind, ask, decision, apply⟩

theorem restrict (f : Ref) (var : Nat) (value : Bool) : Orderly (restrict f var value) := by
  induction slot : f.slot using Nat.strongRecOn generalizing f with
  | ind n ih =>
      refine of_stopped (Cappable.composed.restrict f var value) (.restrict f var value)
        fun {m later limit} sound fits stopped => ?_
      by_cases zero : var = 0
      · subst zero
        cases (restrict_of_zero (m.within limit) f value).symm.trans stopped
      by_cases resident : (m.within limit).Resident f
      case neg => cases (restrict_of_foreign zero value resident).symm.trans stopped
      obtain ⟨node, holds⟩ := resident_iff.mp resident
      cases node with
      | leaf x => cases (restrict_of_leaf zero value holds).symm.trans stopped
      | decision top high low =>
          have below : (Node.decision top high low).Below ⟨n⟩ := slot ▸ sound.proper.below holds
          rw [restrict_of_decision zero value holds] at stopped
          split at stopped
          · cases stopped
          split at stopped
          · cases stopped
          have branches := bind (ih _ below.1 high rfl) fun onTrue =>
            bind (ih _ below.2 low rfl) fun onFalse => decision top onTrue onFalse
          exact memo_stopped branches sound fits stopped

theorem rename (copy : StateCopy) (f : Ref) : Orderly (rename copy f) := by
  induction slot : f.slot using Nat.strongRecOn generalizing f with
  | ind n ih =>
      refine of_stopped (Cappable.composed.rename copy f) (.rename copy f)
        fun {m later limit} sound fits stopped => ?_
      by_cases leaf : f.isLeaf
      · cases (rename_of_leaf (m.within limit) copy leaf).symm.trans stopped
      by_cases resident : m.Resident f
      case neg =>
        have missing : (m.within limit).computed.entries[ComputedKey.rename copy f]? = none :=
          sound.missing_rename copy resident
        have foreign : ¬ (m.within limit).Resident f := resident
        cases (rename_of_foreign copy leaf missing foreign).symm.trans stopped
      obtain ⟨node, holds⟩ := resident_iff.mp resident
      cases node with
      | leaf x => exact absurd (sound.proper.isLeaf holds) leaf
      | decision var high low =>
          have below : (Node.decision var high low).Below ⟨n⟩ := slot ▸ sound.proper.below holds
          have holdsWithin : (m.within limit).arena.Holds f (.decision var high low) := holds
          rw [rename_of_decision copy leaf holdsWithin] at stopped
          have branches := bind (ih _ below.1 high rfl) fun onTrue =>
            bind (ih _ below.2 low rfl) fun onFalse =>
              closed.choose (copy.rename var) onTrue onFalse
          exact memo_stopped branches sound fits stopped

theorem clearComputed : Orderly clearComputed :=
  fun _ _ sound fits => ⟨_, sound.cleared, fits, rfl⟩

end Orderly

end Manager

/-- All operations are orderly. -/
theorem Operation.orderly (op : Operation) : Orderly op.perform :=
  Orderly.closed.perform .restrict op (fun copy f _ => .rename copy f) fun _ => .clearComputed

namespace Manager

/-! ## Histories -/

theorem nodeCount_le_after (op : Operation) (m : Manager) : m.nodeCount ≤ (op.after m).nodeCount :=
  nodeCount_le_of_extends (op.after_eq_left m ▸ op.cappable.grows m)

theorem nodeCount_le_run (history : List Operation) (m : Manager) :
    m.nodeCount ≤ (Operation.run history m).2.nodeCount := by
  induction history generalizing m with
  | nil => exact Nat.le_refl _
  | cons op rest ih => exact Nat.le_trans (nodeCount_le_after op m) (ih (op.after m))

/-- With a limit an operation is the same, or it stops when all references are taken. -/
theorem operated_within {m : Manager} (unlimited : m.limit? = none) {limit : Nat}
    (fits : m.nodeCount ≤ limit) (op : Operation) :
    (op.outcome (m.within limit) = op.outcome m ∧
        op.after (m.within limit) = (op.after m).within limit ∧
        (op.after m).limit? = none ∧ (op.after m).nodeCount ≤ limit) ∨
      op.outcome (m.within limit) = .error .storageFull ∧
        (op.after (m.within limit)).nodeCount = limit ∧ limit < (op.after m).nodeCount := by
  cases op.cappable.capped unlimited fits with
  | ok run same unlimitedLater fitsLater =>
      rw [Operation.outcome, Operation.outcome, Operation.after, Operation.after, run, same]
      exact Or.inl ⟨rfl, rfl, unlimitedLater, fitsLater⟩
  | error run same unlimitedLater fitsLater =>
      rw [Operation.outcome, Operation.outcome, Operation.after, Operation.after, run, same]
      exact Or.inl ⟨rfl, rfl, unlimitedLater, fitsLater⟩
  | full more stopped taken =>
      rw [← Operation.after_eq_left] at more
      refine Or.inr ⟨?_, ?_, more⟩
      · rw [Operation.outcome, stopped]
      · rw [Operation.after, stopped]
        exact taken

/-- A history that needs no more nodes than there are references does not see the limit. -/
theorem run_within {m : Manager} (unlimited : m.limit? = none) {limit : Nat}
    (history : List Operation) (fits : (Operation.run history m).2.nodeCount ≤ limit) :
    Operation.run history (m.within limit) =
      ((Operation.run history m).1, (Operation.run history m).2.within limit) := by
  induction history generalizing m with
  | nil => rfl
  | cons op rest ih =>
      have fitsAfter : (op.after m).nodeCount ≤ limit := Nat.le_trans (nodeCount_le_run rest _) fits
      have fitsNow : m.nodeCount ≤ limit := Nat.le_trans (nodeCount_le_after op m) fitsAfter
      rcases operated_within unlimited fitsNow op with ⟨outcome, after, later, _⟩ | ⟨_, _, more⟩
      · rw [Operation.run, outcome, after, ih later fits]
        rfl
      · exact absurd fitsAfter (Nat.not_le_of_lt more)

theorem Reached.unlimited {m : Manager} (reached : m.Reached) : m.limit? = none :=
  reached.sound.unlimited

theorem Reached.within {m : Manager} (reached : m.Reached) {limit : Nat}
    (fits : m.nodeCount ≤ limit) : (m.within limit).ReachedWithin limit := by
  induction reached with
  | created created => exact .created created
  | @operated m reached op ih =>
      have fitsNow := Nat.le_trans (nodeCount_le_after op m) fits
      rcases operated_within reached.unlimited fitsNow op with ⟨_, after, _⟩ | ⟨_, _, more⟩
      · rw [← after]
        exact (ih fitsNow).operated op
      · exact absurd fits (Nat.not_le_of_lt more)

/-- With a limit, whatever has stopped before, what is reached is sound but for the limit. -/
theorem ReachedWithin.exists_sound {limit : Nat} (leaves : 2 ≤ limit) {m : Manager}
    (reached : m.ReachedWithin limit) :
    ∃ n : Manager, n.Sound ∧ n.nodeCount ≤ limit ∧ m = n.within limit := by
  induction reached with
  | @created config m created =>
      obtain ⟨_, _, rfl⟩ := create_eq_ok_iff.mp created
      exact ⟨_, sound_fresh _, leaves, rfl⟩
  | @operated m reached op ih =>
      obtain ⟨n, sound, fits, rfl⟩ := ih
      rw [Operation.after_eq_left]
      exact op.orderly n limit sound fits

end Manager

end DecisionDiagram
