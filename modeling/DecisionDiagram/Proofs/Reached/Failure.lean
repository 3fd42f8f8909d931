import DecisionDiagram.Proofs.Reached.Contracts
import DecisionDiagram.Proofs.Reached.Room

/-!
# What failed operations leave

An operation that violates its contract leaves the manager as it was, except that renaming counts
one look-up and that a fold keeps what its steps made before. So it does where references can run
out. But what needs a node when all references are taken stops there, and a connective has made
nodes by then that the manager keeps.
-/

namespace DecisionDiagram

namespace Manager

/-- What fails leaves the manager as it was, but for one look-up or the steps of a fold before. -/
theorem Sound.leaves_of_failure {m : Manager} (sound : m.Sound) {op : Operation}
    (supplied : op.Supplied) {fault : Fault} {later : Manager}
    (failed : op.perform m = .error fault later) : op.Leaves m fault later :=
  ((sound.guarded supplied).leaves_of_error failed).2

/-! ## Limits -/

theorem error_of_map {α β : Type} {x : ManagerM α} {f : α → β} {m later : Manager} {fault : Fault}
    (failed : (f <$> x) m = .error fault later) : x m = .error fault later := by
  rw [map_eq_pure_bind] at failed
  cases run : x m with
  | ok a middle => cases (bind_ok run).symm.trans failed
  | error other middle =>
      cases (bind_error run).symm.trans failed
      rfl

theorem MissedOnce.within {m later : Manager} (missed : m.MissedOnce later) (limit : Nat) :
    (m.within limit).MissedOnce (later.within limit) :=
  ⟨missed.table, missed.entries, missed.hits, missed.misses⟩

/-- A fold that is not stopped for want of a reference comes to the same step with a limit. -/
theorem Stops.within {α β : Type} {step : β → α → ManagerM β}
    (cappable : ∀ b a, Cappable (step b a)) {list : List α} {b : β} {m later : Manager}
    {fault : Fault} (stops : Stops step list b m fault later) (unlimited : m.limit? = none)
    {limit : Nat} (fits : m.nodeCount ≤ limit) (other : fault ≠ .storageFull)
    (failed : list.foldlM step b (m.within limit) = .error fault (later.within limit)) :
    Stops step list b (m.within limit) fault (later.within limit) := by
  obtain ⟨before, a, after, c, rfl, run, stopped⟩ := stops
  rw [List.foldlM_append] at failed
  have full {last : Manager} {x : ManagerM β}
      (ended : x (m.within limit) = .error .storageFull last)
      (failed : x (m.within limit) = .error fault (later.within limit)) : False := by
    cases ended.symm.trans failed
    exact other rfl
  cases (Cappable.composed.closed.foldlM cappable before b).capped unlimited fits with
  | ok runBefore same unlimitedLater fitsLater =>
      cases runBefore.symm.trans run
      refine ⟨before, a, after, c, rfl, same, ?_⟩
      cases (cappable c a).capped unlimitedLater fitsLater with
      | ok runStep => cases runStep.symm.trans stopped
      | error runStep sameStep =>
          cases runStep.symm.trans stopped
          exact sameStep
      | @full last _ ended =>
          have next : (a :: after).foldlM step c (later.within limit) = .error .storageFull last :=
            bind_error ended
          exact (full ((bind_ok same).trans next) failed).elim
  | error runBefore => cases runBefore.symm.trans run
  | full _ ended => exact (full (bind_error ended) failed).elim

/-- What a failed operation leaves is the same with a limit, if it does not fail for the limit. -/
theorem leaves_within {op : Operation} {m later : Manager} {fault : Fault}
    (leaves : op.Leaves m fault later) (unlimited : m.limit? = none) {limit : Nat}
    (fits : m.nodeCount ≤ limit) (other : fault ≠ .storageFull)
    (failed : op.perform (m.within limit) = .error fault (later.within limit)) :
    op.Leaves (m.within limit) fault (later.within limit) := by
  have restrict := Cappable.composed.restrict
  cases op with
  | rename copy f => exact leaves.within limit
  | conjAll diagrams =>
      exact leaves.within (Cappable.composed.apply .and) unlimited fits other (error_of_map failed)
  | disjAll diagrams =>
      exact leaves.within (Cappable.composed.apply .or) unlimited fits other (error_of_map failed)
  | existsVars f vars =>
      exact leaves.within (Cappable.composed.closed.quantify restrict .or) unlimited fits other
        (error_of_map failed)
  | _ => exact congrArg (within · limit) leaves

/--
What fails for another reason than the want of a reference leaves the manager as it was, but for one
look-up or the steps of a fold before.
-/
theorem ReachedWithin.leaves_of_fault {limit : Nat} (two_le : 2 ≤ limit) {m : Manager}
    (reached : m.ReachedWithin limit) {op : Operation} (supplied : op.Supplied) {fault : Fault}
    (failed : op.outcome m = .error fault) (other : fault ≠ .storageFull) :
    op.Leaves m fault (op.after m) := by
  obtain ⟨n, sound, fits, rfl⟩ := reached.exists_sound two_le
  have failed := outcome_eq_error_iff.mp failed
  cases op.cappable.capped sound.unlimited fits with
  | ok run same => cases same.symm.trans failed
  | error run same =>
      obtain ⟨rfl, after⟩ := EStateM.Result.error.inj (same.symm.trans failed)
      rw [← after] at failed ⊢
      exact leaves_within (sound.leaves_of_failure supplied run) sound.unlimited fits other failed
  | full more stopped =>
      obtain ⟨rfl, _⟩ := EStateM.Result.error.inj (stopped.symm.trans failed)
      exact absurd rfl other

def fault? : Except Fault Answer → Option Fault
  | .error fault => some fault
  | .ok _ => none

theorem eq_error_of_fault? {outcome : Except Fault Answer} {fault : Fault}
    (failed : fault? outcome = some fault) : outcome = .error fault := by
  cases outcome with
  | error other => cases failed; rfl
  | ok answer => cases failed

/-- The third diagram of this conjunction has no node; that of the first two is made. -/
def halfConjunction : Operation :=
  .conjAll [⟨2⟩, ⟨3⟩, ⟨9⟩]

def cramped : Manager :=
  twoLiterals.within 5

theorem leaves_of_fault_cramped :
    cramped.MissedOnce ((Operation.rename .next ⟨9⟩).after cramped) ∧
      Stops conj [⟨2⟩, ⟨3⟩, ⟨9⟩] Ref.trueLeaf cramped (.foreignRef ⟨9⟩)
        (halfConjunction.after cramped) ∧
      (halfConjunction.after cramped).nodeCount = 5 := by
  have reached : cramped.ReachedWithin 5 := reached_twoLiterals.within (by decide)
  have renamed : (Operation.rename .next ⟨9⟩).outcome cramped = .error (.foreignRef ⟨9⟩) :=
    eq_error_of_fault? (by decide +kernel)
  have stopped : halfConjunction.outcome cramped = .error (.foreignRef ⟨9⟩) :=
    eq_error_of_fault? (by decide +kernel)
  have possible : (Operation.rename .next ⟨9⟩).Supplied ∧ halfConjunction.Supplied :=
    ⟨trivial, trivial⟩
  exact ⟨ReachedWithin.leaves_of_fault (by decide) reached possible.1 renamed Fault.noConfusion,
    ReachedWithin.leaves_of_fault (by decide) reached possible.2 stopped Fault.noConfusion,
    by decide +kernel⟩

/-! ## Literals that take all references -/

/-- The managers that know the literals of the first variables. -/
def stacked : Nat → Manager
  | 0 => fresh 0
  | count + 1 => (Operation.literal (count + 1) true).after (stacked count)

theorem reached_stacked (count : Nat) : (stacked count).Reached := by
  induction count with
  | zero => exact reached_fresh (Nat.zero_le 31)
  | succ count ih => exact ih.operated _

end Manager

namespace Arena

def literals : Nat → Arena
  | 0 => #[.leaf false, .leaf true]
  | count + 1 => (literals count).push (.decision (count + 1) Ref.trueLeaf Ref.falseLeaf)

theorem size_literals (count : Nat) : (literals count).size = count + 2 := by
  induction count with
  | zero => rfl
  | succ count ih => rw [literals, Array.size_push, ih]

theorem holds_literals {count : Nat} {ref high low : Ref} {var : Nat} :
    (literals count).Holds ref (.decision var high low) ↔
      ∃ i, i < count ∧ ref = ⟨i + 2⟩ ∧
        Node.decision var high low = .decision (i + 1) Ref.trueLeaf Ref.falseLeaf := by
  induction count with
  | zero =>
      constructor
      · intro holds
        match ref with
        | ⟨0⟩ => cases holds
        | ⟨1⟩ => cases holds
        | ⟨_ + 2⟩ => cases holds
      · rintro ⟨i, lt, _⟩
        exact absurd lt (Nat.not_lt_zero i)
  | succ count ih =>
      rw [literals, holds_push, ih, size_literals]
      constructor
      · rintro (⟨rfl, same⟩ | ⟨i, lt, rfl, same⟩)
        · exact ⟨count, Nat.lt_succ_self count, rfl, same.symm⟩
        · exact ⟨i, Nat.lt_succ_of_lt lt, rfl, same⟩
      · rintro ⟨i, lt, rfl, same⟩
        rcases Nat.lt_succ_iff_lt_or_eq.mp lt with before | rfl
        · exact Or.inr ⟨i, before, rfl, same⟩
        · exact Or.inl ⟨rfl, same.symm⟩

end Arena

namespace Manager

theorem arena_stacked (count : Nat) : (stacked count).arena = Arena.literals count := by
  induction count with
  | zero => exact cells_leafTable 0
  | succ count ih =>
      obtain ⟨ref, later, run, _, made⟩ :=
        (reached_stacked count).sound.literal (Nat.succ_ne_zero count) true
      have performed : (Operation.literal (count + 1) true).perform (stacked count) =
          .ok (.ref ref) later := by
        rw [Operation.perform, map_eq_pure_bind, bind_ok run]
        rfl
      have missing (other : Ref) : ¬ (Arena.literals count).Holds other
          (.decision (count + 1) Ref.trueLeaf Ref.falseLeaf) := by
        intro holds
        obtain ⟨i, lt, _, same⟩ := Arena.holds_literals.mp holds
        cases same
        exact Nat.lt_irrefl _ lt
      have interned : (Arena.literals count).decision (count + 1) Ref.trueLeaf Ref.falseLeaf =
          (⟨(Arena.literals count).size⟩, Arena.literals (count + 1)) := by
        rw [Arena.decision, if_neg (by decide), Arena.intern_of_missing missing, Arena.literals]
      rw [ih] at made
      have pushed := Prod.mk.inj (interned.symm.trans made)
      rw [stacked, Operation.after, performed]
      exact pushed.2.symm

end Manager

namespace Arena

variable {arena : Arena}

/-- Between a leaf and a literal nothing is made but the decision. -/
theorem Proper.applies_literal (proper : arena.Proper) (op : Connective) (value : Bool)
    {q ref : Ref} {var : Nat} {later : Arena}
    (holds : arena.Holds q (.decision var Ref.trueLeaf Ref.falseLeaf))
    (made : arena.decision var (Ref.ofBool (op.eval value true))
      (Ref.ofBool (op.eval value false)) = (ref, later)) :
    arena.Applies op (Ref.ofBool value) q ref later := by
  have branch (side : Bool) : arena.Applies op
      ((Node.leaf value).cofactor var side (Ref.ofBool value))
      ((Node.decision var Ref.trueLeaf Ref.falseLeaf).cofactor var side q)
      (Ref.ofBool (op.eval value side)) arena := by
    rw [Node.cofactor, Node.cofactor, if_pos rfl]
    exact .leaves (proper.leaf value) (proper.leaf side)
  exact .split (proper.leaf value) holds rfl (branch true) (branch false) made

/-- The last cell is not a branch of a decision that was there before it. -/
theorem Proper.missing_of_size (proper : arena.Proper) {v w : Nat} {high low other : Ref}
    (ne : v ≠ w) (ref : Ref) :
    ¬ Holds (arena.push (.decision w high low)) ref (.decision v ⟨arena.size⟩ other) := by
  intro holds
  rcases holds_push.mp holds with ⟨_, same⟩ | before
  · exact ne (Node.decision.inj same).1.symm
  · have below : arena.size < ref.slot := (proper.below before).1
    exact Nat.lt_asymm below before.slot_lt

/-- The exclusive disjunction of two literals takes two cells if the second is not negated yet. -/
theorem Applies.size_of_xor (proper : arena.Proper) {p q ref : Ref} {v w : Nat} {later : Arena}
    (lt : v < w) (holdsP : arena.Holds p (.decision v Ref.trueLeaf Ref.falseLeaf))
    (holdsQ : arena.Holds q (.decision w Ref.trueLeaf Ref.falseLeaf))
    (missing : ∀ other, ¬ arena.Holds other (.decision w Ref.falseLeaf Ref.trueLeaf))
    (applies : arena.Applies .xor p q ref later) : later.size = arena.size + 2 := by
  have nonzero := (proper.orders holdsQ).var_ne_zero
  let negated : Arena := arena.push (.decision w Ref.falseLeaf Ref.trueLeaf)
  have properNegated : Proper negated :=
    proper.push (by decide) (proper.orders_leaves nonzero false true) missing
  have grown : arena.Extends negated := extends_push _ _
  have onTrue : arena.Applies .xor (Ref.ofBool true) q ⟨arena.size⟩ negated := by
    refine proper.applies_literal .xor true holdsQ ?_
    change arena.decision w Ref.falseLeaf Ref.trueLeaf = _
    rw [decision, if_neg (by decide), intern_of_missing missing]
  have onFalse : negated.Applies .xor (Ref.ofBool false) q q negated := by
    refine properNegated.applies_literal .xor false (grown _ _ holdsQ) ?_
    change negated.decision w Ref.trueLeaf Ref.falseLeaf = _
    rw [decision, if_neg (by decide), intern_of_holds properNegated (grown _ _ holdsQ)]
  -- The last decision is new because one of its branches is.
  have made : negated.decision v ⟨arena.size⟩ q =
      (⟨negated.size⟩, negated.push (.decision v ⟨arena.size⟩ q)) := by
    have ne : (⟨arena.size⟩ : Ref) ≠ q := by
      rintro rfl
      exact Nat.lt_irrefl _ holdsQ.slot_lt
    rw [decision, if_neg ne, intern_of_missing (proper.missing_of_size (Nat.ne_of_lt lt))]
  have split : Node.topVar? (.decision v Ref.trueLeaf Ref.falseLeaf)
      (.decision w Ref.trueLeaf Ref.falseLeaf) = some v := by
    rw [Node.topVar?, Nat.min_eq_left (Nat.le_of_lt lt)]
  have branch {start last : Arena} {side : Bool} {found : Ref}
      (applies : start.Applies .xor (Ref.ofBool side) q found last) :
      start.Applies .xor ((Node.decision v Ref.trueLeaf Ref.falseLeaf).cofactor v side p)
        ((Node.decision w Ref.trueLeaf Ref.falseLeaf).cofactor v side q) found last := by
    rw [Node.cofactor, Node.cofactor, if_pos rfl, if_neg (Nat.ne_of_lt lt)]
    exact applies
  have whole : arena.Applies .xor p q ⟨negated.size⟩
      (negated.push (.decision v ⟨arena.size⟩ q)) :=
    .split holdsP holdsQ split (branch onTrue) (branch onFalse) made
  obtain ⟨_, rfl⟩ := applies.unique whole
  rw [Array.size_push, Array.size_push]

end Arena

namespace Manager

def parity : Operation :=
  .apply .xor ⟨2⟩ ⟨3⟩

theorem nodeCount_stacked (count : Nat) : (stacked count).nodeCount = count + 2 :=
  (congrArg Array.size (arena_stacked count)).trans (Arena.size_literals count)

theorem nodeCount_parity {count : Nat} (two_le : 2 ≤ count) :
    (parity.after (stacked count)).nodeCount = count + 4 := by
  have sound := (reached_stacked count).sound
  have holds {i : Nat} (lt : i < count) : (stacked count).arena.Holds ⟨i + 2⟩
      (.decision (i + 1) Ref.trueLeaf Ref.falseLeaf) := by
    rw [arena_stacked]
    exact Arena.holds_literals.mpr ⟨i, lt, rfl, rfl⟩
  have missing (ref : Ref) :
      ¬ (stacked count).arena.Holds ref (.decision 2 Ref.falseLeaf Ref.trueLeaf) := by
    rw [arena_stacked]
    intro stored
    obtain ⟨_, _, _, same⟩ := Arena.holds_literals.mp stored
    cases same
  have first := holds (Nat.lt_of_lt_of_le Nat.zero_lt_two two_le)
  have second := holds (Nat.lt_of_lt_of_le Nat.one_lt_two two_le)
  obtain ⟨ref, later, run, _, applies⟩ := sound.apply .xor first second
  have performed : parity.perform (stacked count) = .ok (.ref ref) later := by
    rw [parity, Operation.perform, map_eq_pure_bind, bind_ok run]
    rfl
  have size := applies.size_of_xor sound.proper Nat.one_lt_two first second missing
  rw [Operation.after, performed]
  exact size.trans (congrArg (· + 2) (nodeCount_stacked count))

/-- The first new node takes the last reference, and the manager keeps it when the next has none. -/
theorem parity_stops {count limit : Nat} (two_le : 2 ≤ count) (last : count + 3 = limit) :
    ((stacked count).within limit).ReachedWithin limit ∧
      parity.outcome ((stacked count).within limit) = .error .storageFull ∧
      (parity.after ((stacked count).within limit)).nodeCount = count + 3 ∧
      ¬ parity.Leaves ((stacked count).within limit) .storageFull
        (parity.after ((stacked count).within limit)) := by
  have reached := reached_stacked count
  have before : ((stacked count).within limit).nodeCount = count + 2 := nodeCount_stacked count
  have fits : (stacked count).nodeCount ≤ limit := by
    rw [nodeCount_stacked, ← last]
    exact Nat.le_succ (count + 2)
  refine ⟨reached.within fits, ?_⟩
  rcases operated_within reached.unlimited fits parity with ⟨_, _, _, small⟩ | ⟨stopped, taken, _⟩
  · rw [nodeCount_parity two_le, ← last] at small
    exact absurd small (Nat.not_succ_le_self (count + 3))
  · refine ⟨stopped, taken.trans last.symm, fun leaves => ?_⟩
    have same : parity.after ((stacked count).within limit) = (stacked count).within limit := leaves
    rw [same, before, ← last] at taken
    exact Nat.succ_ne_self (count + 2) taken.symm

/-- A manager with one reference to spare. -/
def brimming : Manager :=
  (stacked (UniqueTable.maxSize - 3)).within UniqueTable.maxSize

theorem parity_stops_brimming :
    brimming.ReachedWithin UniqueTable.maxSize ∧
      parity.outcome brimming = .error .storageFull ∧
      (parity.after brimming).nodeCount = UniqueTable.maxSize ∧
      ¬ parity.Leaves brimming .storageFull (parity.after brimming) := by
  have last : UniqueTable.maxSize - 3 + 3 = UniqueTable.maxSize := Nat.sub_add_cancel (by decide)
  have stops := parity_stops (by decide : 2 ≤ UniqueTable.maxSize - 3) last
  rwa [last] at stops

end Manager

end DecisionDiagram
