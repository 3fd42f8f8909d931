import DecisionDiagram.Manager.Apply
import DecisionDiagram.Proofs.Arena.Basic

/-!
# Runs of manager operations

What one run of each memoised operation does first, by the nodes of its operands.
All three remember results in the same way, which is `memo`; equations reduce
them to it.
-/

namespace DecisionDiagram.Manager

def arena (m : Manager) : Arena :=
  m.table.cells

/-! ## Sequences -/

theorem bind_ok {σ α β : Type} {x : EStateM Fault σ α} {next : α → EStateM Fault σ β}
    {m later : σ} {a : α} (run : x m = .ok a later) : (x >>= next) m = next a later := by
  change EStateM.bind x next m = _
  rw [EStateM.bind, run]

theorem bind_error {α β : Type} {x : ManagerM α} {next : α → ManagerM β} {m later : Manager}
    {fault : Fault} (run : x m = .error fault later) : (x >>= next) m = .error fault later := by
  change EStateM.bind x next m = _
  rw [EStateM.bind, run]

theorem bind_eq_ok_iff {α β : Type} {x : ManagerM α} {next : α → ManagerM β} {m last : Manager}
    {b : β} :
    (x >>= next) m = .ok b last ↔ ∃ a later, x m = .ok a later ∧ next a later = .ok b last := by
  constructor
  · intro done
    cases run : x m with
    | ok a later => exact ⟨a, later, rfl, (bind_ok run).symm.trans done⟩
    | error fault later => cases (bind_error run).symm.trans done
  · rintro ⟨a, later, run, done⟩
    exact (bind_ok run).trans done

theorem pure_eq_ok_iff {α : Type} {a b : α} {m last : Manager} :
    (pure a : ManagerM α) m = .ok b last ↔ a = b ∧ m = last := by
  change EStateM.Result.ok a m = .ok b last ↔ _
  rw [EStateM.Result.ok.injEq]

/-- The manager that a program leaves, whether it succeeds or fails. -/
def left {α : Type} (x : ManagerM α) (m : Manager) : Manager :=
  match x m with
  | .ok _ later => later
  | .error _ later => later

theorem left_of_ok {α : Type} {x : ManagerM α} {m later : Manager} {a : α}
    (run : x m = .ok a later) : left x m = later := by
  rw [left, run]

theorem left_of_error {α : Type} {x : ManagerM α} {m later : Manager} {fault : Fault}
    (failed : x m = .error fault later) : left x m = later := by
  rw [left, failed]

theorem left_bind {α β : Type} {x : ManagerM α} {m later : Manager} {a : α}
    (run : x m = .ok a later) (next : α → ManagerM β) :
    left (x >>= next) m = left (next a) later := by
  rw [left, bind_ok run, left]

/-! ## Reading nodes -/

theorem resident_iff {m : Manager} {ref : Ref} :
    m.Resident ref ↔ ∃ node, m.arena.Holds ref node :=
  ⟨Arena.exists_holds, fun ⟨_, holds⟩ => holds.slot_lt⟩

theorem nodeCount_le_of_extends {m later : Manager} (grown : m.arena.Extends later.arena) :
    m.nodeCount ≤ later.nodeCount := by
  refine Nat.le_of_not_lt fun shrunk => ?_
  have inside : m.Resident ⟨later.nodeCount⟩ := shrunk
  obtain ⟨node, holds⟩ := resident_iff.mp inside
  exact Nat.lt_irrefl _ (grown _ node holds).slot_lt

theorem get?_of_holds {m : Manager} {ref : Ref} {node : Node} (holds : m.arena.Holds ref node) :
    m.table.get? ref = some node := holds

theorem node_of_holds {m : Manager} {ref : Ref} {node : Node} (holds : m.arena.Holds ref node) :
    m.node ref = .ok ⟨node, m.branches_below ref node (get?_of_holds holds)⟩ := by
  unfold Manager.node
  split
  next other stored =>
    cases stored.symm.trans holds
    rfl
  next stored => cases stored.symm.trans holds

theorem node_of_foreign {m : Manager} {ref : Ref} (foreign : ¬ m.Resident ref) :
    m.node ref = .error (.foreignRef ref) := by
  unfold Manager.node
  split
  next stored => exact absurd (resident_of_get? stored) foreign
  next => rfl

theorem ask_eq_ok {α : Type} {question : Manager → Except Fault α} {m : Manager} {answer : α}
    (found : question m = .ok answer) : ask question m = .ok answer m := by
  rw [ask, found]

theorem ask_eq_error {α : Type} {question : Manager → Except Fault α} {m : Manager}
    {fault : Fault} (failed : question m = .error fault) :
    ask question m = .error fault m := by
  rw [ask, failed]

theorem fetch_of_holds {m : Manager} {ref : Ref} {node : Node} (holds : m.arena.Holds ref node) :
    fetch ref m = .ok ⟨node, m.branches_below ref node (get?_of_holds holds)⟩ m :=
  ask_eq_ok (node_of_holds holds)

theorem fetch_of_foreign {m : Manager} {ref : Ref} (foreign : ¬ m.Resident ref) :
    fetch ref m = .error (.foreignRef ref) m :=
  ask_eq_error (node_of_foreign foreign)

/-! ## The computed table -/

def counted (m : Manager) (key : ComputedKey) : Manager :=
  { m with computed := (m.computed.lookup key).2 }

def learned (m : Manager) (key : ComputedKey) (ref : Ref) : Manager :=
  { m with computed := m.computed.insert key ref }

theorem remembered_eq (m : Manager) (key : ComputedKey) :
    remembered key m = .ok m.computed.entries[key]? (m.counted key) := by
  rw [← ComputedTable.lookup_fst]
  rfl

theorem remember_eq (m : Manager) (key : ComputedKey) (ref : Ref) :
    remember key ref m = .ok () (m.learned key ref) := rfl

/-- The result remembered for a key, or else that of a computation, which is then remembered. -/
def memo (key : ComputedKey) (body : ManagerM Ref) : ManagerM Ref := do
  match ← remembered key with
  | some result => return result
  | none =>
      let result ← body
      remember key result
      return result

theorem memo_of_some {m : Manager} {key : ComputedKey} {ref : Ref}
    (found : m.computed.entries[key]? = some ref) (body : ManagerM Ref) :
    memo key body m = .ok ref (m.counted key) := by
  rw [memo, bind_ok (remembered_eq m key), found]
  rfl

theorem memo_of_none {m : Manager} {key : ComputedKey}
    (missing : m.computed.entries[key]? = none) {body : ManagerM Ref} {later : Manager} {ref : Ref}
    (run : body (m.counted key) = .ok ref later) :
    memo key body m = .ok ref (later.learned key ref) := by
  rw [memo, bind_ok (remembered_eq m key), missing]
  change (body >>= _) (m.counted key) = _
  rw [bind_ok run, bind_ok (remember_eq later key ref)]
  rfl

theorem memo_of_error {m : Manager} {key : ComputedKey}
    (missing : m.computed.entries[key]? = none) {body : ManagerM Ref} {later : Manager}
    {fault : Fault} (failed : body (m.counted key) = .error fault later) :
    memo key body m = .error fault later := by
  rw [memo, bind_ok (remembered_eq m key), missing]
  exact bind_error failed

/-! ## Equations -/

theorem decision_of_zero (m : Manager) (high low : Ref) :
    decision 0 high low m = .error .zeroVariable m := by
  rw [decision, if_pos rfl]

theorem decision_of_eq (m : Manager) {var : Nat} (ne : var ≠ 0) (f : Ref) :
    decision var f f m = .ok f m := by
  rw [decision, if_neg ne, if_pos rfl]

theorem decision_of_foreign_high {m : Manager} {var : Nat} {high low : Ref} (nonzero : var ≠ 0)
    (ne : high ≠ low) (foreign : ¬ m.Resident high) :
    decision var high low m = .error (.foreignRef high) m := by
  unfold decision
  rw [if_neg nonzero, if_neg ne]
  split
  next => rfl
  next stored _ => exact absurd (resident_of_get? stored) foreign
  next stored _ => exact absurd (resident_of_get? stored) foreign

theorem decision_of_foreign_low {m : Manager} {var : Nat} {high low : Ref} {a : Node}
    (nonzero : var ≠ 0) (ne : high ≠ low) (holdsHigh : m.arena.Holds high a)
    (foreign : ¬ m.Resident low) : decision var high low m = .error (.foreignRef low) m := by
  unfold decision
  rw [if_neg nonzero, if_neg ne]
  split
  next stored => cases stored.symm.trans holdsHigh
  next => rfl
  next stored => exact absurd (resident_of_get? stored) foreign

theorem decision_of_disordered {m : Manager} {var : Nat} {high low : Ref} {a b : Node}
    (nonzero : var ≠ 0) (ne : high ≠ low) (holdsHigh : m.arena.Holds high a)
    (holdsLow : m.arena.Holds low b) (disordered : ¬ (a.admits var && b.admits var)) :
    decision var high low m = .error (.misordered var a.var b.var) m := by
  unfold decision
  rw [if_neg nonzero, if_neg ne]
  split
  next stored => cases stored.symm.trans holdsHigh
  next stored => cases stored.symm.trans holdsLow
  next storedHigh storedLow =>
    cases storedHigh.symm.trans holdsHigh
    cases storedLow.symm.trans holdsLow
    rw [if_neg disordered]

theorem apply_of_leaves {m : Manager} (op : Connective) {p q : Ref} {x y : Bool}
    (holdsP : m.arena.Holds p (.leaf x)) (holdsQ : m.arena.Holds q (.leaf y)) :
    apply op p q m = .ok (Ref.ofBool (op.eval x y)) m := by
  rw [apply, bind_ok (fetch_of_holds holdsP)]
  dsimp only
  rw [bind_ok (fetch_of_holds holdsQ)]
  rfl

theorem apply_of_split {m : Manager} (op : Connective) {p q : Ref} {a b : Node} {var : Nat}
    (holdsP : m.arena.Holds p a) (holdsQ : m.arena.Holds q b)
    (split : Node.topVar? a b = some var) :
    apply op p q m = memo (.ofApply op p q) (do
      let high ← apply op (a.cofactor var true p) (b.cofactor var true q)
      let low ← apply op (a.cofactor var false p) (b.cofactor var false q)
      decision var high low) m := by
  rw [apply, bind_ok (fetch_of_holds holdsP)]
  dsimp only
  rw [bind_ok (fetch_of_holds holdsQ)]
  refine congrFun ?_ m
  dsimp only
  split
  next leaves => cases leaves.symm.trans split
  next other top =>
    cases top.symm.trans split
    simp only [memo, bind_assoc]
    rfl

theorem apply_of_foreign_left {m : Manager} (op : Connective) {p : Ref} (q : Ref)
    (foreign : ¬ m.Resident p) : apply op p q m = .error (.foreignRef p) m := by
  rw [apply, bind_error (fetch_of_foreign foreign)]

theorem apply_of_foreign_right {m : Manager} (op : Connective) {p q : Ref} {a : Node}
    (holdsP : m.arena.Holds p a) (foreign : ¬ m.Resident q) :
    apply op p q m = .error (.foreignRef q) m := by
  rw [apply, bind_ok (fetch_of_holds holdsP)]
  exact bind_error (fetch_of_foreign foreign)

theorem restrict_of_zero (m : Manager) (f : Ref) (value : Bool) :
    restrict f 0 value m = .error .zeroVariable m := by
  rw [restrict]
  rfl

theorem restrict_of_foreign {m : Manager} {f : Ref} {var : Nat} (ne : var ≠ 0) (value : Bool)
    (foreign : ¬ m.Resident f) : restrict f var value m = .error (.foreignRef f) m := by
  rw [restrict, if_neg ne]
  exact bind_error (fetch_of_foreign foreign)

theorem restrict_of_leaf {m : Manager} {f : Ref} {var : Nat} (ne : var ≠ 0) (value : Bool)
    {x : Bool} (holds : m.arena.Holds f (.leaf x)) : restrict f var value m = .ok f m := by
  rw [restrict, if_neg ne]
  change (fetch f >>= _) m = _
  rw [bind_ok (fetch_of_holds holds)]
  rfl

theorem restrict_of_decision {m : Manager} {f high low : Ref} {var top : Nat} (ne : var ≠ 0)
    (value : Bool) (holds : m.arena.Holds f (.decision top high low)) :
    restrict f var value m =
      if var < top then .ok f m
      else if var = top then .ok (if value then high else low) m
      else memo (.restrict f var value) (do
        let onTrue ← restrict high var value
        let onFalse ← restrict low var value
        decision top onTrue onFalse) m := by
  rw [restrict, if_neg ne]
  change (fetch f >>= _) m = _
  rw [bind_ok (fetch_of_holds holds)]
  dsimp only
  split
  · rfl
  · split
    · rfl
    · rw [memo]
      rw [bind_ok (remembered_eq m _), bind_ok (remembered_eq m _)]
      cases m.computed.entries[ComputedKey.restrict f var value]? with
      | some result => rfl
      | none => simp only [bind_assoc]

theorem choose_of_eq (m : Manager) (var : Nat) (f : Ref) :
    choose var f f m = decision var f f m := by
  rw [choose, if_pos rfl]

theorem choose_of_ordered {m : Manager} {var : Nat} {high low : Ref} {a b : Node}
    (ne : high ≠ low) (holdsHigh : m.arena.Holds high a) (holdsLow : m.arena.Holds low b)
    (ordered : a.admits var && b.admits var) :
    choose var high low m = decision var high low m := by
  rw [choose, if_neg ne, bind_ok (fetch_of_holds holdsHigh), bind_ok (fetch_of_holds holdsLow),
    if_pos ordered]

theorem choose_of_disordered {m : Manager} {var : Nat} {high low : Ref} {a b : Node}
    (ne : high ≠ low) (holdsHigh : m.arena.Holds high a) (holdsLow : m.arena.Holds low b)
    (disordered : ¬ (a.admits var && b.admits var)) :
    choose var high low m = (do
      let x ← literal var true
      let onTrue ← conj x high
      let notX ← neg x
      let onFalse ← conj notX low
      disj onTrue onFalse) m := by
  rw [choose, if_neg ne, bind_ok (fetch_of_holds holdsHigh), bind_ok (fetch_of_holds holdsLow),
    if_neg disordered]

/-- Choice is a plain decision where that is in order. -/
theorem choose_of_orders {m : Manager} {var : Nat} {high low : Ref}
    (orders : m.arena.Orders var high low) :
    choose var high low m = decision var high low m := by
  by_cases same : high = low
  · subst same
    exact choose_of_eq m var high
  · obtain ⟨_, ⟨a, holdsHigh, admitsHigh⟩, ⟨b, holdsLow, admitsLow⟩⟩ := orders
    have ordered := Bool.and_eq_true_iff.mpr ⟨admitsHigh, admitsLow⟩
    exact choose_of_ordered same holdsHigh holdsLow ordered

theorem rename_of_leaf (m : Manager) (copy : StateCopy) {f : Ref} (leaf : f.isLeaf) :
    rename copy f m = .ok f m := by
  rw [rename, if_pos leaf]
  rfl

theorem rename_of_decision {m : Manager} (copy : StateCopy) {f high low : Ref} {var : Nat}
    (inner : ¬ f.isLeaf) (holds : m.arena.Holds f (.decision var high low)) :
    rename copy f m = memo (.rename copy f) (do
      let onTrue ← rename copy high
      let onFalse ← rename copy low
      choose (copy.rename var) onTrue onFalse) m := by
  rw [rename, if_neg inner, memo]
  rw [bind_ok (remembered_eq m _), bind_ok (remembered_eq m _)]
  cases m.computed.entries[ComputedKey.rename copy f]? with
  | some result => rfl
  | none =>
      have kept : (m.counted (.rename copy f)).arena.Holds f (.decision var high low) := holds
      change (fetch f >>= _) _ = _
      rw [bind_ok (fetch_of_holds kept)]
      simp only [bind_assoc]

theorem rename_of_foreign {m : Manager} (copy : StateCopy) {f : Ref} (inner : ¬ f.isLeaf)
    (missing : m.computed.entries[ComputedKey.rename copy f]? = none)
    (foreign : ¬ m.Resident f) :
    rename copy f m = .error (.foreignRef f) (m.counted (.rename copy f)) := by
  rw [rename, if_neg inner]
  rw [bind_ok (remembered_eq m _), missing]
  exact bind_error (fetch_of_foreign foreign)

end DecisionDiagram.Manager
