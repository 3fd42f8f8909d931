import DecisionDiagram.Proofs.Manager.Detach
import DecisionDiagram.Proofs.Manager.Support
import DecisionDiagram.Proofs.Reached.Arena

/-!
# Queries are answered

A query about a reference without a node fails with the reference as its cause. About a stored
reference every query is answered: all references that it comes to on its way are branches of stored
decisions, and so they are stored, too. Making the nodes of a stored diagram anew finds them all.
-/

namespace DecisionDiagram.Manager

/-! ## Questions about foreign references -/

section Foreign

variable {m : Manager} {f : Ref} (foreign : ¬ m.Resident f)
include foreign

theorem evaluate_of_foreign (a : Nat → Bool) : m.evaluate f a = .error (.foreignRef f) := by
  rw [evaluate, node_of_foreign foreign]
  rfl

theorem text_of_foreign : m.text f = .error (.foreignRef f) := by
  rw [text, node_of_foreign foreign]
  rfl

theorem decisions_of_foreign : m.decisions f = .error (.foreignRef f) := by
  rw [decisions, meetFrom, node_of_foreign foreign]
  rfl

theorem support_of_foreign : m.support f = .error (.foreignRef f) := by
  rw [support, decisions_of_foreign foreign]
  rfl

theorem cofactors_of_foreign {var : Nat} (ne : var ≠ 0) :
    m.cofactors f var = .error (.foreignRef f) := by
  rw [cofactors, if_neg ne, node_of_foreign foreign]
  rfl

theorem detach_of_foreign (supply : Supply) :
    (m.detach f).run.run supply = (.error (.foreignRef f), supply) := by
  rw [detach, detachFrom, node_of_foreign foreign]
  rfl

theorem rebuild_of_foreign : rebuild f m = .error (.foreignRef f) m := by
  change (Prod.fst <$> (rebuildFrom f).run ∅) m = _
  rw [map_eq_pure_bind]
  refine bind_error ?_
  rw [rebuildFrom]
  change (((fetch f >>= fun node => pure (node, ∅)) >>= _ : ManagerM (Ref × Rebuilt))) m = _
  exact bind_error (bind_error (fetch_of_foreign foreign))

theorem truthTable_of_foreign (vars : List Nat) :
    m.truthTable f vars = .error (.foreignRef f) := by
  have positive : 0 < 1 <<< vars.length := by
    rw [Nat.shiftLeft_eq, Nat.one_mul]
    exact Nat.two_pow_pos vars.length
  obtain ⟨last, rows⟩ := Nat.exists_eq_succ_of_ne_zero (Nat.ne_of_gt positive)
  rw [truthTable, rows, List.range_succ_eq_map, List.mapM_cons, evaluate_of_foreign foreign]
  rfl

theorem equals_of_foreign_left {q : Ref} (ne : f ≠ q) :
    m.equals f q = .error (.foreignRef f) := by
  rw [equals, equalsFrom, if_neg ne, node_of_foreign foreign]
  rfl

theorem equals_of_foreign_right {p : Ref} {node : Node} (holds : m.arena.Holds p node)
    (ne : p ≠ f) : m.equals p f = .error (.foreignRef f) := by
  rw [equals, equalsFrom, if_neg ne, node_of_holds holds, node_of_foreign foreign]
  rfl

end Foreign

/-! ## Questions about stored references -/

section Stored

variable {m : Manager} {f : Ref}

theorem text_of_unfolds {tree : Tree} (unfolds : m.arena.Unfolds f tree) :
    ∃ text, m.text f = .ok text := by
  induction unfolds with
  | leaf holds =>
      rw [text, node_of_holds holds]
      exact ⟨_, rfl⟩
  | node holds _ _ ihTrue ihFalse =>
      obtain ⟨onTrue, foundTrue⟩ := ihTrue
      obtain ⟨onFalse, foundFalse⟩ := ihFalse
      have shown : m.node _ = pure _ := node_of_holds holds
      rw [text, shown]
      simp only [pure_bind, foundTrue, foundFalse]
      exact ⟨_, rfl⟩

theorem decisions_of_holds (proper : m.arena.Proper) {node : Node}
    (holds : m.arena.Holds f node) : ∃ nodes, m.decisions f = .ok nodes := by
  obtain ⟨met, run, _⟩ := meets proper holds ∅
  rw [decisions, run]
  exact ⟨_, rfl⟩

theorem cofactors_of_holds {node : Node} (holds : m.arena.Holds f node) {var : Nat} (ne : var ≠ 0)
    (first : ∀ top high low, node = .decision top high low → var ≤ top) :
    m.cofactors f var = .ok (node.cofactor var true f, node.cofactor var false f) := by
  rw [cofactors, if_neg ne, node_of_holds holds]
  cases node with
  | leaf value => rfl
  | decision top high low =>
      rcases Nat.lt_or_eq_of_le (first top high low rfl) with before | same
      · change (if var < top then _ else _) = _
        simp only [if_pos before, Node.cofactor, if_neg (Nat.ne_of_lt before)]
        rfl
      · change (if var < top then _ else if var = top then _ else _) = _
        simp only [if_neg (Nat.not_lt_of_ge (Nat.le_of_eq same.symm)), if_pos same, Node.cofactor]
        rfl

theorem cofactors_of_zero (m : Manager) (f : Ref) : m.cofactors f 0 = .error .zeroVariable := by
  rw [cofactors]
  rfl

theorem cofactors_of_below {top var : Nat} {high low : Ref}
    (holds : m.arena.Holds f (.decision top high low)) (lt : top < var) :
    m.cofactors f var = .error (.belowTop var top) := by
  rw [cofactors, if_neg (Nat.ne_zero_of_lt lt), node_of_holds holds]
  change (if var < top then _ else if var = top then _ else _) = _
  rw [if_neg (Nat.lt_asymm lt), if_neg (Nat.ne_of_gt lt)]
  rfl

theorem equals_self (m : Manager) (p : Ref) : m.equals p p = .ok true := by
  rw [equals, equalsFrom, if_pos rfl]
  rfl

theorem mapM_ok {α β : Type} {ask : α → Except Fault β} {list : List α}
    (answers : ∀ a ∈ list, ∃ b, ask a = .ok b) : ∃ bs, list.mapM ask = .ok bs := by
  induction list with
  | nil => exact ⟨[], rfl⟩
  | cons a rest ih =>
      obtain ⟨b, first⟩ := answers a List.mem_cons_self
      obtain ⟨bs, others⟩ := ih fun other inside => answers other (List.mem_cons_of_mem a inside)
      refine ⟨b :: bs, ?_⟩
      rw [List.mapM_cons, first, others]
      rfl

theorem truthTable_of_denotes {φ : (Nat → Bool) → Bool} (denotes : m.arena.Denotes f φ)
    (vars : List Nat) : ∃ values, m.truthTable f vars = .ok values :=
  mapM_ok fun row _ => ⟨φ (rowAssignment vars row), evaluate_of_denotes denotes _⟩

end Stored

/-! ## Making a diagram anew -/

section Rebuilding

variable {m : Manager} {f : Ref}

/-- A pass that fetches a node goes on with the node. -/
theorem run_fetch_bind {σ α : Type} {node : Node} (holds : m.arena.Holds f node)
    (next : { node : Node // node.Below f } → StateT σ ManagerM α) (noted : σ) :
    (liftM (fetch f) >>= next : StateT σ ManagerM α).run noted m =
      (next ⟨node, m.branches_below f node (get?_of_holds holds)⟩).run noted m := by
  rw [StateT.run_bind, StateT.run_monadLift, bind_assoc]
  exact bind_ok (fetch_of_holds holds)

theorem rebuildFrom_of_leaf {value : Bool} (holds : m.arena.Holds f (.leaf value))
    (rebuilt : Rebuilt) : (rebuildFrom f).run rebuilt m = .ok (f, rebuilt) m := by
  rw [rebuildFrom, run_fetch_bind holds]
  rfl

theorem rebuildFrom_of_some {var : Nat} {high low result : Ref}
    (holds : m.arena.Holds f (.decision var high low)) {rebuilt : Rebuilt}
    (found : rebuilt[f.slot]? = some result) :
    (rebuildFrom f).run rebuilt m = .ok (result, rebuilt) m := by
  rw [rebuildFrom, run_fetch_bind holds]
  simp only [StateT.run_bind, StateT.run_get, pure_bind, found]
  rfl

theorem rebuildFrom_of_none {var : Nat} {high low : Ref}
    (holds : m.arena.Holds f (.decision var high low)) {rebuilt : Rebuilt}
    (missing : rebuilt[f.slot]? = none) :
    (rebuildFrom f).run rebuilt m = (do
      let first ← (rebuildFrom high).run rebuilt
      let second ← (rebuildFrom low).run first.2
      let result ← decision var first.1 second.1
      pure (result, second.2.insert f.slot result) : ManagerM (Ref × Rebuilt)) m := by
  rw [rebuildFrom, run_fetch_bind holds]
  simp only [StateT.run_bind, StateT.run_get, StateT.run_monadLift, StateT.run_modify,
    StateT.run_pure, bind_assoc, pure_bind, missing]
  rfl

def Unchanged (rebuilt : Rebuilt) : Prop :=
  ∀ (slot : Nat) (ref : Ref), rebuilt[slot]? = some ref → ref = ⟨slot⟩

theorem Unchanged.insert {rebuilt : Rebuilt} (unchanged : Unchanged rebuilt) (f : Ref) :
    Unchanged (rebuilt.insert f.slot f) := by
  intro slot ref stored
  rcases Detached.of_getElem?_insert stored with ⟨rfl, rfl⟩ | old
  · rfl
  · exact unchanged slot ref old

theorem rebuildFrom_of_holds (sound : m.Sound) {node : Node} (holds : m.arena.Holds f node)
    {rebuilt : Rebuilt} (unchanged : Unchanged rebuilt) :
    ∃ later, (rebuildFrom f).run rebuilt m = .ok (f, later) m ∧ Unchanged later := by
  induction slot : f.slot using Nat.strongRecOn generalizing f node rebuilt with
  | ind n ih =>
      cases node with
      | leaf value => exact ⟨rebuilt, rebuildFrom_of_leaf holds rebuilt, unchanged⟩
      | decision var high low =>
          cases stored : rebuilt[f.slot]? with
          | some result =>
              obtain rfl : result = f := unchanged f.slot result stored
              exact ⟨rebuilt, rebuildFrom_of_some holds stored, unchanged⟩
          | none =>
              have below : (Node.decision var high low).Below ⟨n⟩ := slot ▸ sound.proper.below holds
              obtain ⟨_, ⟨_, holdsHigh, _⟩, ⟨_, holdsLow, _⟩⟩ := sound.proper.orders holds
              obtain ⟨first, runHigh, unchangedHigh⟩ := ih _ below.1 holdsHigh unchanged rfl
              obtain ⟨second, runLow, unchangedLow⟩ := ih _ below.2 holdsLow unchangedHigh rfl
              refine ⟨second.insert f.slot f, ?_, unchangedLow.insert f⟩
              rw [rebuildFrom_of_none holds stored, bind_ok runHigh, bind_ok runLow,
                bind_ok (decision_of_holds sound holds)]
              rfl

/-- A diagram that is made anew is the diagram itself, and nothing changes. -/
theorem rebuild_of_holds (sound : m.Sound) {node : Node} (holds : m.arena.Holds f node) :
    rebuild f m = .ok f m := by
  have none : Unchanged ∅ := fun slot ref stored => by simp at stored
  obtain ⟨later, run, _⟩ := rebuildFrom_of_holds sound holds none
  change (Prod.fst <$> (rebuildFrom f).run ∅) m = _
  rw [map_eq_pure_bind, bind_ok run]
  rfl

end Rebuilding

end DecisionDiagram.Manager
