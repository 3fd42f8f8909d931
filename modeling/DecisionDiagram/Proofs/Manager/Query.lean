import DecisionDiagram.Manager.Detach
import DecisionDiagram.Manager.Query
import DecisionDiagram.Proofs.Arena.Unfolding
import DecisionDiagram.Proofs.Manager.Run

/-!
# Queries

A query reads nodes only: two managers that show the same nodes up to the one in
question answer it alike. The value of a diagram is that of the function it
denotes in the arena.
-/

namespace DecisionDiagram.Manager

/-! ## Values -/

theorem evaluate_of_denotes {m : Manager} {f : Ref} {φ : (Nat → Bool) → Bool}
    (denotes : m.arena.Denotes f φ) (a : Nat → Bool) : m.evaluate f a = .ok (φ a) := by
  obtain ⟨tree, unfolds, value⟩ := denotes
  rw [← value]
  clear value
  induction unfolds with
  | leaf holds =>
      rw [evaluate, node_of_holds holds]
      rfl
  | node holds _ _ ihTrue ihFalse =>
      rw [evaluate, node_of_holds holds, Tree.evaluate]
      change (if _ then _ else _) = _
      rw [ihTrue, ihFalse]
      split <;> rfl

/-! ## Agreement -/

theorem liftExcept_pure {α : Type} {μ : Type → Type} [Monad μ] [MonadExceptOf Fault μ] (a : α) :
    (liftExcept (pure a : Except Fault α) : μ α) = pure a := rfl

theorem lift_error_bind {σ α β : Type} (fault : Fault) (next : α → StateT σ (Except Fault) β) :
    (liftM (Except.error fault : Except Fault α) : StateT σ (Except Fault) α) >>= next =
      throw fault := rfl

theorem liftExcept_error_bind {α β : Type} (fault : Fault)
    (next : α → StateT Copied (ExceptT Fault Stamping) β) :
    (liftExcept (Except.error fault : Except Fault α) : StateT Copied (ExceptT Fault Stamping) α)
      >>= next = throw fault := rfl

/-- From the reference on, the two managers show the same nodes. -/
inductive Agree (m n : Manager) : Ref → Prop where
  | foreign {f : Ref} {fault : Fault} (first : m.node f = .error fault)
      (second : n.node f = .error fault) : Agree m n f
  | leaf {f : Ref} {value : Bool} {below : (Node.leaf value).Below f}
      (first : m.node f = pure ⟨.leaf value, below⟩)
      (second : n.node f = pure ⟨.leaf value, below⟩) : Agree m n f
  | decision {f high low : Ref} {var : Nat} {below : (Node.decision var high low).Below f}
      (first : m.node f = pure ⟨.decision var high low, below⟩)
      (second : n.node f = pure ⟨.decision var high low, below⟩)
      (onTrue : Agree m n high) (onFalse : Agree m n low) : Agree m n f

namespace Agree

variable {m n : Manager} {f : Ref}

theorem of_nodes (same : ∀ ref : Ref, ref.slot ≤ f.slot → m.node ref = n.node ref) :
    Agree m n f := by
  induction slot : f.slot using Nat.strongRecOn generalizing f with
  | ind k ih =>
      have first := same f (Nat.le_refl _)
      cases shown : n.node f with
      | error fault => exact .foreign (first.trans shown) shown
      | ok found =>
          obtain ⟨node, below⟩ := found
          cases node with
          | leaf value => exact .leaf (first.trans shown) shown
          | decision var high low =>
              have inner {child : Ref} (lt : child.slot < f.slot) : Agree m n child := by
                refine ih child.slot (slot ▸ lt) (fun ref le => same ref ?_) rfl
                exact Nat.le_trans le (Nat.le_of_lt lt)
              exact .decision (first.trans shown) shown (inner below.1) (inner below.2)

theorem of_arena (same : m.arena = n.arena) (f : Ref) : Agree m n f := by
  apply of_nodes
  intro ref _
  by_cases resident : m.Resident ref
  · obtain ⟨node, holds⟩ := resident_iff.mp resident
    have other : n.arena.Holds ref node := same ▸ holds
    rw [node_of_holds holds, node_of_holds other]
  · have foreign : ¬ n.Resident ref := by
      rw [resident_iff, ← same, ← resident_iff]
      exact resident
    rw [node_of_foreign resident, node_of_foreign foreign]

theorem node (agree : Agree m n f) : m.node f = n.node f := by
  cases agree with
  | foreign first second => exact first.trans second.symm
  | leaf first second => exact first.trans second.symm
  | decision first second _ _ => exact first.trans second.symm

theorem evaluate (agree : Agree m n f) (a : Nat → Bool) : m.evaluate f a = n.evaluate f a := by
  induction agree with
  | foreign first second =>
      rw [Manager.evaluate, Manager.evaluate, first, second]
      rfl
  | leaf first second =>
      rw [Manager.evaluate, Manager.evaluate, first, second]
      rfl
  | decision first second _ _ ihHigh ihLow =>
      rw [Manager.evaluate, Manager.evaluate, first, second]
      simp only [pure_bind, ihHigh, ihLow]

theorem text (agree : Agree m n f) : m.text f = n.text f := by
  induction agree with
  | foreign first second =>
      rw [Manager.text, Manager.text, first, second]
      rfl
  | leaf first second =>
      rw [Manager.text, Manager.text, first, second]
      rfl
  | decision first second _ _ ihHigh ihLow =>
      rw [Manager.text, Manager.text, first, second]
      simp only [pure_bind, ihHigh, ihLow]

theorem meetFrom (agree : Agree m n f) : m.meetFrom f = n.meetFrom f := by
  induction agree with
  | foreign first second =>
      rw [Manager.meetFrom, Manager.meetFrom, first, second, lift_error_bind, lift_error_bind]
  | leaf first second =>
      rw [Manager.meetFrom, Manager.meetFrom, first, second]
      simp only [liftM_pure, pure_bind]
  | decision first second _ _ ihHigh ihLow =>
      rw [Manager.meetFrom, Manager.meetFrom, first, second]
      simp only [liftM_pure, pure_bind, ihHigh, ihLow]

theorem detachFrom (agree : Agree m n f) : m.detachFrom f = n.detachFrom f := by
  induction agree with
  | foreign first second =>
      rw [Manager.detachFrom, Manager.detachFrom, first, second]
      simp only [liftExcept_error_bind]
  | leaf first second =>
      rw [Manager.detachFrom, Manager.detachFrom, first, second]
      simp only [liftExcept_pure, pure_bind]
  | decision first second _ _ ihHigh ihLow =>
      rw [Manager.detachFrom, Manager.detachFrom, first, second]
      simp only [liftExcept_pure, pure_bind, ihHigh, ihLow]

theorem equalsFrom {p q : Ref} (agreeP : Agree m n p) (agreeQ : Agree m n q) :
    m.equalsFrom p q = n.equalsFrom p q := by
  induction agreeP generalizing q with
  | foreign first second =>
      rw [Manager.equalsFrom, Manager.equalsFrom, first, second]
      simp only [lift_error_bind]
  | leaf first second =>
      rw [Manager.equalsFrom, Manager.equalsFrom, first, second]
      cases agreeQ with
      | foreign firstQ secondQ =>
          rw [firstQ, secondQ]
          simp only [liftM_pure, pure_bind, lift_error_bind]
      | leaf firstQ secondQ =>
          rw [firstQ, secondQ]
          simp only [liftM_pure, pure_bind]
      | decision firstQ secondQ _ _ =>
          rw [firstQ, secondQ]
          simp only [liftM_pure, pure_bind]
  | decision first second _ _ ihHigh ihLow =>
      rw [Manager.equalsFrom, Manager.equalsFrom, first, second]
      cases agreeQ with
      | foreign firstQ secondQ =>
          rw [firstQ, secondQ]
          simp only [liftM_pure, pure_bind, lift_error_bind]
      | leaf firstQ secondQ =>
          rw [firstQ, secondQ]
          simp only [liftM_pure, pure_bind]
      | decision firstQ secondQ highQ lowQ =>
          rw [firstQ, secondQ]
          simp only [liftM_pure, pure_bind, ihHigh highQ, ihLow lowQ]

/-! ## Whole queries -/

theorem truthTable (agree : Agree m n f) (vars : List Nat) :
    m.truthTable f vars = n.truthTable f vars := by
  unfold Manager.truthTable
  simp only [agree.evaluate]

theorem cofactors (agree : Agree m n f) (var : Nat) : m.cofactors f var = n.cofactors f var := by
  rw [Manager.cofactors, Manager.cofactors, agree.node]

theorem decisions (agree : Agree m n f) : m.decisions f = n.decisions f := by
  rw [Manager.decisions, Manager.decisions, agree.meetFrom]

theorem support (agree : Agree m n f) : m.support f = n.support f := by
  rw [Manager.support, Manager.support, agree.decisions]

theorem equals {p q : Ref} (agreeP : Agree m n p) (agreeQ : Agree m n q) :
    m.equals p q = n.equals p q := by
  rw [Manager.equals, Manager.equals, agreeP.equalsFrom agreeQ]

theorem detach (agree : Agree m n f) : m.detach f = n.detach f := by
  rw [Manager.detach, Manager.detach, agree.detachFrom]

end Agree

end DecisionDiagram.Manager
