import DecisionDiagram.Operation
import DecisionDiagram.Proofs.Manager.Query

/-!
# What operations are made of

Operations are sequences of a few parts: questions about nodes, decisions, connectives, restrictions
and renamings, besides clearing. A property of programs is closed if the first three have it and
sequences keep it. A closed property of the other parts is one of all operations. Connectives,
restrictions and renamings are sequences, too, if uses of the computed table count as parts.
-/

namespace DecisionDiagram.Manager

/-- Questions about nodes, decisions and connectives have the property, and sequences keep it. -/
structure Closed (P : {α : Type} → ManagerM α → Prop) : Prop where
  pure {α : Type} (a : α) : P (Pure.pure a)
  bind {α β : Type} {x : ManagerM α} {next : α → ManagerM β} (first : P x)
    (rest : ∀ a, P (next a)) : P (x >>= next)
  ask {α : Type} {question : Manager → Except Fault α}
    (reads : ∀ {m n : Manager}, m.arena = n.arena → question m = question n) :
    P (Manager.ask question)
  decision (var : Nat) (high low : Ref) : P (Manager.decision var high low)
  apply (op : Connective) (p q : Ref) : P (Manager.apply op p q)

namespace Closed

variable {P : {α : Type} → ManagerM α → Prop} (closed : Closed P)
include closed

/-! ## Sequences -/

theorem map {α β : Type} {x : ManagerM α} (f : α → β) (part : P x) : P (f <$> x) := by
  rw [map_eq_pure_bind]
  exact closed.bind part fun a => closed.pure (f a)

theorem foldlM {α β : Type} {f : β → α → ManagerM β} (step : ∀ b a, P (f b a)) (list : List α)
    (b : β) : P (list.foldlM f b) := by
  induction list generalizing b with
  | nil => exact closed.pure b
  | cons a rest ih =>
      rw [List.foldlM_cons]
      exact closed.bind (step b a) ih

theorem fetch (ref : Ref) : P (fetch ref) :=
  closed.ask fun same => (Agree.of_arena same ref).node

theorem choose (var : Nat) (high low : Ref) : P (choose var high low) := by
  unfold Manager.choose
  split
  · exact closed.decision var high low
  · refine closed.bind (closed.fetch high) fun above => ?_
    refine closed.bind (closed.fetch low) fun below => ?_
    split
    · exact closed.decision var high low
    · exact closed.bind (closed.decision var _ _) fun x => closed.bind (closed.apply .and x high)
        fun onTrue => closed.bind (closed.apply .imply x _) fun notX =>
          closed.bind (closed.apply .and notX low) fun onFalse => closed.apply .or onTrue onFalse

theorem quantify (restrict : ∀ f var value, P (restrict f var value)) (op : Connective) (f : Ref)
    (var : Nat) : P (do
      let onTrue ← Manager.restrict f var true
      let onFalse ← Manager.restrict f var false
      Manager.apply op onTrue onFalse) :=
  closed.bind (restrict f var true) fun onTrue => closed.bind (restrict f var false)
    fun onFalse => closed.apply op onTrue onFalse

/-! ## Passes -/

def Pass (P : {α : Type} → ManagerM α → Prop) {σ α : Type} (x : StateT σ ManagerM α) : Prop :=
  ∀ noted, P (x.run noted)

section Pass

variable {σ α β : Type}

theorem pass_pure (a : α) : Pass P (Pure.pure a : StateT σ ManagerM α) :=
  fun noted => closed.pure (a, noted)

theorem pass_get : Pass P (MonadState.get : StateT σ ManagerM σ) :=
  fun noted => closed.pure (noted, noted)

theorem pass_modify (change : σ → σ) : Pass P (modify change : StateT σ ManagerM PUnit) :=
  fun noted => closed.pure (PUnit.unit, change noted)

theorem pass_lift {x : ManagerM α} (part : P x) : Pass P (liftM x : StateT σ ManagerM α) :=
  fun noted => closed.bind part fun a => closed.pure (a, noted)

theorem pass_bind {x : StateT σ ManagerM α} {next : α → StateT σ ManagerM β} (first : Pass P x)
    (rest : ∀ a, Pass P (next a)) : Pass P (x >>= next) :=
  fun noted => closed.bind (first noted) fun result => rest result.1 result.2

theorem run {x : StateT σ ManagerM α} (pass : Pass P x) (noted : σ) : P (x.run' noted) :=
  closed.map Prod.fst (pass noted)

end Pass

theorem rebuildFrom (f : Ref) : Pass P (rebuildFrom f) := by
  induction slot : f.slot using Nat.strongRecOn generalizing f with
  | ind n ih =>
      rw [Manager.rebuildFrom]
      refine closed.pass_bind (closed.pass_lift (closed.fetch f)) ?_
      rintro ⟨node, below⟩
      cases node with
      | leaf value => exact closed.pass_pure f
      | decision var high low =>
          refine closed.pass_bind closed.pass_get fun noted => ?_
          split
          · exact closed.pass_pure _
          · exact closed.pass_bind (ih _ (slot ▸ below.1) high rfl) fun onTrue =>
              closed.pass_bind (ih _ (slot ▸ below.2) low rfl) fun onFalse =>
                closed.pass_bind (closed.pass_lift (closed.decision var onTrue onFalse))
                  fun result => closed.pass_bind (closed.pass_modify _)
                    fun _ => closed.pass_pure result

theorem attachFrom (d : Detached) : Pass P (attachFrom d) := by
  induction d with
  | leaf stamp value => exact closed.pass_pure _
  | node stamp var high low ihHigh ihLow =>
      rw [Manager.attachFrom]
      refine closed.pass_bind closed.pass_get fun noted => ?_
      split
      · exact closed.pass_pure _
      · exact closed.pass_bind ihHigh fun onTrue => closed.pass_bind ihLow fun onFalse =>
          closed.pass_bind (closed.pass_lift (closed.choose var onTrue onFalse)) fun result =>
            closed.pass_bind (closed.pass_modify _) fun _ => closed.pass_pure result

/-! ## Operations -/

/-- A closed property of restrictions is one of all operations but renaming and clearing. -/
theorem perform (restrict : ∀ f var value, P (restrict f var value)) (op : Operation)
    (rename : ∀ copy f, op = .rename copy f → P (rename copy f))
    (clear : op = .clearComputed → P clearComputed) : P op.perform := by
  have conjFold := closed.foldlM (closed.apply .and)
  have disjFold := closed.foldlM (closed.apply .or)
  have existsVar := closed.quantify restrict .or
  cases op with
  | leaf value => exact closed.pure _
  | decision var high low => exact closed.map _ (closed.decision var high low)
  | literal var positive => exact closed.map _ (closed.decision var _ _)
  | apply op p q => exact closed.map _ (closed.apply op p q)
  | neg f => exact closed.map _ (closed.apply .imply f _)
  | conjAll diagrams => exact closed.map _ (conjFold diagrams _)
  | disjAll diagrams => exact closed.map _ (disjFold diagrams _)
  | restrict f var value => exact closed.map _ (restrict f var value)
  | existsVar f var => exact closed.map _ (existsVar f var)
  | forallVar f var => exact closed.map _ (closed.quantify restrict .and f var)
  | existsVars f vars => exact closed.map _ (closed.foldlM existsVar vars f)
  | rename copy f => exact closed.map _ (rename copy f rfl)
  | rebuild f => exact closed.map _ (closed.run (closed.rebuildFrom f) ∅)
  | attach d => exact closed.map _ (closed.run (closed.attachFrom d) ∅)
  | detach f supply =>
      refine closed.ask fun {m n} same => ?_
      rw [(Agree.of_arena same f).detach]
  | clearComputed => exact closed.bind (clear rfl) fun _ => closed.pure _
  | inspect f => exact closed.bind (closed.fetch f) fun _ => closed.pure _
  | decisions f => exact closed.map _ (closed.ask fun same => (Agree.of_arena same f).decisions)
  | text f => exact closed.map _ (closed.ask fun same => (Agree.of_arena same f).text)
  | support f => exact closed.map _ (closed.ask fun same => (Agree.of_arena same f).support)
  | equals p q =>
      refine closed.map _ (closed.ask fun same => ?_)
      exact (Agree.of_arena same p).equals (Agree.of_arena same q)
  | contains p q =>
      exact closed.map _ (closed.bind (closed.apply .imply q p) fun _ => closed.pure _)
  | intersects p q =>
      exact closed.map _ (closed.bind (closed.apply .and q p) fun _ => closed.pure _)
  | cofactors f var =>
      refine closed.bind (closed.ask fun same => ?_) fun _ => closed.pure _
      exact (Agree.of_arena same f).cofactors var
  | evaluate f assignment =>
      exact closed.map _ (closed.ask fun same => (Agree.of_arena same f).evaluate assignment)
  | truthTable f vars =>
      exact closed.map _ (closed.ask fun same => (Agree.of_arena same f).truthTable vars)

end Closed

/-! ## Memoised operations -/

/-- Questions, uses of the computed table and decisions have the property; sequences keep it. -/
structure Composed (P : {α : Type} → ManagerM α → Prop) : Prop where
  pure {α : Type} (a : α) : P (Pure.pure a)
  bind {α β : Type} {x : ManagerM α} {next : α → ManagerM β} (first : P x)
    (rest : ∀ a, P (next a)) : P (x >>= next)
  ask {α : Type} {question : Manager → Except Fault α}
    (reads : ∀ {m n : Manager}, m.arena = n.arena → question m = question n) :
    P (Manager.ask question)
  remembered (key : ComputedKey) : P (Manager.remembered key)
  remember (key : ComputedKey) (ref : Ref) : P (Manager.remember key ref)
  decision (var : Nat) (high low : Ref) : P (Manager.decision var high low)

namespace Composed

variable {P : {α : Type} → ManagerM α → Prop} (composed : Composed P)
include composed

theorem fetch (ref : Ref) : P (fetch ref) :=
  composed.ask fun same => (Agree.of_arena same ref).node

/-- What is remembered or else computed from two results, as all memoised operations do it. -/
theorem branch {key : ComputedKey} {first second : ManagerM Ref} {join : Ref → Ref → ManagerM Ref}
    (onTrue : P first) (onFalse : P second) (joined : ∀ high low, P (join high low)) :
    P (do
      let high ← first
      let low ← second
      let result ← join high low
      Manager.remember key result
      return result) :=
  composed.bind onTrue fun high => composed.bind onFalse fun low =>
    composed.bind (joined high low) fun result =>
      composed.bind (composed.remember key result) fun _ => composed.pure result

theorem apply (op : Connective) (p q : Ref) : P (apply op p q) := by
  induction size : p.slot + q.slot using Nat.strongRecOn generalizing p q with
  | ind n ih =>
      rw [Manager.apply]
      refine composed.bind (composed.fetch p) ?_
      rintro ⟨a, belowP⟩
      refine composed.bind (composed.fetch q) ?_
      rintro ⟨b, belowQ⟩
      dsimp only
      split
      · exact composed.pure _
      next var split =>
        have smaller := Node.cofactors_slot_lt belowP belowQ split
        refine composed.bind (composed.remembered _) fun result => ?_
        split
        · exact composed.pure _
        · exact composed.branch (ih _ (size ▸ smaller true) _ _ rfl)
            (ih _ (size ▸ smaller false) _ _ rfl) (composed.decision var)

theorem closed : Closed P :=
  ⟨composed.pure, composed.bind, composed.ask, composed.decision, composed.apply⟩

theorem restrict (f : Ref) (var : Nat) (value : Bool) : P (restrict f var value) := by
  induction slot : f.slot using Nat.strongRecOn generalizing f with
  | ind n ih =>
      rw [Manager.restrict]
      split
      · let refuse (_ : Manager) : Except Fault Ref := .error .zeroVariable
        have reads {m n : Manager} (_ : m.arena = n.arena) : refuse m = refuse n := rfl
        exact composed.ask reads
      refine composed.bind (composed.fetch f) ?_
      rintro ⟨node, below⟩
      cases node with
      | leaf value => exact composed.pure f
      | decision top high low =>
          dsimp only
          split
          · exact composed.pure f
          split
          · exact composed.pure _
          refine composed.bind (composed.remembered _) fun result => ?_
          split
          · exact composed.pure _
          · exact composed.branch (ih _ (slot ▸ below.1) high rfl) (ih _ (slot ▸ below.2) low rfl)
              (composed.decision top)

theorem rename (copy : StateCopy) (f : Ref) : P (rename copy f) := by
  induction slot : f.slot using Nat.strongRecOn generalizing f with
  | ind n ih =>
      rw [Manager.rename]
      split
      · exact composed.pure f
      refine composed.bind (composed.remembered _) fun result => ?_
      split
      · exact composed.pure _
      refine composed.bind (composed.fetch f) ?_
      rintro ⟨node, below⟩
      cases node with
      | leaf value => exact composed.pure f
      | decision var high low =>
          exact composed.branch (ih _ (slot ▸ below.1) high rfl) (ih _ (slot ▸ below.2) low rfl)
            (composed.closed.choose _)

/-- A composed property is one of all operations if clearing has it. -/
theorem perform (clear : P clearComputed) (op : Operation) : P op.perform :=
  composed.closed.perform composed.restrict op (fun copy f _ => composed.rename copy f)
    fun _ => clear

end Composed

end DecisionDiagram.Manager
