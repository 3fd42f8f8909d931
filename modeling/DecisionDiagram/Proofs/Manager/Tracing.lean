import DecisionDiagram.Manager.Apply
import DecisionDiagram.Manager.Detach
import DecisionDiagram.Manager.Query
import DecisionDiagram.Proofs.Nesting

/-!
# Recursions that trace their calls

The recursive operations of a manager, with every call of theirs to themselves traced by its
operands. But for the traced chains they are the operations, and the first chain that each of them
lists is its own call.
-/

namespace DecisionDiagram.Manager

/-! ## Operations that make nodes -/

def applyTracing (op : Connective) (p q : Ref) : Tracing (Ref × Ref) ManagerM Ref :=
  calling (p, q) do
    let ⟨a, _⟩ ← fetch p
    let ⟨b, _⟩ ← fetch q
    match _ : Node.topVar? a b with
    | none => return Ref.ofBool (op.eval a.value b.value)
    | some var =>
        let key := ComputedKey.ofApply op p q
        match ← remembered key with
        | some result => return result
        | none =>
            let high ← applyTracing op (a.cofactor var true p) (b.cofactor var true q)
            let low ← applyTracing op (a.cofactor var false p) (b.cofactor var false q)
            let result ← decision var high low
            remember key result
            return result
termination_by p.slot + q.slot
decreasing_by
  · exact Node.cofactors_slot_lt ‹_› ‹_› ‹_› true
  · exact Node.cofactors_slot_lt ‹_› ‹_› ‹_› false

def restrictTracing (f : Ref) (var : Nat) (value : Bool) : Tracing Ref ManagerM Ref :=
  calling f do
    if var = 0 then
      throw .zeroVariable
    match ← fetch f with
    | ⟨.leaf _, _⟩ => return f
    | ⟨.decision top high low, _⟩ =>
        if var < top then
          return f
        else if var = top then
          return if value then high else low
        else
          let key := ComputedKey.restrict f var value
          match ← remembered key with
          | some result => return result
          | none =>
              let onTrue ← restrictTracing high var value
              let onFalse ← restrictTracing low var value
              let result ← decision top onTrue onFalse
              remember key result
              return result
termination_by f.slot
decreasing_by
  · exact Node.high_slot_lt ‹_›
  · exact Node.low_slot_lt ‹_›

def renameTracing (copy : StateCopy) (f : Ref) : Tracing Ref ManagerM Ref :=
  calling f do
    if f.isLeaf then
      return f
    let key := ComputedKey.rename copy f
    match ← remembered key with
    | some result => return result
    | none =>
        match ← fetch f with
        | ⟨.leaf _, _⟩ => return f
        | ⟨.decision var high low, _⟩ =>
            let onTrue ← renameTracing copy high
            let onFalse ← renameTracing copy low
            let result ← choose (copy.rename var) onTrue onFalse
            remember key result
            return result
termination_by f.slot
decreasing_by
  · exact Node.high_slot_lt ‹_›
  · exact Node.low_slot_lt ‹_›

def rebuildFromTracing (f : Ref) : Tracing Ref (StateT Rebuilt ManagerM) Ref :=
  calling f do
    match ← (fetch f : StateT Rebuilt ManagerM _) with
    | ⟨.leaf _, _⟩ => return f
    | ⟨.decision var high low, _⟩ =>
        match (← (get : StateT Rebuilt ManagerM Rebuilt))[f.slot]? with
        | some result => return result
        | none =>
            let onTrue ← rebuildFromTracing high
            let onFalse ← rebuildFromTracing low
            let result ← (decision var onTrue onFalse : StateT Rebuilt ManagerM Ref)
            (modify (·.insert f.slot result) : StateT Rebuilt ManagerM Unit)
            return result
termination_by f.slot
decreasing_by
  · exact Node.high_slot_lt ‹_›
  · exact Node.low_slot_lt ‹_›

def rebuildTracing (f : Ref) : Tracing Ref ManagerM Ref :=
  afresh ∅ (rebuildFromTracing f)

/-! ## Operations that make no nodes -/

def detachFromTracing (m : Manager) (f : Ref) :
    Tracing Ref (StateT Copied (ExceptT Fault Stamping)) Detached :=
  calling f do
    match (← (get : StateT Copied (ExceptT Fault Stamping) Copied))[f.slot]? with
    | some d => return d
    | none =>
        let d ←
          match ← (liftExcept (m.node f) : StateT Copied (ExceptT Fault Stamping) _) with
          | ⟨.leaf value, _⟩ => (Detached.newLeaf value : StateT Copied (ExceptT Fault Stamping) _)
          | ⟨.decision var high low, _⟩ =>
              let onTrue ← m.detachFromTracing high
              let onFalse ← m.detachFromTracing low
              (Detached.newNode var onTrue onFalse : StateT Copied (ExceptT Fault Stamping) _)
        (modify (·.insert f.slot d) : StateT Copied (ExceptT Fault Stamping) Unit)
        return d
termination_by f.slot
decreasing_by
  · exact Node.high_slot_lt ‹_›
  · exact Node.low_slot_lt ‹_›

def detachTracing (m : Manager) (f : Ref) : Tracing Ref (ExceptT Fault Stamping) Detached :=
  afresh ∅ (m.detachFromTracing f)

def evaluateTracing (m : Manager) (f : Ref) (assignment : Nat → Bool) :
    Tracing Ref (Except Fault) Bool :=
  calling f do
    match ← m.node f with
    | ⟨.leaf value, _⟩ => return value
    | ⟨.decision var high low, _⟩ =>
        if assignment var then m.evaluateTracing high assignment
        else m.evaluateTracing low assignment
termination_by f.slot
decreasing_by
  · exact Node.high_slot_lt ‹_›
  · exact Node.low_slot_lt ‹_›

/-! ## Without the chains -/

theorem erases_apply (op : Connective) (p q : Ref) :
    Erases (applyTracing op p q) (apply op p q) := by
  induction size : p.slot + q.slot using Nat.strongRecOn generalizing p q with
  | ind n ih =>
      rw [applyTracing, apply]
      refine .calling _ (.bind (.lift _) fun ⟨a, belowP⟩ => .bind (.lift _) fun ⟨b, belowQ⟩ => ?_)
      have smaller {var : Nat} (split : Node.topVar? a b = some var) :=
        Node.cofactors_slot_lt belowP belowQ split
      dsimp only
      cases split : Node.topVar? a b with
      | none => exact .pure _
      | some var =>
          refine .bind (.lift _) fun found => ?_
          cases found with
          | some result => exact .pure result
          | none =>
              exact .combine (ih _ (size ▸ smaller split true) _ _ rfl)
                (ih _ (size ▸ smaller split false) _ _ rfl)

theorem erases_restrict (f : Ref) (var : Nat) (value : Bool) :
    Erases (restrictTracing f var value) (restrict f var value) := by
  induction slot : f.slot using Nat.strongRecOn generalizing f with
  | ind n ih =>
      rw [restrictTracing, restrict]
      refine .calling _ ?_
      by_cases zero : var = 0
      · rw [if_pos zero, if_pos zero]
        -- A run that fails leaves no list.
        exact fun chains => rfl
      · rw [if_neg zero, if_neg zero]
        refine .bind (.lift _) ?_
        rintro ⟨node, below⟩
        cases node with
        | leaf x => exact .pure f
        | decision top high low =>
            dsimp only
            split
            · exact .pure f
            split
            · exact .pure _
            refine .bind (.lift _) fun found => ?_
            cases found with
            | some result => exact .pure result
            | none =>
                exact .combine (ih _ (slot ▸ below.1) high rfl) (ih _ (slot ▸ below.2) low rfl)

theorem erases_rename (copy : StateCopy) (f : Ref) :
    Erases (renameTracing copy f) (rename copy f) := by
  induction slot : f.slot using Nat.strongRecOn generalizing f with
  | ind n ih =>
      rw [renameTracing, rename]
      refine .calling _ ?_
      by_cases leaf : f.isLeaf
      · rw [if_pos leaf, if_pos leaf]
        exact .pure f
      · rw [if_neg leaf, if_neg leaf]
        refine .bind (.lift _) fun found => ?_
        cases found with
        | some result => exact .pure result
        | none =>
            refine .bind (.lift _) ?_
            rintro ⟨node, below⟩
            cases node with
            | leaf value => exact .pure f
            | decision var high low =>
                exact .combine (ih _ (slot ▸ below.1) high rfl) (ih _ (slot ▸ below.2) low rfl)

theorem erases_rebuildFrom (f : Ref) : Erases (rebuildFromTracing f) (rebuildFrom f) := by
  induction slot : f.slot using Nat.strongRecOn generalizing f with
  | ind n ih =>
      rw [rebuildFromTracing, rebuildFrom]
      refine .calling _ (.bind (.lift _) ?_)
      rintro ⟨node, below⟩
      cases node with
      | leaf value => exact .pure f
      | decision var high low =>
          refine .bind (.lift _) fun noted => ?_
          cases noted[f.slot]? with
          | some result => exact .pure result
          | none =>
              exact .combine (ih _ (slot ▸ below.1) high rfl) (ih _ (slot ▸ below.2) low rfl)

theorem erases_rebuild (f : Ref) : Erases (rebuildTracing f) (rebuild f) :=
  (erases_rebuildFrom f).afresh ∅

theorem erases_detachFrom (m : Manager) (f : Ref) :
    Erases (m.detachFromTracing f) (m.detachFrom f) := by
  induction slot : f.slot using Nat.strongRecOn generalizing f with
  | ind n ih =>
      rw [detachFromTracing, detachFrom]
      refine .calling _ (.bind (.lift _) fun copied => ?_)
      cases copied[f.slot]? with
      | some d => exact .pure d
      | none =>
          refine .bind (.lift _) ?_
          rintro ⟨node, below⟩
          cases node with
          | leaf value => exact .bind (.lift _) fun d => .bind (.lift _) fun _ => .pure d
          | decision var high low =>
              exact .combine (ih _ (slot ▸ below.1) high rfl) (ih _ (slot ▸ below.2) low rfl)

theorem erases_detach (m : Manager) (f : Ref) : Erases (m.detachTracing f) (m.detach f) :=
  (erases_detachFrom m f).afresh ∅

theorem erases_evaluate (m : Manager) (f : Ref) (assignment : Nat → Bool) :
    Erases (m.evaluateTracing f assignment) (m.evaluate f assignment) := by
  induction slot : f.slot using Nat.strongRecOn generalizing f with
  | ind n ih =>
      rw [evaluateTracing, evaluate]
      refine .calling _ (.bind (.lift _) ?_)
      rintro ⟨node, below⟩
      cases node with
      | leaf value => exact .pure value
      | decision var high low =>
          dsimp only
          split
          · exact ih _ (slot ▸ below.1) high rfl
          · exact ih _ (slot ▸ below.2) low rfl

/-! ## The outermost calls -/

theorem opens_apply (op : Connective) (p q : Ref) : Opens (p, q) (applyTracing op p q) := by
  rw [applyTracing]
  exact .calling _ _

theorem opens_restrict (f : Ref) (var : Nat) (value : Bool) :
    Opens f (restrictTracing f var value) := by
  rw [restrictTracing]
  exact .calling _ _

theorem opens_rename (copy : StateCopy) (f : Ref) : Opens f (renameTracing copy f) := by
  rw [renameTracing]
  exact .calling _ _

theorem opens_rebuild (f : Ref) : Opens f (rebuildTracing f) := by
  rw [rebuildTracing, rebuildFromTracing]
  exact .afresh ∅ (.calling _ _)

theorem opens_detach (m : Manager) (f : Ref) : Opens f (m.detachTracing f) := by
  rw [detachTracing, detachFromTracing]
  exact .afresh ∅ (.calling _ _)

theorem opens_evaluate (m : Manager) (f : Ref) (assignment : Nat → Bool) :
    Opens f (m.evaluateTracing f assignment) := by
  rw [evaluateTracing]
  exact .calling _ _

end DecisionDiagram.Manager
