import DecisionDiagram.Proofs.Manager.Closed
import DecisionDiagram.Proofs.Manager.Sound
import DecisionDiagram.Proofs.Nesting

/-!
# Programs that keep the nodes

No part of an operation takes a node away, on whatever manager it runs. So what was once known about
the node of a reference is known all along.
-/

namespace DecisionDiagram.Manager

/-- Run on a manager with the nodes of the arena, the program keeps them and answers so. -/
def Keeping (arena : Arena) {α : Type} (x : ManagerM α) (post : α → Prop) : Prop :=
  ∀ m a later, arena.Extends m.arena → x m = .ok a later → arena.Extends later.arena ∧ post a

namespace Keeping

variable {arena : Arena}

instance lasting : Lasting (Keeping arena) where
  pure met := by
    rintro m _ _ kept run
    cases run
    exact ⟨kept, met⟩
  bind {α β x next post goal} first rest := by
    intro m b last kept run
    cases runFirst : x m with
    | ok a middle =>
        rw [bind_ok runFirst] at run
        obtain ⟨keptMiddle, met⟩ := first m a middle kept runFirst
        exact rest a met middle b last keptMiddle run
    | error fault middle =>
        rw [bind_error runFirst] at run
        cases run

theorem ask {α : Type} (question : Manager → Except Fault α) :
    Keeping arena (ask question) fun _ => True := by
  intro m a later kept run
  cases answered : question m with
  | ok answer =>
      cases (ask_eq_ok answered).symm.trans run
      exact ⟨kept, trivial⟩
  | error fault => cases (ask_eq_error answered).symm.trans run

theorem fetch {f : Ref} {node : Node} (holds : arena.Holds f node) :
    Keeping arena (fetch f) fun found => ∃ below, found = ⟨node, below⟩ := by
  intro m a later kept run
  cases (fetch_of_holds (kept f node holds)).symm.trans run
  exact ⟨kept, _, rfl⟩

theorem remembered (key : ComputedKey) : Keeping arena (remembered key) fun _ => True := by
  intro m a later kept run
  cases (remembered_eq m key).symm.trans run
  exact ⟨kept, trivial⟩

theorem remember (key : ComputedKey) (ref : Ref) :
    Keeping arena (remember key ref) fun _ => True := by
  intro m a later kept run
  cases (remember_eq m key ref).symm.trans run
  exact ⟨kept, trivial⟩

theorem decision (var : Nat) (high low : Ref) :
    Keeping arena (decision var high low) fun _ => True := by
  intro m a later kept run
  refine ⟨kept.trans ?_, trivial⟩
  rcases decision_ends m var high low with ⟨fault, refused⟩ | plain | ⟨inside, made⟩
  · cases refused.symm.trans run
  · cases plain.symm.trans run
    exact .refl _
  · cases made.symm.trans run
    rw [Manager.arena, Manager.arena, table_intern]
    rcases m.table.cells_put (.decision var high low) with same | ⟨_, pushed⟩
    · rw [same]
      exact .refl _
    · rw [pushed]
      exact Arena.extends_push _ _

theorem composed : Composed fun x => Keeping arena x fun _ => True where
  pure _ := lasting.pure trivial
  bind first rest := lasting.bind first fun a _ => rest a
  ask _ := ask _
  remembered := remembered
  remember := remember
  decision := decision

theorem apply (op : Connective) (p q : Ref) : Keeping arena (apply op p q) fun _ => True :=
  composed.apply op p q

theorem choose (var : Nat) (high low : Ref) :
    Keeping arena (choose var high low) fun _ => True :=
  composed.closed.choose var high low

end Keeping

/-! ## Programs that make no nodes -/

def Answering {α : Type} (x : Except Fault α) (post : α → Prop) : Prop :=
  ∀ a, x = .ok a → post a

instance : Lasting Answering where
  pure met := by
    rintro _ ⟨⟩
    exact met
  bind {α β x next post goal} first rest := by
    intro b run
    cases x with
    | ok a => exact rest a (first a rfl) b run
    | error fault => cases run

def Drawing {α : Type} (x : ExceptT Fault Stamping α) (post : α → Prop) : Prop :=
  ∀ supply a later, x.run.run supply = (.ok a, later) → post a

instance : Lasting Drawing where
  pure met := by
    rintro supply _ _ ⟨⟩
    exact met
  bind {α β x next post goal} first rest := by
    intro supply b last run
    rw [ExceptT.run_bind, StateT.run_bind] at run
    cases runFirst : x.run.run supply with
    | mk result middle =>
        rw [runFirst] at run
        cases result with
        | ok a => exact rest a (first supply a middle runFirst) middle b last run
        | error fault => cases run

theorem Drawing.any {α : Type} (x : ExceptT Fault Stamping α) : Drawing x fun _ => True :=
  fun _ _ _ _ => trivial

theorem Drawing.found {α σ : Type} (a : α) :
    Passing Drawing
      (liftExcept (.ok a : Except Fault α) : StateT σ (ExceptT Fault Stamping) α) (· = a) := by
  rintro noted supply _ _ ⟨⟩
  rfl

end DecisionDiagram.Manager
