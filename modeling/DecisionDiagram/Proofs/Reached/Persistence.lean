import DecisionDiagram.Proofs.Manager.Answers
import DecisionDiagram.Proofs.Reached.Coincidence
import DecisionDiagram.Proofs.Reached.Exchange

/-!
# Old references keep their meaning

The arena only grows, so whatever is done with a manager, a reference that has a node keeps the node
and all that lies below it. From then on every question about the reference is answered as before.
Questions themselves leave the whole manager as it is.
-/

namespace DecisionDiagram

namespace Manager

/-! ## What later managers keep -/

/-- The reference has the same node in both managers, and stands for the same diagram. -/
structure Keeps (m later : Manager) (ref : Ref) : Prop where
  node : later.table.get? ref = m.table.get? ref
  function : ∃ φ, m.Represents ref φ ∧ later.Represents ref φ
  support : ∃ vars, m.support ref = .ok vars ∧ later.support ref = .ok vars
  copies : ∀ first second, ∃ d firstLeft e secondLeft, m.Detaches ref first d firstLeft ∧
    later.Detaches ref second e secondLeft ∧ d.equals e = true ∧ d.topology = e.topology

/-- Below a stored node, a larger arena shows the same nodes. -/
theorem Agree.of_extends {m later : Manager} (grown : m.arena.Extends later.arena) {f : Ref}
    (inside : m.Resident f) : Agree m later f := by
  apply of_nodes
  intro ref le
  obtain ⟨node, holds⟩ := resident_iff.mp (Nat.lt_of_le_of_lt le inside : m.Resident ref)
  rw [node_of_holds holds, node_of_holds (grown ref node holds)]

theorem Sound.keeps {m later : Manager} (sound : m.Sound) (soundLater : later.Sound)
    (grown : m.arena.Extends later.arena) {ref : Ref} (inside : m.Resident ref) :
    Keeps m later ref := by
  obtain ⟨node, holds⟩ := resident_iff.mp inside
  obtain ⟨φ, represents⟩ := sound.exists_represents inside
  have represented := represents.extend sound grown
  obtain ⟨vars, listed, _⟩ := support_of_holds sound.proper holds
  refine ⟨(get?_of_holds (grown ref node holds)).trans (get?_of_holds holds).symm,
    ⟨φ, represents, represented⟩,
    ⟨vars, listed, (Agree.of_extends grown inside).support.symm.trans listed⟩, ?_⟩
  intro first second
  obtain ⟨d, firstLeft, _, detaches, _, _, _, canonicalD⟩ := sound.detaches represents (.nil first)
  obtain ⟨e, secondLeft, _, detachesLater, _, _, _, canonicalE⟩ :=
    soundLater.detaches represented (.nil second)
  have same := (canonicalD.tree.eq_iff canonicalE.tree).mpr fun _ => rfl
  exact ⟨d, firstLeft, e, secondLeft, detaches, detachesLater,
    Detached.equalsFrom_of_tree_eq same ∅, canonicalD.topology_eq canonicalE fun _ => rfl⟩

/-! ## Questions -/

/-- The program leaves every manager as it is, also when it fails. -/
def Idle {α : Type} (x : ManagerM α) : Prop :=
  ∀ m, (∃ a, x m = .ok a m) ∨ ∃ fault, x m = .error fault m

namespace Idle

variable {α β : Type}

theorem pure (a : α) : Idle (Pure.pure a) :=
  fun _ => Or.inl ⟨a, rfl⟩

theorem ask (question : Manager → Except Fault α) : Idle (ask question) := by
  intro m
  cases found : question m with
  | ok a => exact Or.inl ⟨a, ask_eq_ok found⟩
  | error fault => exact Or.inr ⟨fault, ask_eq_error found⟩

theorem bind {x : ManagerM α} {next : α → ManagerM β} (first : Idle x)
    (rest : ∀ a, Idle (next a)) : Idle (x >>= next) := by
  intro m
  rcases first m with ⟨a, run⟩ | ⟨fault, failed⟩
  · rw [bind_ok run]
    exact rest a m
  · exact Or.inr ⟨fault, bind_error failed⟩

theorem map {x : ManagerM α} (idle : Idle x) (f : α → β) : Idle (f <$> x) := by
  rw [map_eq_pure_bind]
  exact idle.bind fun a => pure (f a)

end Idle

end Manager

open Manager

namespace Operation

def Asks : Operation → Prop
  | detach _ _ | inspect _ | decisions _ | text _ | support _ | equals _ _ | cofactors _ _
  | evaluate _ _ | truthTable _ _ => True
  | _ => False

theorem idle_of_asks {op : Operation} (asks : op.Asks) : Idle op.perform := by
  cases op with
  | detach f supply => exact .ask _
  | inspect f => exact (Idle.ask _).bind fun _ => .pure _
  | decisions f => exact (Idle.ask _).map _
  | text f => exact (Idle.ask _).map _
  | support f => exact (Idle.ask _).map _
  | equals p q => exact (Idle.ask _).map _
  | cofactors f var => exact (Idle.ask _).bind fun _ => .pure _
  | evaluate f assignment => exact (Idle.ask _).map _
  | truthTable f vars => exact (Idle.ask _).map _
  | _ => exact asks.elim

theorem after_of_idle {op : Operation} (idle : Idle op.perform) (m : Manager) :
    op.after m = m := by
  unfold Operation.after
  rcases idle m with ⟨answer, run⟩ | ⟨fault, failed⟩
  · rw [run]
  · rw [failed]

end Operation

namespace Manager

/--
Whatever is done with a reached manager, and whether it fails or not, no node is lost, and every
reference with a node keeps it together with its function, its support and its structure outside.
Clearing changes nothing about nodes, and questions change nothing at all.
-/
theorem Reached.persists {m : Manager} (reached : m.Reached) :
    (∀ history : List Operation, m.nodeCount ≤ (Operation.run history m).2.nodeCount ∧
      ∀ ref, m.Resident ref → Keeps m (Operation.run history m).2 ref) ∧
      (Operation.clearComputed.after m).table = m.table ∧
      ∀ op : Operation, op.Asks → op.after m = m := by
  refine ⟨?_, rfl, fun op asks => Operation.after_of_idle (Operation.idle_of_asks asks) m⟩
  intro history
  obtain ⟨soundLater, grown⟩ := Operation.run_kept reached.sound history
  exact ⟨nodeCount_le_of_extends grown,
    fun ref inside => reached.sound.keeps soundLater grown inside⟩

/-- Operations that make nodes, the last of them before it fails, with the results forgotten. -/
def forgottenNodes : List Operation :=
  [.apply .xor ⟨2⟩ ⟨3⟩, .clearComputed, .conjAll [⟨2⟩, ⟨3⟩, ⟨9⟩]]

theorem persists_twoLiterals :
    twoLiterals.Resident ⟨3⟩ ∧ Keeps twoLiterals (Operation.run forgottenNodes twoLiterals).2 ⟨3⟩ ∧
      (Operation.run forgottenNodes twoLiterals).2.nodeCount = 7 ∧
      (Operation.equals ⟨2⟩ ⟨9⟩).after twoLiterals = twoLiterals := by
  have inside : twoLiterals.Resident ⟨3⟩ := by decide
  obtain ⟨kept, _, asked⟩ := reached_twoLiterals.persists
  exact ⟨inside, (kept forgottenNodes).2 ⟨3⟩ inside, by decide +kernel,
    asked (.equals ⟨2⟩ ⟨9⟩) trivial⟩

end Manager

end DecisionDiagram
