import DecisionDiagram.History
import DecisionDiagram.Proofs.Manager.Steady

/-!
# Histories keep managers sound

Every operation is steady. So all reached managers are sound, no node is ever
lost, and what a history brings does not depend on which of two twins it starts
with.
-/

namespace DecisionDiagram

open Manager

/-- No operation tells twins apart. -/
theorem Operation.steady (op : Operation) : Steady op.perform :=
  Steady.closed.perform .restrict op (fun copy f _ => .rename copy f) fun _ => .clearComputed

theorem Operation.after_eq_left (op : Operation) (m : Manager) :
    op.after m = left op.perform m := by
  unfold Operation.after left
  cases op.perform m <;> rfl

namespace Manager

/-- What one operation does to twins. -/
theorem Twin.operated {m n : Manager} (twin : Twin m n) (op : Operation) :
    op.outcome m = op.outcome n ∧ Twin (op.after m) (op.after n) ∧
      m.arena.Extends (op.after m).arena := by
  have alike := op.steady m n twin
  unfold Operation.outcome Operation.after
  generalize op.perform m = first, op.perform n = second at alike
  cases alike with
  | ok answer later grown => exact ⟨rfl, later, grown⟩
  | error fault later grown => exact ⟨rfl, later, grown⟩

theorem Sound.operated {m : Manager} (sound : m.Sound) (op : Operation) : (op.after m).Sound :=
  ((Twin.refl sound).operated op).2.1.left

theorem Sound.extends_operated {m : Manager} (sound : m.Sound) (op : Operation) :
    m.arena.Extends (op.after m).arena :=
  ((Twin.refl sound).operated op).2.2

theorem create_eq_ok_iff {config : Config} {m : Manager} :
    create config = .ok m ↔
      config.storageBits ≤ 31 ∧ config.computedBits ≤ 31 ∧ fresh config.storageBits = m := by
  unfold create UniqueTable.checkBits ComputedTable.checkBits
  by_cases storage : config.storageBits ≤ 31
  · by_cases computed : config.computedBits ≤ 31
    · rw [if_pos storage, if_pos computed]
      constructor
      · intro created
        exact ⟨storage, computed, Except.ok.inj created⟩
      · rintro ⟨_, _, rfl⟩
        rfl
    · rw [if_pos storage, if_neg computed]
      constructor
      · intro created
        cases created
      · rintro ⟨_, small, _⟩
        exact absurd small computed
  · rw [if_neg storage]
    constructor
    · intro created
      cases created
    · rintro ⟨small, _, _⟩
      exact absurd small storage

theorem create_ofBits {bits : Nat} (small : bits ≤ 31) :
    create (Config.ofBits bits) = .ok (fresh bits) :=
  create_eq_ok_iff.mpr ⟨small, Nat.le_trans (Nat.min_le_right bits 16) (by decide), rfl⟩

theorem reached_fresh {bits : Nat} (small : bits ≤ 31) : (fresh bits).Reached :=
  .created (create_ofBits small)

/-- Every reached manager is sound. -/
theorem Reached.sound {m : Manager} (reached : m.Reached) : m.Sound := by
  induction reached with
  | created created =>
      obtain ⟨_, _, rfl⟩ := create_eq_ok_iff.mp created
      exact sound_fresh _
  | operated _ op ih => exact ih.operated op

end Manager

end DecisionDiagram
