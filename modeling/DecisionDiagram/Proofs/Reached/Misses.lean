import DecisionDiagram.Proofs.Reached.Subproblems

/-!
# What the misses were for

Every miss since the computed table was last cleared has made an entry, but for those of renamings
of references without a node, which fail right after their look-up. So entries and such renamings
together are as many as misses, whatever was done, and no entry was made twice.
-/

namespace DecisionDiagram

open Manager
open ComputedTable (Fills)

namespace Operation

def Stray (op : Operation) (m : Manager) : Prop :=
  ∃ copy f, op = .rename copy f ∧ ¬ m.Resident f

def tally (count : Nat) : Operation → Manager → Nat
  | clearComputed, _ => 0
  | rename _ f, m => if m.Resident f then count else count + 1
  | _, _ => count

/-- The count of stray renamings since the table was last cleared, after a history. -/
def strayRenames (count : Nat) : List Operation → Manager → Nat
  | [], _ => count
  | op :: rest, m => strayRenames (op.tally count m) rest (op.after m)

theorem tally_cases (count : Nat) (op : Operation) (m : Manager) :
    (op = .clearComputed ∧ op.tally count m = 0) ∨
      (op.Stray m ∧ op.tally count m = count + 1) ∨
      op ≠ .clearComputed ∧ ¬ op.Stray m ∧ op.tally count m = count := by
  cases op with
  | clearComputed => exact Or.inl ⟨rfl, rfl⟩
  | rename copy f =>
      by_cases resident : m.Resident f
      · refine Or.inr (Or.inr ⟨Operation.noConfusion, ?_, if_pos resident⟩)
        rintro ⟨_, _, same, foreign⟩
        cases same
        exact foreign resident
      · exact Or.inr (Or.inl ⟨⟨copy, f, rfl, resident⟩, if_neg resident⟩)
  | _ =>
      refine Or.inr (Or.inr ⟨Operation.noConfusion, ?_, rfl⟩)
      rintro ⟨_, _, same, _⟩
      cases same

/-! ## One operation -/

/-- An operation finishes what it begins, except for stray renamings. -/
theorem fills {m : Manager} (sound : m.Sound) {op : Operation} (keeps : op ≠ .clearComputed)
    (straight : ¬ op.Stray m) :
    Fills (fun _ => True) m.computed (op.after m).computed := by
  have closed : Closed (Thorough fun _ => True) := Thorough.closed fun _ _ _ => trivial
  rw [after_eq_left]
  by_cases renames : ∃ copy f, op = .rename copy f
  · obtain ⟨copy, f, rfl⟩ := renames
    have resident : m.Resident f := by
      by_contra foreign
      exact straight ⟨copy, f, rfl, foreign⟩
    exact ((finishes_rename sound copy resident).mono fun _ _ => trivial).map Answer.ref
  · have restrict (f : Ref) (var : Nat) (value : Bool) :
        Thorough (fun _ => True) (Manager.restrict f var value) :=
      ⟨.restrict f var value, fun sound => (finishes_restrict sound f var value).mono
        fun _ _ => trivial⟩
    exact (closed.perform restrict op (fun copy f same => absurd ⟨copy, f, same⟩ renames)
      fun clears => absurd clears keeps).finishes sound

/-- A stray renaming fails after one look-up. -/
theorem missedOnce_of_stray {m : Manager} (sound : m.Sound) {op : Operation}
    (stray : op.Stray m) :
    (∃ fault, op.outcome m = .error fault) ∧ m.MissedOnce (op.after m) := by
  obtain ⟨copy, f, rfl, foreign⟩ := stray
  obtain ⟨fault, later, failed, _, missed⟩ :=
    ((guarded_rename sound copy f).map Answer.ref).fails foreign
  have run : (Operation.rename copy f).perform m = .error fault later := failed
  refine ⟨⟨fault, by rw [outcome, run]⟩, ?_⟩
  rwa [after_eq_left, left_of_error run]

/-- No entry is lost or overwritten but by clearing. -/
theorem entries_kept {m : Manager} (sound : m.Sound) {op : Operation} (keeps : op ≠ .clearComputed)
    {key : ComputedKey} {ref : Ref} (found : m.computed.entries[key]? = some ref) :
    (op.after m).computed.entries[key]? = some ref := by
  by_cases stray : op.Stray m
  · rwa [(missedOnce_of_stray sound stray).2.entries]
  · exact (fills sound keeps stray).kept found

end Operation

namespace Manager

/-! ## Histories -/

def Balanced (m : Manager) (strays : Nat) : Prop :=
  m.computed.size + strays = m.computed.misses

theorem Balanced.operated {m : Manager} {count : Nat} (balanced : m.Balanced count)
    (sound : m.Sound) (op : Operation) : (op.after m).Balanced (op.tally count m) := by
  unfold Balanced at balanced ⊢
  rcases op.tally_cases count m with ⟨rfl, none⟩ | ⟨stray, more⟩ | ⟨keeps, straight, same⟩
  · rw [none]
    rfl
  · obtain ⟨_, missed⟩ := Operation.missedOnce_of_stray sound stray
    rw [more, missed.misses, ← balanced, ComputedTable.size, missed.entries]
    rfl
  · have filled := (Operation.fills sound keeps straight).size_add_misses
    omega

theorem Balanced.run {m : Manager} {count : Nat} (balanced : m.Balanced count) (sound : m.Sound)
    (history : List Operation) :
    (Operation.run history m).2.Balanced (Operation.strayRenames count history m) := by
  induction history generalizing m count with
  | nil => exact balanced
  | cons op rest ih => exact ih (balanced.operated sound op) (sound.operated op)

/-- Every miss is accounted for, those of the next operation included. -/
structure Accounts (m : Manager) (strays : Nat) : Prop where
  balanced : m.computed.size + strays = m.computed.misses
  fills : ∀ op : Operation, op ≠ .clearComputed → ¬ op.Stray m →
    Fills (fun _ => True) m.computed (op.after m).computed
  strays : ∀ op : Operation, op.Stray m →
    (∃ fault, op.outcome m = .error fault) ∧ m.MissedOnce (op.after m)
  kept : ∀ op : Operation, op ≠ .clearComputed → ∀ (key : ComputedKey) (ref : Ref),
    m.computed.entries[key]? = some ref → (op.after m).computed.entries[key]? = some ref

/--
After any history of a new manager, the entries of its computed table and the stray renamings since
it was last cleared are as many as the misses. A stray renaming fails with one miss. In all other
operations a miss is followed by one new entry for its key, and there are no other entries. None is
ever overwritten.
-/
theorem create_accounts {config : Config} {m : Manager} (created : create config = .ok m)
    (history : List Operation) :
    (Operation.run history m).2.Accounts (Operation.strayRenames 0 history m) := by
  have reached := Reached.created created
  have sound := (reached.run history).sound
  have start : m.Balanced 0 := by
    obtain ⟨_, _, rfl⟩ := create_eq_ok_iff.mp created
    rfl
  exact ⟨start.run reached.sound history, fun op => Operation.fills sound,
    fun op => Operation.missedOnce_of_stray sound,
    fun op keeps key ref => Operation.entries_kept sound keeps⟩

/-- A history in which the table is cleared and a stray renaming fails. -/
def lostRenaming : List Operation :=
  [.literal 2 true, .literal 4 true, .rename .next ⟨9⟩, .apply .and ⟨2⟩ ⟨3⟩, .clearComputed,
    .rename .next ⟨9⟩, .apply .and ⟨2⟩ ⟨3⟩, .rename .next ⟨4⟩, .apply .and ⟨3⟩ ⟨2⟩]

theorem create_accounts_lostRenaming :
    create (Config.ofBits 3) = .ok (fresh 3) ∧
      (Operation.run lostRenaming (fresh 3)).2.Accounts 1 ∧
      (Operation.run lostRenaming (fresh 3)).2.computed.hits = 1 ∧
      (Operation.run lostRenaming (fresh 3)).2.computed.size + 1 = 6 := by
  have created : create (Config.ofBits 3) = .ok (fresh 3) := create_ofBits (by decide)
  have one : Operation.strayRenames 0 lostRenaming (fresh 3) = 1 := by decide +kernel
  have accounts := create_accounts created lostRenaming
  rw [one] at accounts
  exact ⟨created, accounts, by decide +kernel, accounts.balanced.trans (by decide +kernel)⟩

end Manager

end DecisionDiagram
