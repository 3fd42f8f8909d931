import DecisionDiagram.Proofs.Reached.Misses

/-!
# Results are recalled

A memoised operation that succeeded has its result remembered for its key, and no other operation
than clearing takes it away. So whatever is done meanwhile, asking again costs one look-up and makes
nothing. A connective has the same key for both orders of its operands, as long as they differ.
-/

namespace DecisionDiagram

open Manager

theorem ComputedKey.ofApply_flip (op : Connective) {p q : Ref} (ne : p ≠ q) :
    ofApply op.flip q p = ofApply op p q := by
  unfold ofApply
  rcases Nat.lt_trichotomy p.slot q.slot with lt | same | lt
  · rw [if_neg (Nat.not_le_of_lt lt), if_pos (Nat.le_of_lt lt), Connective.flip_flip]
  · exact absurd (congrArg Ref.mk same) ne
  · rw [if_pos (Nat.le_of_lt lt), if_neg (Nat.not_le_of_lt lt)]

/-- Entries outlast every history in which the table is not cleared. -/
theorem Operation.run_entries_kept {m : Manager} (sound : m.Sound) {history : List Operation}
    (keeps : .clearComputed ∉ history) {key : ComputedKey} {ref : Ref}
    (found : m.computed.entries[key]? = some ref) :
    (run history m).2.computed.entries[key]? = some ref := by
  induction history generalizing m with
  | nil => exact found
  | cons op rest ih =>
      obtain ⟨other, others⟩ := not_or.mp (mt List.mem_cons.mpr keeps)
      exact ih (sound.operated op) others (Operation.entries_kept sound (Ne.symm other) found)

namespace Manager

def recalled (m : Manager) : Manager :=
  { m with computed := { m.computed with hits := m.computed.hits + 1 } }

/-- Until the table is cleared, the program brings the reference and adds one hit and no more. -/
def Recalls (x : ManagerM Ref) (ref : Ref) (m : Manager) : Prop :=
  ∀ history : List Operation, .clearComputed ∉ history →
    x (Operation.run history m).2 = .ok ref (Operation.run history m).2.recalled

theorem counted_of_found {m : Manager} {key : ComputedKey} {ref : Ref}
    (found : m.computed.entries[key]? = some ref) : m.counted key = m.recalled := by
  rw [counted, ComputedTable.lookup_of_some found, recalled]

/-- What a memoised computation brought is remembered. -/
theorem found_of_memo {m later : Manager} {key : ComputedKey} {body : ManagerM Ref} {ref : Ref}
    (run : memo key body m = .ok ref later) : later.computed.entries[key]? = some ref := by
  cases found : m.computed.entries[key]? with
  | some result =>
      cases (memo_of_some found body).symm.trans run
      rwa [counted, ComputedTable.entries_lookup]
  | none =>
      cases runBody : body (m.counted key) with
      | ok result middle =>
          cases (memo_of_none found runBody).symm.trans run
          rw [learned, ComputedTable.entries_insert, Std.TreeMap.getElem?_insert_self]
      | error fault middle => cases (memo_of_error found runBody).symm.trans run

/-- From here on, as long as the nodes stay, the program is memoised for the key. -/
def Memoised (x : ManagerM Ref) (key : ComputedKey) (m : Manager) : Prop :=
  ∀ later : Manager, m.arena.Extends later.arena → ∃ body, x later = memo key body later

theorem Memoised.recalls {x : ManagerM Ref} {key : ComputedKey} {m : Manager}
    (memoised : Memoised x key m) (sound : m.Sound) {ref : Ref}
    (found : m.computed.entries[key]? = some ref) : Recalls x ref m := by
  intro history keeps
  obtain ⟨_, grown⟩ := Operation.run_kept sound history
  obtain ⟨body, same⟩ := memoised _ grown
  have still := Operation.run_entries_kept sound keeps found
  rw [same, memo_of_some still, counted_of_found still]

/-- What a program brought is recalled by all that are memoised for its key. -/
theorem Memoised.recalls_of_ok {x y : ManagerM Ref} {key : ComputedKey} {m later : Manager}
    (first : Memoised x key m) (second : Memoised y key m) (sound : m.Sound) (steady : Steady x)
    {ref : Ref} (run : x m = .ok ref later) : Recalls y ref later := by
  obtain ⟨soundLater, grown⟩ := steady.kept sound run
  obtain ⟨body, same⟩ := first m (.refl _)
  have memoised : Memoised y key later := fun last more => second last (grown.trans more)
  exact memoised.recalls soundLater (found_of_memo (same.symm.trans run))

/-! ## Memoised operations -/

def Decides (m : Manager) (f : Ref) : Prop :=
  ∃ var high low, m.table.get? f = some (.decision var high low)

section Operations

variable {m later : Manager} {p q f ref : Ref}

theorem memoised_apply (op : Connective) (inside : ¬ m.Foreign p q)
    (decides : m.Decides p ∨ m.Decides q) :
    Memoised (apply op p q) (.ofApply op p q) m := by
  obtain ⟨residentP, residentQ⟩ := not_or.mp inside
  obtain ⟨a, holdsP⟩ := resident_iff.mp (Classical.not_not.mp residentP)
  obtain ⟨b, holdsQ⟩ := resident_iff.mp (Classical.not_not.mp residentQ)
  intro last grown
  cases split : Node.topVar? a b with
  | some var => exact ⟨_, apply_of_split op (grown _ _ holdsP) (grown _ _ holdsQ) split⟩
  | none =>
      obtain ⟨⟨x, rfl⟩, ⟨y, rfl⟩⟩ := Node.leaves_of_topVar? split
      rcases decides with ⟨_, _, _, stored⟩ | ⟨_, _, _, stored⟩
      · cases holdsP.inj stored
      · cases holdsQ.inj stored

theorem memoised_restrict {top var : Nat} {high low : Ref}
    (stored : m.table.get? f = some (.decision top high low)) (after : top < var) (value : Bool) :
    Memoised (restrict f var value) (.restrict f var value) m := by
  intro last grown
  have equation := restrict_of_decision (Nat.ne_zero_of_lt after) value (grown _ _ stored)
  rw [if_neg (Nat.lt_asymm after), if_neg (Nat.ne_of_gt after)] at equation
  exact ⟨_, equation⟩

theorem memoised_rename (sound : m.Sound) (copy : StateCopy) (decides : m.Decides f) :
    Memoised (rename copy f) (.rename copy f) m := by
  obtain ⟨var, high, low, stored⟩ := decides
  have inner := sound.proper.not_isLeaf stored
  exact fun last grown => ⟨_, rename_of_decision copy inner (grown _ _ stored)⟩

end Operations

/--
What a connective brought for two diagrams, not both of them leaves, is recalled for the operands in
either order. So is what a renaming brought for a decision, and what a restriction brought for one
on an earlier variable.
-/
theorem Reached.recall {m : Manager} (reached : m.Reached) {ref : Ref} {later : Manager} :
    (∀ op p q, apply op p q m = .ok ref later → m.Decides p ∨ m.Decides q →
      Recalls (apply op p q) ref later ∧ (p ≠ q → Recalls (apply op.flip q p) ref later)) ∧
      (∀ copy f, rename copy f m = .ok ref later → m.Decides f →
        Recalls (rename copy f) ref later) ∧
      ∀ f var value, restrict f var value m = .ok ref later →
        (∃ top high low, m.table.get? f = some (.decision top high low) ∧ top < var) →
        Recalls (restrict f var value) ref later := by
  have sound := reached.sound
  refine ⟨?_, ?_, ?_⟩
  · intro op p q run decides
    have inside := (strict_apply sound op p q).not_of_ok run
    have memoised := memoised_apply op inside decides
    refine ⟨memoised.recalls_of_ok memoised sound (.apply op p q) run, fun ne => ?_⟩
    have flipped := memoised_apply op.flip (mt Or.symm inside) decides.symm
    rw [ComputedKey.ofApply_flip op ne] at flipped
    exact memoised.recalls_of_ok flipped sound (.apply op p q) run
  · intro copy f run decides
    have memoised := memoised_rename sound copy decides
    exact memoised.recalls_of_ok memoised sound (.rename copy f) run
  · rintro f var value run ⟨top, high, low, stored, after⟩
    have memoised := memoised_restrict stored after value
    exact memoised.recalls_of_ok memoised sound (.restrict f var value) run

/-- A history in which the implication of two literals is used and an operation fails. -/
def busyImplication : List Operation :=
  [.apply .xor ⟨4⟩ ⟨3⟩, .rename .next ⟨4⟩, .apply .and ⟨9⟩ ⟨2⟩, .restrict ⟨4⟩ 4 false]

theorem recall_twoLiterals :
    ((twoLiterals.Decides ⟨2⟩ ∧ (⟨2⟩ : Ref) ≠ ⟨3⟩) ∧ ∃ ref later,
      apply .imply ⟨2⟩ ⟨3⟩ twoLiterals = .ok ref later ∧
        apply Connective.imply.flip ⟨3⟩ ⟨2⟩ (Operation.run busyImplication later).2 =
          .ok ref (Operation.run busyImplication later).2.recalled) ∧
      (∃ ref later, rename .next ⟨2⟩ twoLiterals = .ok ref later ∧
        Recalls (rename .next ⟨2⟩) ref later) ∧
      ∃ ref later, restrict ⟨2⟩ 4 true twoLiterals = .ok ref later ∧
        Recalls (restrict ⟨2⟩ 4 true) ref later := by
  have sound := reached_twoLiterals.sound
  have stored : twoLiterals.table.get? ⟨2⟩ = some (.decision 2 Ref.trueLeaf Ref.falseLeaf) := by
    decide
  have other : twoLiterals.table.get? ⟨3⟩ = some (.decision 4 Ref.trueLeaf Ref.falseLeaf) := by
    decide
  have decides : twoLiterals.Decides ⟨2⟩ := ⟨_, _, _, stored⟩
  refine ⟨⟨⟨decides, by decide⟩, ?_⟩, ?_, ?_⟩
  · obtain ⟨ref, later, run, _⟩ := sound.apply .imply stored other
    have recalls := (reached_twoLiterals.recall.1 .imply ⟨2⟩ ⟨3⟩ run (Or.inl decides)).2
    exact ⟨ref, later, run, recalls (by decide) busyImplication (by simp [busyImplication])⟩
  · obtain ⟨ref, later, run, _⟩ := sound.rename .next stored
    exact ⟨ref, later, run, reached_twoLiterals.recall.2.1 .next ⟨2⟩ run decides⟩
  · obtain ⟨ref, later, run, _⟩ := sound.restrict stored (by decide : 4 ≠ 0) true
    exact ⟨ref, later, run,
      reached_twoLiterals.recall.2.2 ⟨2⟩ 4 true run ⟨_, _, _, stored, by decide⟩⟩

end Manager

end DecisionDiagram
