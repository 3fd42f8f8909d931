import DecisionDiagram.Proofs.Manager.Algorithms
import DecisionDiagram.Proofs.Manager.Closed

/-!
# Steady operations

Twins are sound managers with the same nodes; they may have remembered different
results. An operation is steady if it cannot tell twins apart: it brings the same
on both and leaves twins, whose nodes extend those before. A sound manager is its
own twin, so steady operations keep managers sound. All operations that are made
of steady ones are steady.
-/

namespace DecisionDiagram.Manager

/-- Sound managers that differ in what they remember and how they find nodes only. -/
structure Twin (m n : Manager) : Prop where
  left : m.Sound
  right : n.Sound
  same : m.arena = n.arena

/-- Both runs bring the same and end in twins, which extend the arena. -/
inductive Alike {α : Type} (arena : Arena) :
    EStateM.Result Fault Manager α → EStateM.Result Fault Manager α → Prop where
  | ok {m n : Manager} (answer : α) (twin : Twin m n) (grown : arena.Extends m.arena) :
      Alike arena (.ok answer m) (.ok answer n)
  | error {m n : Manager} (fault : Fault) (twin : Twin m n) (grown : arena.Extends m.arena) :
      Alike arena (.error fault m) (.error fault n)

def Steady {α : Type} (x : ManagerM α) : Prop :=
  ∀ m n : Manager, Twin m n → Alike m.arena (x m) (x n)

theorem Twin.refl {m : Manager} (sound : m.Sound) : Twin m m :=
  ⟨sound, sound, rfl⟩

theorem Twin.holds {m n : Manager} (twin : Twin m n) {ref : Ref} {node : Node}
    (holds : m.arena.Holds ref node) : n.arena.Holds ref node :=
  twin.same ▸ holds

theorem Twin.foreign {m n : Manager} (twin : Twin m n) {ref : Ref} (foreign : ¬ m.Resident ref) :
    ¬ n.Resident ref := by
  rw [resident_iff, ← twin.same, ← resident_iff]
  exact foreign

theorem Alike.mono {α : Type} {earlier arena : Arena}
    {first second : EStateM.Result Fault Manager α} (alike : Alike arena first second)
    (grown : earlier.Extends arena) : Alike earlier first second := by
  cases alike with
  | ok answer twin after => exact .ok answer twin (grown.trans after)
  | error fault twin after => exact .error fault twin (grown.trans after)

theorem Alike.answers {α : Type} {x : ManagerM α} {m n : Manager} {answer : α} (twin : Twin m n)
    (first : x m = .ok answer m) (second : x n = .ok answer n) :
    Alike m.arena (x m) (x n) := by
  rw [first, second]
  exact .ok answer twin (.refl _)

theorem Alike.faults {α : Type} {x : ManagerM α} {m n : Manager} {fault : Fault} (twin : Twin m n)
    (first : x m = .error fault m) (second : x n = .error fault n) :
    Alike m.arena (x m) (x n) := by
  rw [first, second]
  exact .error fault twin (.refl _)

/-- Operations that perform the same determined step are alike. -/
theorem Alike.of_performs {x : ManagerM Ref} {m n : Manager} {step : Arena → Ref → Arena → Prop}
    (twin : Twin m n) (first : Performs x m step) (second : Performs x n step)
    (grown : ∀ {ref later}, step m.arena ref later → m.arena.Extends later)
    (unique : ∀ {p q later last}, step m.arena p later → step m.arena q last →
      p = q ∧ later = last) : Alike m.arena (x m) (x n) := by
  obtain ⟨p, later, runFirst, soundFirst, stepFirst⟩ := first
  obtain ⟨q, last, runSecond, soundSecond, stepSecond⟩ := second
  obtain ⟨rfl, same⟩ := unique stepFirst (twin.same ▸ stepSecond)
  rw [runFirst, runSecond]
  exact .ok p ⟨soundFirst, soundSecond, same⟩ (grown stepFirst)

/-- Nothing is remembered about references without a node. -/
theorem Sound.missing_rename {m : Manager} (sound : m.Sound)
    (copy : StateCopy) {f : Ref} (foreign : ¬ m.Resident f) :
    m.computed.entries[ComputedKey.rename copy f]? = none := by
  cases found : m.computed.entries[ComputedKey.rename copy f]? with
  | none => rfl
  | some ref =>
      obtain ⟨⟨_, _, _, holds⟩, _⟩ := sound.settled _ ref found
      exact absurd (resident_iff.mpr ⟨_, holds⟩) foreign

namespace Steady

variable {α β : Type}

/-! ## Sequences -/

theorem pure (a : α) : Steady (Pure.pure a) :=
  fun _ _ twin => .ok a twin (.refl _)

theorem bind {x : ManagerM α} {next : α → ManagerM β} (first : Steady x)
    (rest : ∀ a, Steady (next a)) : Steady (x >>= next) := by
  intro m n twin
  have alike := first m n twin
  generalize runM : x m = resultM, runN : x n = resultN at alike
  cases alike with
  | ok answer later grown =>
      rw [bind_ok runM, bind_ok runN]
      exact (rest answer _ _ later).mono grown
  | error fault later grown =>
      rw [bind_error runM, bind_error runN]
      exact .error fault later grown

/-- Questions whose answer depends on the nodes only. -/
theorem ask {question : Manager → Except Fault α}
    (reads : ∀ {m n : Manager}, m.arena = n.arena → question m = question n) :
    Steady (ask question) := by
  intro m n twin
  have same := reads twin.same
  cases answered : question m with
  | ok answer => exact .answers twin (ask_eq_ok answered) (ask_eq_ok (same ▸ answered))
  | error fault => exact .faults twin (ask_eq_error answered) (ask_eq_error (same ▸ answered))

/-! ## Operations on stored nodes -/

theorem decision (var : Nat) (high low : Ref) : Steady (decision var high low) := by
  intro m n twin
  rcases decision_cases m var high low with ⟨fault, refused⟩ | ⟨_, plain⟩ | ⟨_, orders⟩
  · exact .faults twin (refused m rfl) (refused n twin.same.symm)
  · exact .answers twin (plain m) (plain n)
  · refine .of_performs twin (twin.left.decision orders)
      (twin.right.decision (twin.same ▸ orders)) ?_ ?_
    · intro ref later made
      exact (Arena.decided twin.left.proper orders made).grown
    · intro p q later last first second
      exact Prod.mk.inj (first.symm.trans second)

theorem apply (op : Connective) (p q : Ref) : Steady (apply op p q) := by
  intro m n twin
  by_cases residentP : m.Resident p
  case neg =>
    exact .faults twin (apply_of_foreign_left op q residentP)
      (apply_of_foreign_left op q (twin.foreign residentP))
  obtain ⟨a, holdsP⟩ := resident_iff.mp residentP
  by_cases residentQ : m.Resident q
  case neg =>
    exact .faults twin (apply_of_foreign_right op holdsP residentQ)
      (apply_of_foreign_right op (twin.holds holdsP) (twin.foreign residentQ))
  obtain ⟨b, holdsQ⟩ := resident_iff.mp residentQ
  exact .of_performs twin (twin.left.apply op holdsP holdsQ)
    (twin.right.apply op (twin.holds holdsP) (twin.holds holdsQ))
    (fun applies => (applies.yields twin.left.proper).grown) fun first => first.unique

theorem restrict (f : Ref) (var : Nat) (value : Bool) : Steady (restrict f var value) := by
  intro m n twin
  by_cases zero : var = 0
  · subst zero
    exact .faults twin (restrict_of_zero m f value) (restrict_of_zero n f value)
  by_cases resident : m.Resident f
  case neg =>
    exact .faults twin (restrict_of_foreign zero value resident)
      (restrict_of_foreign zero value (twin.foreign resident))
  obtain ⟨node, holds⟩ := resident_iff.mp resident
  exact .of_performs twin (twin.left.restrict holds zero value)
    (twin.right.restrict (twin.holds holds) zero value)
    (fun restricts => (restricts.yields twin.left.proper).grown) fun first => first.unique

theorem rename (copy : StateCopy) (f : Ref) : Steady (rename copy f) := by
  intro m n twin
  by_cases leaf : f.isLeaf
  · exact .answers twin (rename_of_leaf m copy leaf) (rename_of_leaf n copy leaf)
  by_cases resident : m.Resident f
  case neg =>
    have foreign := twin.foreign resident
    rw [rename_of_foreign copy leaf (twin.left.missing_rename copy resident) resident,
      rename_of_foreign copy leaf (twin.right.missing_rename copy foreign) foreign]
    exact .error _ ⟨twin.left.counted _, twin.right.counted _, twin.same⟩ (.refl _)
  obtain ⟨node, holds⟩ := resident_iff.mp resident
  exact .of_performs twin (twin.left.rename copy holds) (twin.right.rename copy (twin.holds holds))
    (fun renames => (renames.yields twin.left.proper).grown) fun first => first.unique

theorem clearComputed : Steady clearComputed :=
  fun _ _ twin => .ok () ⟨twin.left.cleared, twin.right.cleared, twin.same⟩ (.refl _)

/-! ## Operations made of others -/

theorem closed : Closed Steady :=
  ⟨pure, bind, ask, decision, apply⟩

theorem literal (var : Nat) (positive : Bool) : Steady (literal var positive) :=
  decision var _ _

theorem conj (p q : Ref) : Steady (conj p q) :=
  apply .and p q

theorem disj (p q : Ref) : Steady (disj p q) :=
  apply .or p q

theorem choose (var : Nat) (high low : Ref) : Steady (choose var high low) :=
  closed.choose var high low

theorem existsVar (f : Ref) (var : Nat) : Steady (existsVar f var) :=
  closed.quantify restrict .or f var

end Steady

/-! ## Passes -/

def SteadyPass {σ α : Type} (x : StateT σ ManagerM α) : Prop :=
  ∀ noted, Steady (x.run noted)

namespace SteadyPass

theorem run {σ α : Type} {x : StateT σ ManagerM α} (pass : SteadyPass x) (noted : σ) :
    Steady (x.run' noted) :=
  Steady.closed.run pass noted

theorem attachFrom (d : Detached) : SteadyPass (attachFrom d) :=
  Steady.closed.attachFrom d

end SteadyPass

end DecisionDiagram.Manager
