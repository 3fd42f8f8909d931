import Mathlib.Data.Prod.Lex
import DecisionDiagram.Proofs.Arena.Paths
import DecisionDiagram.Proofs.ComputedTable.Fills
import DecisionDiagram.Proofs.Manager.Closed
import DecisionDiagram.Proofs.Reached.Guarded

/-!
# No subproblem is computed twice

A memoised operation looks its own key up, and what it computes after a miss are smaller
subproblems: the connective on cells of its operands, restrictions of earlier diagrams, and, within
a renaming, any connectives. So the pending key is not remembered by what is computed meanwhile, and
every miss on a sound manager is followed by a new entry.
-/

namespace DecisionDiagram

/-- Where a subproblem stands: renamings after all others, and then by the slots of operands. -/
def ComputedKey.depth : ComputedKey → ℕ ×ₗ ℕ
  | apply _ p q => toLex (0, p.slot + q.slot)
  | restrict f _ _ => toLex (0, f.slot)
  | rename _ f => toLex (1, f.slot)

theorem ComputedKey.depth_ofApply (op : Connective) (p q : Ref) :
    (ofApply op p q).depth = toLex (0, p.slot + q.slot) := by
  unfold ofApply
  split
  · rfl
  · rw [depth, Nat.add_comm]

namespace Arena

/-- The subproblems of a connective: its keys for a cell of the one diagram and one of the other. -/
def subproblems (arena : Arena) (op : Connective) (p q : Ref) : Set ComputedKey :=
  Set.image2 (.ofApply op) (arena.cellsOf p) (arena.cellsOf q)

variable {arena : Arena} (proper : arena.Proper) {op : Connective} {p q : Ref}
include proper

theorem Proper.depth_le_of_subproblem {key : ComputedKey}
    (subproblem : key ∈ arena.subproblems op p q) : key.depth ≤ toLex (0, p.slot + q.slot) := by
  obtain ⟨x, leadsX, y, leadsY, rfl⟩ := subproblem
  rw [ComputedKey.depth_ofApply]
  have le := Nat.add_le_add (leadsX.slot_le proper) (leadsY.slot_le proper)
  exact Prod.Lex.toLex_le_toLex.mpr (Or.inr ⟨rfl, le⟩)

/-- The subproblems of cofactors, taken in a larger arena, are some of those of the operands. -/
theorem Proper.subproblems_cofactor {later : Arena} (grown : arena.Extends later) {a b : Node}
    (holdsP : arena.Holds p a) (holdsQ : arena.Holds q b) (var : Nat) (value : Bool) :
    later.subproblems op (a.cofactor var value p) (b.cofactor var value q) ⊆
      arena.subproblems op p q := by
  have back {f g : Ref} {node : Node} (holds : arena.Holds f node)
      (leads : later.Leads (node.cofactor var value f) g) : arena.Leads f g := by
    have inside := Nat.lt_of_le_of_lt (Node.cofactor_slot_le (proper.below holds) var value)
      holds.slot_lt
    exact (Leads.cofactor holds var value).trans (leads.of_extends proper grown inside)
  rintro _ ⟨x, leadsX, y, leadsY, rfl⟩
  exact ⟨x, back holdsP leadsX, y, back holdsQ leadsY, rfl⟩

end Arena

namespace Manager

open ComputedTable (Fills)

/-- The program finishes all the computations it begins, and they are for allowed keys. -/
def Finishes {α : Type} (allowed : ComputedKey → Prop) (x : ManagerM α) (m : Manager) : Prop :=
  Fills allowed m.computed (left x m).computed

namespace Finishes

variable {α β : Type} {allowed inner : ComputedKey → Prop} {x : ManagerM α} {m later : Manager}

theorem of_ok {a : α} (run : x m = .ok a later) (fills : Fills allowed m.computed later.computed) :
    Finishes allowed x m := by
  rwa [Finishes, left_of_ok run]

theorem of_error {fault : Fault} (failed : x m = .error fault later)
    (fills : Fills allowed m.computed later.computed) : Finishes allowed x m := by
  rwa [Finishes, left_of_error failed]

theorem of_eq {y : ManagerM α} (same : x m = y m) (finishes : Finishes allowed y m) :
    Finishes allowed x m := by
  rwa [Finishes, left, same]

theorem mono {other : ComputedKey → Prop} (finishes : Finishes allowed x m)
    (weaker : ∀ key, allowed key → other key) : Finishes other x m :=
  Fills.mono finishes weaker

theorem bind {next : α → ManagerM β} (first : Finishes allowed x m)
    (rest : ∀ {a later}, x m = .ok a later → Finishes allowed (next a) later) :
    Finishes allowed (x >>= next) m := by
  cases run : x m with
  | ok a middle =>
      rw [Finishes, left_of_ok run] at first
      rw [Finishes, left_bind run]
      exact first.trans (rest run)
  | error fault middle =>
      rw [Finishes, left_of_error run] at first
      exact of_error (bind_error run) first

theorem map (finishes : Finishes allowed x m) (f : α → β) : Finishes allowed (f <$> x) m := by
  rw [map_eq_pure_bind]
  exact finishes.bind fun _ => of_ok rfl (.refl _)

/-- A computation that succeeds is remembered for its key, if it does not come to the key itself. -/
theorem memo {key : ComputedKey} {body : ManagerM Ref} {ref : Ref}
    (run : Manager.memo key body m = .ok ref later) (permitted : allowed key)
    (within : ∀ other, inner other → allowed other) (pending : ¬ inner key)
    (finishes : Finishes inner body (m.counted key)) :
    Finishes allowed (Manager.memo key body) m := by
  cases found : m.computed.entries[key]? with
  | some result => exact of_ok (memo_of_some found body) (.hit found (.refl _))
  | none =>
      cases runBody : body (m.counted key) with
      | ok result middle =>
          rw [Finishes, left_of_ok runBody] at finishes
          have absent : (m.counted key).computed.entries[key]? = none := by
            rwa [counted, ComputedTable.entries_lookup]
          refine of_ok (memo_of_none found runBody) ?_
          exact .miss permitted found (finishes.mono within) (finishes.missing pending absent)
            (.refl _)
      | error fault middle => cases (memo_of_error found runBody).symm.trans run

/-- What is computed for a subproblem comes to smaller ones and is remembered last. -/
theorem of_memo {x : ManagerM Ref} {key : ComputedKey} {body : ManagerM Ref} {ref : Ref}
    {bound : ℕ ×ₗ ℕ} (equation : x m = Manager.memo key body m) (run : x m = .ok ref later)
    (own : key.depth = bound) (finishes : Finishes (·.depth < bound) body (m.counted key)) :
    Finishes (·.depth ≤ bound) x m :=
  of_eq equation
    (memo (equation.symm.trans run) own.le (fun _ => le_of_lt) own.not_lt finishes)

theorem deeper {first a b : ℕ} (finishes : Finishes (·.depth ≤ toLex (first, a)) x m)
    (lt : a < b) : Finishes (·.depth < toLex (first, b)) x m :=
  finishes.mono fun _ le => le.trans_lt (Prod.Lex.toLex_lt_toLex.mpr (Or.inr ⟨rfl, lt⟩))

end Finishes

/-! ## Memoised operations -/

/--
Induction along the recursion of a connective: it refuses its operands, or it decides for leaves, or
it splits. The cofactors of a split are taken to any manager, such as one that a branch left.
-/
theorem apply_induction (op : Connective) {motive : Manager → Ref → Ref → Prop}
    (refused : ∀ {m p q fault}, apply op p q m = .error fault m → motive m p q)
    (leaves : ∀ {m p q ref}, apply op p q m = .ok ref m → motive m p q)
    (split : ∀ {m p q a b var}, m.arena.Holds p a → m.arena.Holds q b →
      Node.topVar? a b = some var →
      (∀ value later, motive later (a.cofactor var value p) (b.cofactor var value q)) →
      motive m p q)
    (m : Manager) (p q : Ref) : motive m p q := by
  induction size : p.slot + q.slot using Nat.strongRecOn generalizing m p q with
  | ind n ih =>
      by_cases residentP : m.Resident p
      case neg => exact refused (apply_of_foreign_left op q residentP)
      obtain ⟨a, holdsP⟩ := resident_iff.mp residentP
      by_cases residentQ : m.Resident q
      case neg => exact refused (apply_of_foreign_right op holdsP residentQ)
      obtain ⟨b, holdsQ⟩ := resident_iff.mp residentQ
      cases top : Node.topVar? a b with
      | none =>
          obtain ⟨⟨x, rfl⟩, ⟨y, rfl⟩⟩ := Node.leaves_of_topVar? top
          exact leaves (apply_of_leaves op holdsP holdsQ)
      | some var =>
          refine split holdsP holdsQ top fun value later => ih _ ?_ later _ _ rfl
          exact size ▸ Node.cofactors_slot_lt (m.branches_below _ _ holdsP)
            (m.branches_below _ _ holdsQ) top value

section Sound

variable {m : Manager} (sound : m.Sound)
include sound

omit sound in
theorem finishes_decision (allowed : ComputedKey → Prop) (var : Nat) (high low : Ref) :
    Finishes allowed (decision var high low) m := by
  rcases decision_ends m var high low with ⟨fault, refused⟩ | plain | ⟨inside, run⟩
  · exact .of_error refused (.refl _)
  · exact .of_ok plain (.refl _)
  · exact .of_ok run (.refl _)

/-- A connective computes subproblems only, and none of them twice. -/
theorem finishes_subproblems (op : Connective) (p q : Ref) :
    Finishes (· ∈ m.arena.subproblems op p q) (apply op p q) m := by
  induction m, p, q using apply_induction op with
  | refused failed => exact .of_error failed (.refl _)
  | leaves run => exact .of_ok run (.refl _)
  | @split m p q a b var holdsP holdsQ split ih =>
      have equation := apply_of_split op holdsP holdsQ split
      have smaller (value : Bool) := Node.cofactors_slot_lt
        (sound.proper.below holdsP) (sound.proper.below holdsQ) split value
      have own := ComputedKey.depth_ofApply op p q
      -- The keys of both branches are smaller, so they leave the own key pending.
      have branch (value : Bool) {later : Manager} (soundLater : later.Sound)
          (grown : m.arena.Extends later.arena) :
          Finishes (fun key => key ∈ m.arena.subproblems op p q ∧
              key.depth < toLex (0, p.slot + q.slot))
            (apply op (a.cofactor var value p) (b.cofactor var value q)) later := by
        refine (ih value later soundLater).mono fun key subproblem => ⟨?_, ?_⟩
        · exact sound.proper.subproblems_cofactor grown holdsP holdsQ var value subproblem
        · exact (soundLater.proper.depth_le_of_subproblem subproblem).trans_lt
            (Prod.Lex.toLex_lt_toLex.mpr (Or.inr ⟨rfl, smaller value⟩))
      obtain ⟨ref, later, run, _⟩ := sound.apply op holdsP holdsQ
      refine .of_eq equation (.memo (equation.symm.trans run) ⟨p, .self p, q, .self q, rfl⟩
        ?_ ?_ ((branch true (sound.counted _) (.refl _)).bind fun runHigh => ?_))
      · exact fun _ inner => inner.1
      · exact fun inner => absurd inner.2 own.not_lt
      · obtain ⟨soundHigh, grown⟩ := (Steady.apply op _ _).kept (sound.counted _) runHigh
        exact (branch false soundHigh grown).bind fun _ => finishes_decision _ var _ _

theorem finishes_apply (op : Connective) (p q : Ref) :
    Finishes (·.depth ≤ toLex (0, p.slot + q.slot)) (apply op p q) m :=
  (finishes_subproblems sound op p q).mono fun _ => sound.proper.depth_le_of_subproblem

theorem finishes_restrict (f : Ref) (var : Nat) (value : Bool) :
    Finishes (·.depth ≤ toLex (0, f.slot)) (restrict f var value) m := by
  induction slot : f.slot using Nat.strongRecOn generalizing m f with
  | ind n ih =>
      by_cases zero : var = 0
      · subst zero
        exact .of_error (restrict_of_zero m f value) (.refl _)
      by_cases resident : m.Resident f
      case neg => exact .of_error (restrict_of_foreign zero value resident) (.refl _)
      obtain ⟨node, holds⟩ := resident_iff.mp resident
      cases node with
      | leaf x => exact .of_ok (restrict_of_leaf zero value holds) (.refl _)
      | decision top high low =>
          have equation := restrict_of_decision zero value holds
          obtain ⟨ref, later, run, _⟩ := sound.restrict holds zero value
          split at equation
          · exact .of_ok equation (.refl _)
          split at equation
          · exact .of_ok equation (.refl _)
          have below : (Node.decision top high low).Below ⟨n⟩ := slot ▸ sound.proper.below holds
          have branch {child : Ref} (lt : child.slot < n) {later : Manager}
              (soundLater : later.Sound) :
              Finishes (·.depth < toLex (0, n)) (restrict child var value) later :=
            (ih _ lt soundLater child rfl).deeper lt
          have own : (ComputedKey.restrict f var value).depth = toLex (0, n) := by
            rw [ComputedKey.depth, slot]
          refine .of_memo equation run own ?_
          refine (branch below.1 (sound.counted _)).bind fun runHigh => ?_
          have soundHigh := ((Steady.restrict high var value).kept (sound.counted _) runHigh).1
          exact (branch below.2 soundHigh).bind fun _ => finishes_decision _ top _ _

end Sound

/-! ## Operations made of others -/

/-- On sound managers, which it keeps sound, the program finishes what it begins. -/
structure Thorough (allowed : ComputedKey → Prop) {α : Type} (x : ManagerM α) : Prop where
  steady : Steady x
  finishes {m : Manager} (sound : m.Sound) : Finishes allowed x m

/-- Where the keys of connectives are allowed, sequences of thorough programs are thorough. -/
theorem Thorough.closed {allowed : ComputedKey → Prop}
    (connectives : ∀ key n, key.depth ≤ toLex (0, n) → allowed key) :
    Closed (Thorough allowed) where
  pure a := ⟨.pure a, fun _ => .of_ok rfl (.refl _)⟩
  bind first rest :=
    ⟨first.steady.bind fun a => (rest a).steady, fun sound => (first.finishes sound).bind
      fun run => (rest _).finishes (first.steady.kept sound run).1⟩
  ask {α question} reads := by
    refine ⟨.ask reads, fun {m} _ => ?_⟩
    cases answered : question m with
    | ok a => exact .of_ok (ask_eq_ok answered) (.refl _)
    | error fault => exact .of_error (ask_eq_error answered) (.refl _)
  decision var high low := ⟨.decision var high low, fun _ => finishes_decision _ var high low⟩
  apply op p q :=
    ⟨.apply op p q, fun sound => (finishes_apply sound op p q).mono fun key => connectives key _⟩

theorem finishes_rename {m : Manager} (sound : m.Sound) (copy : StateCopy) {f : Ref}
    (resident : m.Resident f) :
    Finishes (·.depth ≤ toLex (1, f.slot)) (rename copy f) m := by
  induction slot : f.slot using Nat.strongRecOn generalizing m f with
  | ind n ih =>
      obtain ⟨node, holds⟩ := resident_iff.mp resident
      by_cases leaf : f.isLeaf
      · exact .of_ok (rename_of_leaf m copy leaf) (.refl _)
      cases node with
      | leaf value => exact absurd (sound.proper.isLeaf holds) leaf
      | decision var high low =>
          have below : (Node.decision var high low).Below ⟨n⟩ := slot ▸ sound.proper.below holds
          obtain ⟨_, ⟨_, holdsHigh, _⟩, ⟨_, holdsLow, _⟩⟩ := sound.proper.orders holds
          have branch {child : Ref} (lt : child.slot < n) {later : Manager}
              (soundLater : later.Sound) (inside : later.Resident child) :
              Finishes (·.depth < toLex (1, n)) (rename copy child) later :=
            (ih _ lt soundLater inside rfl).deeper lt
          -- A choice may apply connectives to any diagrams, also to such in later slots.
          have closed : Closed (Thorough (·.depth < toLex (1, n))) :=
            Thorough.closed fun _ _ le =>
              le.trans_lt (Prod.Lex.toLex_lt_toLex.mpr (Or.inl Nat.one_pos))
          have own : (ComputedKey.rename copy f).depth = toLex (1, n) := by
            rw [ComputedKey.depth, slot]
          obtain ⟨ref, later, run, _⟩ := sound.rename copy holds
          refine .of_memo (rename_of_decision copy leaf holds) run own ?_
          refine (branch below.1 (sound.counted _) holdsHigh.slot_lt).bind fun runHigh => ?_
          obtain ⟨soundHigh, grown⟩ := (Steady.rename copy high).kept (sound.counted _) runHigh
          refine (branch below.2 soundHigh (grown _ _ holdsLow).slot_lt).bind fun runLow => ?_
          have soundLow := ((Steady.rename copy low).kept soundHigh runLow).1
          exact (closed.choose (copy.rename var) _ _).finishes soundLow

end Manager

end DecisionDiagram
