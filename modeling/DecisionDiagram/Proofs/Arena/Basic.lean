import DecisionDiagram.Node

/-!
# Arenas

An arena is the sequence of nodes that a manager stores, taken without the index
that finds them. An arena is proper if its first two cells are the leaves and
all others are decisions that are neither redundant nor out of order nor stored
twice. Making a decision in an arena looks for it and stores it if it is new;
this keeps the arena proper, and making the same decision again, in any proper
arena that extends the result, changes nothing.
-/

namespace DecisionDiagram

/-- The nodes of a manager, slot by slot. -/
abbrev Arena := Array Node

namespace Arena

def Holds (arena : Arena) (ref : Ref) (node : Node) : Prop :=
  arena[ref.slot]? = some node

def Extends (arena later : Arena) : Prop :=
  ∀ ref node, arena.Holds ref node → later.Holds ref node

/-- The reference names a cell that a decision on `var` may have as a branch. -/
def Admits (arena : Arena) (var : Nat) (ref : Ref) : Prop :=
  ∃ node, arena.Holds ref node ∧ node.admits var

structure Orders (arena : Arena) (var : Nat) (high low : Ref) : Prop where
  var_ne_zero : var ≠ 0
  high : arena.Admits var high
  low : arena.Admits var low

/-- Leaves come first, and decisions are irredundant, ordered and unique. -/
structure Proper (arena : Arena) : Prop where
  leaf : ∀ value, arena.Holds (Ref.ofBool value) (.leaf value)
  ref_of_leaf : ∀ {ref value}, arena.Holds ref (.leaf value) → ref = Ref.ofBool value
  below : ∀ {ref node}, arena.Holds ref node → node.Below ref
  branches_ne : ∀ {ref var high low}, arena.Holds ref (.decision var high low) → high ≠ low
  orders : ∀ {ref var high low}, arena.Holds ref (.decision var high low) →
    arena.Orders var high low
  unique : ∀ {p q node}, arena.Holds p node → arena.Holds q node → p = q

/-! ## Cells -/

theorem Holds.inj {arena : Arena} {ref : Ref} {a b : Node} (first : arena.Holds ref a)
    (second : arena.Holds ref b) : a = b :=
  Option.some.inj (first.symm.trans second)

theorem Holds.slot_lt {arena : Arena} {ref : Ref} {node : Node} (holds : arena.Holds ref node) :
    ref.slot < arena.size :=
  (Array.getElem?_eq_some_iff.mp holds).1

theorem exists_holds {arena : Arena} {ref : Ref} (inside : ref.slot < arena.size) :
    ∃ node, arena.Holds ref node :=
  ⟨arena[ref.slot], Array.getElem?_eq_getElem inside⟩

theorem holds_push {arena : Arena} {added node : Node} {ref : Ref} :
    Holds (arena.push added) ref node ↔
      (ref = ⟨arena.size⟩ ∧ added = node) ∨ arena.Holds ref node := by
  rw [Holds, Array.getElem?_push]
  constructor
  · intro stored
    split at stored
    next last => exact Or.inl ⟨congrArg Ref.mk last, Option.some.inj stored⟩
    next => exact Or.inr stored
  · rintro (⟨rfl, rfl⟩ | holds)
    · rw [if_pos rfl]
    · rwa [if_neg (Nat.ne_of_lt holds.slot_lt)]

theorem holds_push_self (arena : Arena) (node : Node) :
    Holds (arena.push node) ⟨arena.size⟩ node :=
  holds_push.mpr (Or.inl ⟨rfl, rfl⟩)

theorem Proper.isLeaf {arena : Arena} (proper : arena.Proper) {ref : Ref} {value : Bool}
    (holds : arena.Holds ref (.leaf value)) : ref.isLeaf :=
  ref.isLeaf_iff.mpr ⟨value, proper.ref_of_leaf holds⟩

theorem Proper.not_isLeaf {arena : Arena} (proper : arena.Proper) {ref high low : Ref} {var : Nat}
    (holds : arena.Holds ref (.decision var high low)) : ¬ ref.isLeaf := by
  intro leaf
  obtain ⟨value, rfl⟩ := ref.isLeaf_iff.mp leaf
  cases holds.inj (proper.leaf value)

/-! ## Extension -/

theorem Extends.refl (arena : Arena) : arena.Extends arena :=
  fun _ _ holds => holds

theorem Extends.trans {first second third : Arena} (before : first.Extends second)
    (after : second.Extends third) : first.Extends third :=
  fun ref node holds => after ref node (before ref node holds)

theorem extends_push (arena : Arena) (node : Node) : arena.Extends (arena.push node) :=
  fun _ _ holds => holds_push.mpr (Or.inr holds)

theorem Admits.extend {arena later : Arena} {var : Nat} {ref : Ref} (admits : arena.Admits var ref)
    (grown : arena.Extends later) : later.Admits var ref := by
  obtain ⟨node, holds, precedes⟩ := admits
  exact ⟨node, grown ref node holds, precedes⟩

theorem Admits.mono {arena : Arena} {var later : Nat} {ref : Ref} (admits : arena.Admits later ref)
    (le : var ≤ later) : arena.Admits var ref := by
  obtain ⟨node, holds, precedes⟩ := admits
  refine ⟨node, holds, ?_⟩
  cases node with
  | leaf _ => rfl
  | decision top _ _ => exact decide_eq_true (Nat.lt_of_le_of_lt le (of_decide_eq_true precedes))

theorem Admits.lt {arena : Arena} {var top : Nat} {ref high low : Ref}
    (admits : arena.Admits var ref) (holds : arena.Holds ref (.decision top high low)) :
    var < top := by
  obtain ⟨node, other, precedes⟩ := admits
  cases holds.inj other
  exact of_decide_eq_true precedes

theorem Orders.extend {arena later : Arena} {var : Nat} {high low : Ref}
    (orders : arena.Orders var high low) (grown : arena.Extends later) :
    later.Orders var high low :=
  ⟨orders.var_ne_zero, orders.high.extend grown, orders.low.extend grown⟩

theorem Proper.admits_zero {arena : Arena} (proper : arena.Proper) {ref : Ref} {node : Node}
    (holds : arena.Holds ref node) : arena.Admits 0 ref := by
  refine ⟨node, holds, ?_⟩
  cases node with
  | leaf _ => rfl
  | decision var _ _ => exact decide_eq_true (Nat.pos_of_ne_zero (proper.orders holds).var_ne_zero)

/-! ## Making a decision -/

def intern (arena : Arena) (node : Node) : Ref × Arena :=
  match arena.findIdx? (· = node) with
  | some slot => (⟨slot⟩, arena)
  | none => (⟨arena.size⟩, arena.push node)

/-- The cell that decides on `var` between the branches, unless they are equal. -/
def decision (arena : Arena) (var : Nat) (high low : Ref) : Ref × Arena :=
  if high = low then (high, arena) else arena.intern (.decision var high low)

theorem holds_of_findIdx? {arena : Arena} {node : Node} {slot : Nat}
    (found : arena.findIdx? (· = node) = some slot) : arena.Holds ⟨slot⟩ node := by
  obtain ⟨inside, same, _⟩ := Array.findIdx?_eq_some_iff_getElem.mp found
  exact Array.getElem?_eq_some_iff.mpr ⟨inside, of_decide_eq_true same⟩

theorem intern_of_holds {arena : Arena} (proper : arena.Proper) {ref : Ref} {node : Node}
    (holds : arena.Holds ref node) : arena.intern node = (ref, arena) := by
  unfold intern
  cases found : arena.findIdx? (· = node) with
  | none =>
      have differs := Array.findIdx?_eq_none_iff.mp found node (Array.mem_of_getElem? holds)
      simp at differs
  | some slot =>
      obtain rfl := proper.unique (holds_of_findIdx? found) holds
      rfl

theorem intern_of_missing {arena : Arena} {node : Node} (missing : ∀ ref, ¬ arena.Holds ref node) :
    arena.intern node = (⟨arena.size⟩, arena.push node) := by
  unfold intern
  cases found : arena.findIdx? (· = node) with
  | none => rfl
  | some slot => exact absurd (holds_of_findIdx? found) (missing _)

/-- Either the node is there already or it is stored last. -/
theorem intern_cases {arena : Arena} (proper : arena.Proper) (node : Node) :
    (∃ ref, arena.Holds ref node ∧ arena.intern node = (ref, arena)) ∨
      (∀ ref, ¬ arena.Holds ref node) ∧
        arena.intern node = (⟨arena.size⟩, arena.push node) := by
  by_cases present : ∃ ref, arena.Holds ref node
  · obtain ⟨ref, holds⟩ := present
    exact Or.inl ⟨ref, holds, intern_of_holds proper holds⟩
  · have missing : ∀ ref, ¬ arena.Holds ref node := not_exists.mp present
    exact Or.inr ⟨missing, intern_of_missing missing⟩

theorem Proper.push {arena : Arena} (proper : arena.Proper) {var : Nat} {high low : Ref}
    (ne : high ≠ low) (orders : arena.Orders var high low)
    (missing : ∀ ref, ¬ arena.Holds ref (.decision var high low)) :
    Proper (arena.push (.decision var high low)) where
  leaf value := holds_push.mpr (Or.inr (proper.leaf value))
  ref_of_leaf holds := by
    rcases holds_push.mp holds with ⟨_, same⟩ | holds
    · cases same
    · exact proper.ref_of_leaf holds
  below holds := by
    rcases holds_push.mp holds with ⟨rfl, rfl⟩ | holds
    · obtain ⟨_, highHolds, _⟩ := orders.high
      obtain ⟨_, lowHolds, _⟩ := orders.low
      exact ⟨highHolds.slot_lt, lowHolds.slot_lt⟩
    · exact proper.below holds
  branches_ne holds := by
    rcases holds_push.mp holds with ⟨_, same⟩ | holds
    · cases same
      exact ne
    · exact proper.branches_ne holds
  orders holds := by
    rcases holds_push.mp holds with ⟨_, same⟩ | holds
    · cases same
      exact orders.extend (extends_push _ _)
    · exact (proper.orders holds).extend (extends_push _ _)
  unique {p q node} first second := by
    rcases holds_push.mp first with ⟨lastP, same⟩ | holdsP
    · rcases holds_push.mp second with ⟨lastQ, _⟩ | holdsQ
      · rw [lastP, lastQ]
      · exact absurd (same ▸ holdsQ) (missing q)
    · rcases holds_push.mp second with ⟨_, same⟩ | holdsQ
      · exact absurd (same ▸ holdsP) (missing p)
      · exact proper.unique holdsP holdsQ

/-- A step to a later arena, with a result that comes after all variables within a bound. -/
structure Yields (arena : Arena) (bound : Nat → Prop) (ref : Ref) (later : Arena) : Prop where
  grown : arena.Extends later
  proper : later.Proper
  admits : ∀ {var}, bound var → later.Admits var ref

/-- What making a decision does to a proper arena. -/
structure Decided (arena : Arena) (var : Nat) (high low ref : Ref) (later : Arena) : Prop extends
    arena.Yields (· < var) ref later where
  result : high = low ∧ ref = high ∨ high ≠ low ∧ later.Holds ref (.decision var high low)

theorem decided {arena later : Arena} (proper : arena.Proper) {var : Nat} {high low ref : Ref}
    (orders : arena.Orders var high low) (made : arena.decision var high low = (ref, later)) :
    arena.Decided var high low ref later := by
  unfold decision at made
  split at made
  next same =>
    cases made
    have admits {earlier : Nat} (lt : earlier < var) : arena.Admits earlier high :=
      orders.high.mono (Nat.le_of_lt lt)
    exact ⟨⟨.refl arena, proper, admits⟩, Or.inl ⟨same, rfl⟩⟩
  next ne =>
    have precedes {earlier : Nat} (lt : earlier < var) :
        (Node.decision var high low).admits earlier := decide_eq_true lt
    rcases intern_cases proper (.decision var high low) with ⟨old, holds, same⟩ | ⟨missing, same⟩
    · cases same.symm.trans made
      exact ⟨⟨.refl arena, proper, fun lt => ⟨_, holds, precedes lt⟩⟩, Or.inr ⟨ne, holds⟩⟩
    · cases same.symm.trans made
      have holds := holds_push_self arena (.decision var high low)
      exact ⟨⟨extends_push _ _, proper.push ne orders missing,
        fun lt => ⟨_, holds, precedes lt⟩⟩, Or.inr ⟨ne, holds⟩⟩

/-- A decision that was made is made again without effect. -/
theorem Decided.again {arena later : Arena} {var : Nat} {high low ref : Ref}
    (decided : arena.Decided var high low ref later) {last : Arena} (proper : last.Proper)
    (grown : later.Extends last) : last.decision var high low = (ref, last) := by
  unfold decision
  rcases decided.result with ⟨rfl, rfl⟩ | ⟨ne, holds⟩
  · rw [if_pos rfl]
  · rw [if_neg ne, intern_of_holds proper (grown _ _ holds)]

end Arena

end DecisionDiagram
