import DecisionDiagram.Proofs.Manager.Query

/-!
# The support of a diagram

A reference mentions a variable if it leads to a decision on it. Only mentioned
variables matter for the function that a reference denotes. The walk over a
diagram meets every decision that the reference leads to and no other, so the
support lists exactly the mentioned variables.
-/

namespace DecisionDiagram

namespace Arena

inductive Mentions (arena : Arena) : Ref → Nat → Prop where
  | top {f high low : Ref} {var : Nat} (holds : arena.Holds f (.decision var high low)) :
      Mentions arena f var
  | high {f high low : Ref} {top var : Nat} (holds : arena.Holds f (.decision top high low))
      (inside : Mentions arena high var) : Mentions arena f var
  | low {f high low : Ref} {top var : Nat} (holds : arena.Holds f (.decision top high low))
      (inside : Mentions arena low var) : Mentions arena f var

theorem Mentions.ne_zero {arena : Arena} (proper : arena.Proper) {f : Ref} {var : Nat}
    (mentions : arena.Mentions f var) : var ≠ 0 := by
  induction mentions with
  | top holds => exact (proper.orders holds).var_ne_zero
  | high _ _ ih => exact ih
  | low _ _ ih => exact ih

/-- Assignments that agree on the mentioned variables give the same value. -/
theorem Denotes.congr_mentions {arena : Arena} {f : Ref} {φ : (Nat → Bool) → Bool}
    (denotes : arena.Denotes f φ) {a b : Nat → Bool}
    (agree : ∀ var, arena.Mentions f var → a var = b var) : φ a = φ b := by
  obtain ⟨tree, unfolds, value⟩ := denotes
  rw [← value, ← value]
  clear value
  induction unfolds with
  | leaf holds => rfl
  | node holds _ _ ihTrue ihFalse =>
      rw [Tree.evaluate, Tree.evaluate, agree _ (.top holds),
        ihTrue fun var inside => agree var (.high holds inside),
        ihFalse fun var inside => agree var (.low holds inside)]

end Arena

namespace Manager

/-! ## The walk -/

section Equations

variable {m : Manager} {f high low : Ref} {var : Nat}

theorem meetFrom_of_leaf {x : Bool} (holds : m.arena.Holds f (.leaf x)) (met : Met) :
    (m.meetFrom f).run met = .ok ((), met) := by
  rw [meetFrom, node_of_holds holds]
  rfl

theorem meetFrom_of_met (holds : m.arena.Holds f (.decision var high low)) {met : Met}
    (old : f.slot ∈ met) : (m.meetFrom f).run met = .ok ((), met) := by
  rw [meetFrom, node_of_holds holds]
  change (if met.contains f.slot then _ else _ : StateT Met (Except Fault) Unit).run met = _
  rw [if_pos (Std.TreeMap.contains_iff_mem.mpr old)]
  rfl

theorem meetFrom_of_new (holds : m.arena.Holds f (.decision var high low)) {met middle later : Met}
    (new : f.slot ∉ met)
    (first : (m.meetFrom high).run (met.insert f.slot (.decision var high low)) = .ok ((), middle))
    (second : (m.meetFrom low).run middle = .ok ((), later)) :
    (m.meetFrom f).run met = .ok ((), later) := by
  rw [meetFrom, node_of_holds holds]
  change (if met.contains f.slot then _ else _ : StateT Met (Except Fault) Unit).run met = _
  rw [if_neg (new ∘ Std.TreeMap.contains_iff_mem.mp)]
  change ((m.meetFrom high).run _ >>= _) = _
  rw [first]
  exact second

end Equations

def Known (m : Manager) (met : Met) (f : Ref) : Prop :=
  (∃ x, m.arena.Holds f (.leaf x)) ∨ f.slot ∈ met

theorem Known.mono {m : Manager} {met later : Met} {f : Ref} (known : m.Known met f)
    (kept : ∀ slot : Nat, slot ∈ met → slot ∈ later) : m.Known later f :=
  known.imp_right (kept _)

/-- A decision that a walk from the reference has met, and whose branches it has met, too. -/
structure Visited (m : Manager) (f : Ref) (met : Met) (slot : Nat) (node : Node) : Prop where
  holds : m.arena.Holds ⟨slot⟩ node
  mentions : ∀ var, m.arena.Mentions ⟨slot⟩ var → m.arena.Mentions f var
  branches : ∃ var high low, node = .decision var high low ∧ m.Known met high ∧ m.Known met low

theorem Visited.mono {m : Manager} {f g : Ref} {met later : Met} {slot : Nat} {node : Node}
    (visited : m.Visited f met slot node) (kept : ∀ slot : Nat, slot ∈ met → slot ∈ later)
    (mentions : ∀ var, m.arena.Mentions f var → m.arena.Mentions g var) :
    m.Visited g later slot node where
  holds := visited.holds
  mentions var inside := mentions var (visited.mentions var inside)
  branches := by
    obtain ⟨var, high, low, same, knownHigh, knownLow⟩ := visited.branches
    exact ⟨var, high, low, same, knownHigh.mono kept, knownLow.mono kept⟩

/-- What a walk from the reference adds to the decisions met before. -/
structure Meets (m : Manager) (f : Ref) (met later : Met) : Prop where
  kept : ∀ slot : Nat, slot ∈ met → slot ∈ later
  root : m.Known later f
  entry : ∀ slot node, later[slot]? = some node →
    met[slot]? = some node ∨ m.Visited f later slot node

/-- The branches are visited one after the other, once the decision itself is met. -/
theorem Meets.of_branches {m : Manager} {f high low : Ref} {var : Nat} {met middle later : Met}
    (holds : m.arena.Holds f (.decision var high low))
    (first : m.Meets high (met.insert f.slot (.decision var high low)) middle)
    (second : m.Meets low middle later) : m.Meets f met later where
  kept slot old :=
    second.kept slot (first.kept slot (Std.TreeMap.mem_insert.mpr (Or.inr old)))
  root := Or.inr (second.kept _ (first.kept _ Std.TreeMap.mem_insert_self))
  entry slot node stored := by
    rcases second.entry slot node stored with early | visited
    · rcases first.entry slot node early with earlier | visited
      · rw [Std.TreeMap.getElem?_insert] at earlier
        split at earlier
        next same =>
          obtain rfl : f.slot = slot := Std.LawfulEqCmp.eq_of_compare same
          cases earlier
          exact Or.inr ⟨holds, fun _ inside => inside, var, high, low, rfl,
            first.root.mono second.kept, second.root⟩
        next => exact Or.inl earlier
      · exact Or.inr (visited.mono second.kept fun _ => .high holds)
    · exact Or.inr (visited.mono (fun _ old => old) fun _ => .low holds)

theorem meets {m : Manager} (proper : m.arena.Proper) {f : Ref} {node : Node}
    (holds : m.arena.Holds f node) (met : Met) :
    ∃ later, (m.meetFrom f).run met = .ok ((), later) ∧ m.Meets f met later := by
  induction slot : f.slot using Nat.strongRecOn generalizing f node met with
  | ind n ih =>
      cases node with
      | leaf x =>
          exact ⟨met, meetFrom_of_leaf holds met, fun _ old => old, Or.inl ⟨x, holds⟩,
            fun _ _ stored => Or.inl stored⟩
      | decision var high low =>
          by_cases old : f.slot ∈ met
          · exact ⟨met, meetFrom_of_met holds old, fun _ old => old, Or.inr old,
              fun _ _ stored => Or.inl stored⟩
          · have below : (Node.decision var high low).Below ⟨n⟩ := slot ▸ proper.below holds
            obtain ⟨_, ⟨_, holdsHigh, _⟩, ⟨_, holdsLow, _⟩⟩ := proper.orders holds
            obtain ⟨middle, runHigh, first⟩ := ih _ below.1 holdsHigh (met.insert f.slot _) rfl
            obtain ⟨later, runLow, second⟩ := ih _ below.2 holdsLow middle rfl
            exact ⟨later, meetFrom_of_new holds old runHigh runLow, .of_branches holds first second⟩

/-! ## The variables -/

/-- Where all branches are known that a walk has met, so is everything they lead to. -/
theorem Known.exists_var {m : Manager} {f g : Ref} {met : Met}
    (visited : ∀ (slot : Nat) (node : Node), met[slot]? = some node → m.Visited f met slot node)
    (known : m.Known met g) {var : Nat} (mentions : m.arena.Mentions g var) :
    ∃ (slot : Nat) (node : Node), met[slot]? = some node ∧ node.var = var := by
  -- A known decision is met with its node, which names its branches.
  have entry {g high low : Ref} {top : Nat} (known : m.Known met g)
      (holds : m.arena.Holds g (.decision top high low)) :
      met[g.slot]? = some (.decision top high low) ∧ m.Known met high ∧ m.Known met low := by
    rcases known with ⟨x, leaf⟩ | inside
    · cases leaf.inj holds
    · have isSome := Std.TreeMap.mem_iff_isSome_getElem?.mp inside
      obtain ⟨node, stored⟩ := Option.isSome_iff_exists.mp isSome
      obtain ⟨here, _, _, _, _, rfl, knownHigh, knownLow⟩ := visited _ node stored
      cases here.inj holds
      exact ⟨stored, knownHigh, knownLow⟩
  induction mentions with
  | top holds => exact ⟨_, _, (entry known holds).1, rfl⟩
  | high holds _ ih => exact ih (entry known holds).2.1
  | low holds _ ih => exact ih (entry known holds).2.2

/-- A walk from the start meets the variables that the reference mentions. -/
theorem Meets.mentions_iff {m : Manager} {f : Ref} {met : Met} (meets : m.Meets f ∅ met)
    (var : Nat) :
    m.arena.Mentions f var ↔
      ∃ (slot : Nat) (node : Node), met[slot]? = some node ∧ node.var = var := by
  have visited (slot : Nat) (node : Node) (stored : met[slot]? = some node) :
      m.Visited f met slot node := by
    simpa using meets.entry slot node stored
  constructor
  · exact meets.root.exists_var visited
  · rintro ⟨slot, node, stored, rfl⟩
    obtain ⟨holds, mentions, var, high, low, rfl, _⟩ := visited slot node stored
    exact mentions _ (.top holds)

theorem mem_foldl_insert {entries : List (Ref × Node)} {vars : Std.TreeSet Nat} {var : Nat} :
    var ∈ entries.foldl (fun vars entry => vars.insert entry.2.var) vars ↔
      var ∈ vars ∨ ∃ entry ∈ entries, entry.2.var = var := by
  induction entries generalizing vars with
  | nil => simp
  | cons entry rest ih =>
      simp only [List.foldl_cons, ih, Std.TreeSet.mem_insert, Std.LawfulEqOrd.compare_eq_iff_eq,
        List.mem_cons, exists_eq_or_imp, or_assoc, or_left_comm]

/-- The support of a diagram lists the variables that it mentions. -/
theorem support_of_holds {m : Manager} (proper : m.arena.Proper) {f : Ref} {node : Node}
    (holds : m.arena.Holds f node) :
    ∃ vars, m.support f = .ok vars ∧ ∀ var, var ∈ vars ↔ m.arena.Mentions f var := by
  obtain ⟨met, run, meets⟩ := meets proper holds ∅
  let nodes : List (Ref × Node) := met.toList.map fun entry => (⟨entry.1⟩, entry.2)
  have listed : m.decisions f = .ok nodes := by
    rw [decisions, run]
    rfl
  let vars : Std.TreeSet Nat := nodes.foldl (fun vars entry => vars.insert entry.2.var) ∅
  refine ⟨vars.toList, ?_, fun var => ?_⟩
  · rw [support, listed]
    rfl
  · rw [Std.TreeSet.mem_toList, mem_foldl_insert, meets.mentions_iff]
    constructor
    · rintro (none | ⟨entry, inside, same⟩)
      · simp at none
      · obtain ⟨⟨slot, node⟩, stored, rfl⟩ := List.mem_map.mp inside
        exact ⟨slot, node, Std.TreeMap.mem_toList_iff_getElem?_eq_some.mp stored, same⟩
    · rintro ⟨slot, node, stored, same⟩
      have listedNode := Std.TreeMap.mem_toList_iff_getElem?_eq_some.mpr stored
      exact Or.inr ⟨(⟨slot⟩, node), List.mem_map.mpr ⟨_, listedNode, rfl⟩, same⟩

end Manager

end DecisionDiagram
