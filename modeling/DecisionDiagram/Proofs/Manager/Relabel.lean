import DecisionDiagram.Proofs.ComputedTable.Fills
import DecisionDiagram.Proofs.Manager.AttachOrdered
import DecisionDiagram.Proofs.Manager.Support
import DecisionDiagram.Proofs.Tree.Relabelling

/-!
# Renaming as relabelling

If renaming keeps the order of the variables of a diagram, then renamed branches come after their
renamed variable and remain different. Every choice is then a plain decision, the diagram is
relabelled cell by cell, and nothing else is made or remembered.
-/

namespace DecisionDiagram

namespace Arena

variable {arena later : Arena} {f ref : Ref}

/-- The variables of the tree are those that the reference mentions. -/
theorem Unfolds.mem_vars {t : Tree} (unfolds : arena.Unfolds f t) (var : Nat) :
    var ∈ t.vars ↔ arena.Mentions f var := by
  induction unfolds with
  | leaf holds =>
      constructor
      · exact False.elim
      · intro mentions
        cases mentions with
        | top other => cases holds.inj other
        | high other _ => cases holds.inj other
        | low other _ => cases holds.inj other
  | node holds _ _ ihTrue ihFalse =>
      constructor
      · rintro (rfl | inside | inside)
        · exact .top holds
        · exact .high holds (ihTrue.mp inside)
        · exact .low holds (ihFalse.mp inside)
      · intro mentions
        cases mentions with
        | top other =>
            cases holds.inj other
            exact Or.inl rfl
        | high other inside =>
            cases holds.inj other
            exact Or.inr (Or.inl (ihTrue.mpr inside))
        | low other inside =>
            cases holds.inj other
            exact Or.inr (Or.inr (ihFalse.mpr inside))

/-- A result of renaming unfolds to the relabelled tree, as there is one canonical tree only. -/
theorem Renames.unfolds {copy : StateCopy} (renames : arena.Renames copy f ref later)
    (proper : arena.Proper) {t : Tree} (unfolds : arena.Unfolds f t)
    (mono : StrictMonoOn copy.rename t.vars) : later.Unfolds ref (t.relabel copy.rename) := by
  obtain ⟨s, unfoldsRef, value⟩ := renames.denotes proper ⟨t, unfolds, fun _ => rfl⟩
  have properLater := (renames.yields proper).proper
  have first := unfoldsRef.tree_canonical properLater value
  have second := (unfolds.tree_canonical proper fun _ => rfl).relabel mono
  rw [← (first.eq_iff second).mpr fun _ => rfl]
  exact unfoldsRef

/-- The keys under which renamings of the cells of a diagram are remembered. -/
def renamings (arena : Arena) (copy : StateCopy) (f : Ref) : Set ComputedKey :=
  (ComputedKey.rename copy) '' arena.cellsOf f

/-- The keys for a branch, taken to a larger arena, are some of the other keys of the decision. -/
theorem Proper.renamings_branch (proper : arena.Proper) (grown : arena.Extends later)
    (copy : StateCopy) {branch : Ref} (leads : arena.Leads f branch)
    (smaller : branch.slot < f.slot) (inside : f.slot < arena.size) :
    later.renamings copy branch ⊆ arena.renamings copy f \ {.rename copy f} := by
  rintro _ ⟨g, leadsLater, rfl⟩
  have onward := leadsLater.of_extends proper grown (Nat.lt_trans smaller inside)
  refine ⟨⟨g, leads.trans onward, rfl⟩, fun same => ?_⟩
  obtain rfl : g = f := (ComputedKey.rename.inj same).2
  exact absurd smaller (Nat.not_lt_of_le (onward.slot_le proper))

end Arena

namespace Manager

open ComputedTable (Fills)

/-- Renaming as a program that never chooses: it makes a plain decision for each cell. -/
def relabel (copy : StateCopy) (f : Ref) : ManagerM Ref := do
  match ← fetch f with
  | ⟨.leaf _, _⟩ => return f
  | ⟨.decision var high low, _⟩ =>
      memo (.rename copy f) do
        let onTrue ← relabel copy high
        let onFalse ← relabel copy low
        decision (copy.rename var) onTrue onFalse
termination_by f.slot
decreasing_by
  · exact Node.high_slot_lt ‹_›
  · exact Node.low_slot_lt ‹_›

theorem relabel_of_leaf {m : Manager} (copy : StateCopy) {f : Ref} {x : Bool}
    (holds : m.arena.Holds f (.leaf x)) : relabel copy f m = .ok f m := by
  rw [relabel, bind_ok (fetch_of_holds holds)]
  rfl

theorem relabel_of_decision {m : Manager} (copy : StateCopy) {f high low : Ref} {var : Nat}
    (holds : m.arena.Holds f (.decision var high low)) :
    relabel copy f m = memo (.rename copy f) (do
      let onTrue ← relabel copy high
      let onFalse ← relabel copy low
      decision (copy.rename var) onTrue onFalse) m := by
  rw [relabel, bind_ok (fetch_of_holds holds)]

structure Relabels (m : Manager) (copy : StateCopy) (f : Ref) (t : Tree) (ref : Ref)
    (later : Manager) : Prop where
  run : rename copy f m = .ok ref later
  plain : relabel copy f m = .ok ref later
  sound : later.Sound
  grown : m.arena.Extends later.arena
  unfolds : later.arena.Unfolds ref (t.relabel copy.rename)
  spans : m.arena.Spans ref later.arena
  fills : Fills (· ∈ m.arena.renamings copy f) m.computed later.computed

/-- Renaming on a sound manager performs its algorithm, which tells most about the result. -/
theorem Sound.relabels_of_run {m : Manager} (sound : m.Sound) {copy : StateCopy} {f : Ref}
    {t : Tree} (unfolds : m.arena.Unfolds f t) (mono : StrictMonoOn copy.rename t.vars) {ref : Ref}
    {later : Manager} (run : Manager.rename copy f m = .ok ref later)
    (plain : relabel copy f m = .ok ref later) (spans : m.arena.Spans ref later.arena)
    (fills : Fills (· ∈ m.arena.renamings copy f) m.computed later.computed) :
    m.Relabels copy f t ref later := by
  obtain ⟨_, holds⟩ := Arena.exists_holds unfolds.slot_lt
  obtain ⟨_, _, same, soundLater, renames⟩ := sound.rename copy holds
  cases run.symm.trans same
  exact ⟨run, plain, soundLater, (renames.yields sound.proper).grown,
    renames.unfolds sound.proper unfolds mono, spans, fills⟩

namespace Relabels

section Branches

variable {m middle last : Manager} {copy : StateCopy} {f high low onTrue onFalse : Ref} {var : Nat}
  {highTree lowTree : Tree} (sound : m.Sound) (holds : m.arena.Holds f (.decision var high low))
  (unfolds : m.arena.Unfolds f (.node var highTree lowTree))
  (mono : StrictMonoOn copy.rename (Tree.node var highTree lowTree).vars)
  (relabelsHigh : (m.counted (.rename copy f)).Relabels copy high highTree onTrue middle)
  (relabelsLow : middle.Relabels copy low lowTree onFalse last)
include sound holds relabelsHigh relabelsLow

include unfolds mono in
/-- Branches that have been relabelled come after the renamed variable. -/
theorem orders : last.arena.Orders (copy.rename var) onTrue onFalse := by
  obtain ⟨⟨afterHigh, afterLow⟩, _⟩ := (unfolds.ordered sound.proper).1
  have unfoldsTrue := relabelsHigh.unfolds.extend relabelsLow.grown
  exact ⟨copy.rename_ne_zero (sound.proper.orders holds).var_ne_zero,
    unfoldsTrue.admits (afterHigh.relabel mono Tree.var_mem_vars Tree.vars_high),
    relabelsLow.unfolds.admits (afterLow.relabel mono Tree.var_mem_vars Tree.vars_low)⟩

/-- The branches leave the key of the decision pending, which is remembered last. -/
theorem fills_learned (missing : m.computed.entries[ComputedKey.rename copy f]? = none)
    {later : Manager} (keeps : later.computed = last.computed) (ref : Ref) :
    Fills (· ∈ m.arena.renamings copy f) m.computed
      (later.learned (.rename copy f) ref).computed := by
  obtain ⟨highBelow, lowBelow⟩ := sound.proper.below holds
  have ofHigh := sound.proper.renamings_branch (.refl _) copy (.high holds (.self high)) highBelow
    holds.slot_lt
  have ofLow := sound.proper.renamings_branch relabelsHigh.grown copy (.low holds (.self low))
    lowBelow holds.slot_lt
  have inner : Fills (· ∈ m.arena.renamings copy f \ {.rename copy f})
      (m.counted (.rename copy f)).computed later.computed :=
    keeps ▸ (relabelsHigh.fills.mono ofHigh).trans (relabelsLow.fills.mono ofLow)
  refine .miss ⟨f, .self f, rfl⟩ missing (inner.mono fun _ inside => inside.1) ?_ (.refl _)
  refine inner.missing (fun inside => inside.2 rfl) ?_
  rwa [counted, ComputedTable.entries_lookup]

include unfolds mono in
/-- A decision that is not remembered is relabelled after its branches. -/
theorem node (missing : m.computed.entries[ComputedKey.rename copy f]? = none)
    (equation : rename copy f m = memo (.rename copy f) (do
      let onTrue ← rename copy high
      let onFalse ← rename copy low
      choose (copy.rename var) onTrue onFalse) m) :
    ∃ ref later, m.Relabels copy f (.node var highTree lowTree) ref later := by
  have orders := orders sound holds unfolds mono relabelsHigh relabelsLow
  obtain ⟨ref, later, forgoes, _, made⟩ := relabelsLow.sound.forgoes_decision orders
  have decided := Arena.decided relabelsLow.sound.proper orders made
  refine ⟨ref, later.learned (.rename copy f) ref, sound.relabels_of_run unfolds mono
    (equation.trans (memo_of_none missing ?_))
    ((relabel_of_decision copy holds).trans (memo_of_none missing ?_)) ?_
    (fills_learned sound holds relabelsHigh relabelsLow missing forgoes.keeps ref)⟩
  · rw [bind_ok relabelsHigh.run, bind_ok relabelsLow.run, choose_of_orders orders, forgoes.run]
  · rw [bind_ok relabelsHigh.plain, bind_ok relabelsLow.plain, forgoes.run]
  · exact Arena.Spans.decision relabelsHigh.spans relabelsLow.spans relabelsLow.grown decided made

end Branches

end Relabels

/-- Where no two variables are confused, both programs relabel every cell of the diagram. -/
theorem Sound.relabels {m : Manager} (sound : m.Sound) (copy : StateCopy) {f : Ref} {t : Tree}
    (unfolds : m.arena.Unfolds f t) (mono : StrictMonoOn copy.rename t.vars) :
    ∃ ref later, m.Relabels copy f t ref later := by
  induction t generalizing m f with
  | leaf value =>
      cases id unfolds with
      | leaf holds =>
          have run := rename_of_leaf m copy (sound.proper.isLeaf holds)
          exact ⟨f, m, sound.relabels_of_run unfolds mono run (relabel_of_leaf copy holds)
            (.refl _ _) (.refl _)⟩
  | node var highTree lowTree ihHigh ihLow =>
      cases id unfolds with
      | node holds unfoldsHigh unfoldsLow =>
          have equation := rename_of_decision copy (sound.proper.not_isLeaf holds) holds
          cases found : m.computed.entries[ComputedKey.rename copy f]? with
          | some ref =>
              have equationPlain := relabel_of_decision copy holds
              exact ⟨ref, m.counted (.rename copy f), sound.relabels_of_run unfolds mono
                (equation.trans (memo_of_some found _))
                (equationPlain.trans (memo_of_some found _)) (.refl _ _) (.hit found (.refl _))⟩
          | none =>
              obtain ⟨_, _, relabelsHigh⟩ :=
                ihHigh (sound.counted (.rename copy f)) unfoldsHigh (mono.mono Tree.vars_high)
              obtain ⟨_, _, relabelsLow⟩ := ihLow relabelsHigh.sound
                (unfoldsLow.extend relabelsHigh.grown) (mono.mono Tree.vars_low)
              exact Relabels.node sound holds unfolds mono relabelsHigh relabelsLow found equation

end Manager

end DecisionDiagram
