import DecisionDiagram.Proofs.Arena.Paths
import DecisionDiagram.Proofs.Reached.Arena
import DecisionDiagram.Proofs.Reached.Coincidence
import DecisionDiagram.Proofs.Reached.Exchange
import DecisionDiagram.Proofs.Reached.Support

/-!
# There and back

A detached copy has one instance for each cell that its reference leads to, with the same variables,
values and branches. Attached again, every instance finds the cell that it was copied from, so the
manager remains as it is: nothing is made, and nothing is looked up in the computed table.
-/

namespace DecisionDiagram

open Detached (Among Coherent Noted Part Shared)

/-! ## Cells and instances -/

/-- The node that an instance is a copy of, if each branch is a copy of the given cell. -/
def Detached.original (cell : Detached → Ref) : Detached → Node
  | leaf _ value => .leaf value
  | node _ var high low => .decision var (cell high) (cell low)

namespace Arena

variable {arena : Arena} {f g : Ref} {d x : Detached}

/-- The parts of a copy are copies of cells that the reference leads to. -/
theorem Unfolds.exists_leads (unfolds : arena.Unfolds f d.tree) (inside : Part x d) :
    ∃ g, arena.Leads f g ∧ arena.Unfolds g x.tree := by
  induction inside generalizing f with
  | self => exact ⟨f, .self f, unfolds⟩
  | high _ ih =>
      cases unfolds with
      | node holds onTrue _ =>
          obtain ⟨g, leads, copied⟩ := ih onTrue
          exact ⟨g, .high holds leads, copied⟩
  | low _ ih =>
      cases unfolds with
      | node holds _ onFalse =>
          obtain ⟨g, leads, copied⟩ := ih onFalse
          exact ⟨g, .low holds leads, copied⟩

/-- A copy of a decision is a decision between copies of the branches. -/
theorem Unfolds.exists_branches (unfolds : arena.Unfolds f d.tree) {high low : Ref} {var : Nat}
    (holds : arena.Holds f (.decision var high low)) :
    ∃ stamp onTrue onFalse, d = .node stamp var onTrue onFalse ∧
      arena.Unfolds high onTrue.tree ∧ arena.Unfolds low onFalse.tree := by
  cases d with
  | leaf stamp value =>
      cases unfolds with
      | leaf other => cases holds.inj other
  | node stamp top onTrue onFalse =>
      cases unfolds with
      | node other unfoldsHigh unfoldsLow =>
          cases holds.inj other
          exact ⟨stamp, onTrue, onFalse, rfl, unfoldsHigh, unfoldsLow⟩

/-- All cells that a reference leads to have copies among the parts of its copy. -/
theorem Leads.exists_part (leads : arena.Leads f g) (unfolds : arena.Unfolds f d.tree) :
    ∃ x, Part x d ∧ arena.Unfolds g x.tree := by
  induction leads generalizing d with
  | self f => exact ⟨d, .self, unfolds⟩
  | high holds _ ih =>
      obtain ⟨_, _, _, rfl, onTrue, _⟩ := unfolds.exists_branches holds
      obtain ⟨x, inside, copied⟩ := ih onTrue
      exact ⟨x, .high inside, copied⟩
  | low holds _ ih =>
      obtain ⟨_, _, _, rfl, _, onFalse⟩ := unfolds.exists_branches holds
      obtain ⟨x, inside, copied⟩ := ih onFalse
      exact ⟨x, .low inside, copied⟩

/-- If the branches have been copied from cells, the instance has been from its original. -/
theorem Unfolds.holds_original (unfolds : arena.Unfolds f d.tree) {cell : Detached → Ref}
    (copied : ∀ x g, Part x d → arena.Unfolds g x.tree → cell x = g) :
    arena.Holds f (d.original cell) := by
  cases d with
  | leaf stamp value =>
      cases unfolds with
      | leaf holds => exact holds
  | node stamp var high low =>
      cases unfolds with
      | node holds onTrue onFalse =>
          rw [Detached.original, copied high _ (.high .self) onTrue,
            copied low _ (.low .self) onFalse]
          exact holds

end Arena

namespace Manager

/-- One instance of the diagram corresponds to each cell of the reference, and is like it. -/
structure Depicts (m : Manager) (f : Ref) (d : Detached) (cell : Detached → Ref) : Prop where
  coherent : Coherent [d]
  root : cell d = f
  bijective : Set.BijOn cell {x | Part x d} (m.arena.cellsOf f)
  nodes : ∀ x, Part x d → m.table.get? (cell x) = some (x.original cell)

/-- A fully shared diagram with the tree of a reference depicts its cells. -/
theorem Sound.depicts {m : Manager} (sound : m.Sound) {f : Ref} {d : Detached}
    (unfolds : m.arena.Unfolds f d.tree) (shared : Shared [d]) :
    ∃ cell, m.Depicts f d cell := by
  have among {x : Detached} (inside : Part x d) : Among [d] x :=
    ⟨d, List.mem_singleton_self d, inside⟩
  have copies (x : Detached) : ∃ g, Part x d → m.arena.Leads f g ∧ m.arena.Unfolds g x.tree := by
    by_cases inside : Part x d
    · obtain ⟨g, copied⟩ := unfolds.exists_leads inside
      exact ⟨g, fun _ => copied⟩
    · -- No matter which cell is named for what is no part.
      exact ⟨f, fun other => absurd other inside⟩
  choose cell copied using copies
  have unique (x : Detached) (g : Ref) (inside : Part x d) (same : m.arena.Unfolds g x.tree) :
      cell x = g := (copied x inside).2.ref_eq sound.proper same
  refine ⟨cell, shared.coherent, unique d f .self unfolds, ⟨?_, ?_, ?_⟩, ?_⟩
  · exact fun x inside => (copied x inside).1
  · intro x insideX y insideY same
    have unfoldsX := (copied x insideX).2
    rw [same] at unfoldsX
    exact shared.eq_of_tree (among insideX) (among insideY)
      (unfoldsX.inj (copied y insideY).2)
  · intro g leads
    obtain ⟨x, inside, same⟩ := Arena.Leads.exists_part leads unfolds
    exact ⟨x, inside, unique x g inside same⟩
  · intro x inside
    exact (copied x inside).2.holds_original fun y g part => unique y g (part.trans inside)

/-! ## Attaching what is there -/

section Sound

variable {m : Manager} (sound : m.Sound)
include sound

theorem choose_of_holds {f high low : Ref} {var : Nat}
    (holds : m.arena.Holds f (.decision var high low)) : choose var high low m = .ok f m :=
  (choose_of_orders (sound.proper.orders holds)).trans (decision_of_holds sound holds)

/-- Every instance finds the cell that unfolds to its tree, and the manager is left alone. -/
theorem attachFrom_of_unfolds {diagrams : List Detached} (coherent : Coherent diagrams)
    {d : Detached} (among : Among diagrams d) {f : Ref} (unfolds : m.arena.Unfolds f d.tree)
    {attached : Attached}
    (noted : Noted diagrams (fun x ref => m.arena.Unfolds ref x.tree) attached) :
    ∃ notes, (attachFrom d).run attached m = .ok (f, notes) m ∧
      Noted diagrams (fun x ref => m.arena.Unfolds ref x.tree) notes := by
  induction d generalizing f attached with
  | leaf s value =>
      cases unfolds with
      | leaf holds =>
          rw [sound.proper.ref_of_leaf holds]
          exact ⟨attached, attachFrom_leaf s value attached m, noted⟩
  | node s var high low ihHigh ihLow =>
      cases stored : attached[s]? with
      | some ref =>
          -- The note names a cell with the same tree, and there is one such cell only.
          obtain rfl := (noted.of_some coherent among stored).ref_eq sound.proper unfolds
          exact ⟨attached, attachFrom_of_some stored m, noted⟩
      | none =>
          cases id unfolds with
          | node holds onTrue onFalse =>
              obtain ⟨first, runHigh, notedHigh⟩ := ihHigh among.high onTrue noted
              obtain ⟨second, runLow, notedLow⟩ := ihLow among.low onFalse notedHigh
              refine ⟨second.insert s f, ?_, notedLow.insert among unfolds⟩
              rw [attachFrom_of_none stored, bind_ok runHigh, bind_ok runLow,
                bind_ok (choose_of_holds sound holds)]
              rfl

/-- A diagram with the tree of a reference is attached as this reference. -/
theorem attach_of_unfolds {d : Detached} (coherent : Coherent [d]) {f : Ref}
    (unfolds : m.arena.Unfolds f d.tree) : attach d m = .ok f m := by
  obtain ⟨notes, run, _⟩ := attachFrom_of_unfolds sound coherent
    (.self (List.mem_singleton_self d)) unfolds (.empty [d] _)
  exact attach_of_run run

end Sound

/--
What is detached depicts the cells of its reference. Attached again, at once or after any history,
it is found to be this reference, and the manager stays as it is.
-/
theorem Reached.round_trip {m : Manager} (reached : m.Reached) {f : Ref} (inside : m.Resident f)
    (supply : Supply) :
    ∃ d left cell, m.Detaches f supply d left ∧ m.Depicts f d cell ∧
      ∀ history : List Operation,
        attach d (Operation.run history m).2 = .ok f (Operation.run history m).2 := by
  have sound := reached.sound
  obtain ⟨_, holds⟩ := resident_iff.mp inside
  obtain ⟨_, left, _, run, _, _, d, rfl, _, unfolds, shared⟩ :=
    detach_succeeds sound.proper holds (.nil supply)
  obtain ⟨cell, depicts⟩ := sound.depicts unfolds shared
  refine ⟨d, left, cell, run, depicts, fun history => ?_⟩
  obtain ⟨soundLater, grown⟩ := Operation.run_kept sound history
  exact attach_of_unfolds soundLater shared.coherent (unfolds.extend grown)

theorem round_trip_bothCopies :
    bothCopies.Resident ⟨5⟩ ∧ ∃ d left cell, bothCopies.Detaches ⟨5⟩ {} d left ∧
      bothCopies.Depicts ⟨5⟩ d cell ∧ attach d bothCopies = .ok ⟨5⟩ bothCopies := by
  have inside : bothCopies.Resident ⟨5⟩ := by decide
  obtain ⟨d, left, cell, detaches, depicts, attaches⟩ :=
    reached_bothCopies.round_trip inside {}
  exact ⟨inside, d, left, cell, detaches, depicts, attaches []⟩

end Manager

end DecisionDiagram
