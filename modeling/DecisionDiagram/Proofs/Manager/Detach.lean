import DecisionDiagram.Manager.Detach
import DecisionDiagram.Proofs.Detached.Topology
import DecisionDiagram.Proofs.Manager.Query

/-!
# Detaching a diagram

The copy of a diagram has the tree that the reference unfolds to. Each cell is
copied once and different cells unfold to different trees, so that different
instances of a copy have different trees.
-/

namespace DecisionDiagram

open Detached (Among Made Makes Part Shared of_getElem?_insert getElem?_insert_of_none)

/-- The program makes something without failing, and it meets the condition. -/
def Detached.Succeeds {α : Type} (x : ExceptT Fault Stamping α) (supply : Supply)
    (diagrams : List Detached) (post : α → List Detached → Prop) : Prop :=
  Makes x.run supply diagrams fun answer more => ∃ a, answer = .ok a ∧ post a more

namespace Detached.Succeeds

variable {α β : Type} {supply : Supply} {diagrams : List Detached}

theorem pure (made : Made supply diagrams) {post : α → List Detached → Prop} {a : α}
    (done : post a diagrams) : Succeeds (Pure.pure a) supply diagrams post :=
  Makes.pure made ⟨a, rfl, done⟩

theorem lift {x : Stamping α} {post : α → List Detached → Prop}
    (makes : Makes x supply diagrams post) : Succeeds (liftM x) supply diagrams post := by
  change Makes (Except.ok <$> x) supply diagrams _
  rw [map_eq_pure_bind]
  exact makes.bind fun made _ done => .pure made ⟨_, rfl, done⟩

theorem bind {x : ExceptT Fault Stamping α} {next : α → ExceptT Fault Stamping β}
    {post : α → List Detached → Prop} {goal : β → List Detached → Prop}
    (first : Succeeds x supply diagrams post)
    (rest : ∀ {a later more}, Made later more → diagrams ⊆ more → post a more →
      Succeeds (next a) later more goal) : Succeeds (x >>= next) supply diagrams goal := by
  unfold Succeeds
  rw [ExceptT.run_bind]
  refine Makes.bind first ?_
  rintro _ later more made kept ⟨a, rfl, done⟩
  exact rest made kept done

end Detached.Succeeds

namespace Manager

open Detached (Succeeds)

/-! ## Runs -/

theorem detachFrom_of_some {m : Manager} {f : Ref} {d : Detached} {copied : Copied}
    (found : copied[f.slot]? = some d) : (m.detachFrom f).run copied = pure (d, copied) := by
  rw [Manager.detachFrom]
  simp only [StateT.run_bind, StateT.run_get, pure_bind, found]
  rfl

theorem detachFrom_of_leaf {m : Manager} {f : Ref} {value : Bool} {copied : Copied}
    (missing : copied[f.slot]? = none) (holds : m.arena.Holds f (.leaf value)) :
    (m.detachFrom f).run copied = (do
      let d ← liftM (Detached.newLeaf value)
      pure (d, copied.insert f.slot d) : ExceptT Fault Stamping (Detached × Copied)) := by
  rw [Manager.detachFrom, node_of_holds holds]
  simp only [StateT.run_bind, StateT.run_get, pure_bind, missing]
  rfl

theorem detachFrom_of_decision {m : Manager} {f high low : Ref} {var : Nat} {copied : Copied}
    (missing : copied[f.slot]? = none) (holds : m.arena.Holds f (.decision var high low)) :
    (m.detachFrom f).run copied = (do
      let first ← (m.detachFrom high).run copied
      let second ← (m.detachFrom low).run first.2
      let d ← liftM (Detached.newNode var first.1 second.1)
      pure (d, second.2.insert f.slot d) : ExceptT Fault Stamping (Detached × Copied)) := by
  rw [Manager.detachFrom, node_of_holds holds]
  simp only [StateT.run_bind, StateT.run_get, pure_bind, missing]
  rfl

/-! ## Copies -/

/-- The copies made so far have the trees of their cells, and all their parts are copies. -/
structure Copies (m : Manager) (diagrams : List Detached) (copied : Copied) : Prop where
  among : ∀ {slot : Nat} {d : Detached}, copied[slot]? = some d → Among diagrams d
  unfolds : ∀ {slot : Nat} {d : Detached}, copied[slot]? = some d →
    m.arena.Unfolds ⟨slot⟩ d.tree
  parts : ∀ {slot : Nat} {d x : Detached}, copied[slot]? = some d → Part x d →
    ∃ other : Nat, copied[other]? = some x

namespace Copies

variable {m : Manager} {diagrams : List Detached} {copied : Copied}

theorem empty (m : Manager) (diagrams : List Detached) : m.Copies diagrams ∅ where
  among found := by simp at found
  unfolds found := by simp at found
  parts found := by simp at found

theorem mono {more : List Detached} (copies : m.Copies diagrams copied)
    (kept : diagrams ⊆ more) : m.Copies more copied :=
  ⟨fun found => (copies.among found).mono kept, copies.unfolds, copies.parts⟩

theorem insert (copies : m.Copies diagrams copied) {f : Ref} (missing : copied[f.slot]? = none)
    {d : Detached} (among : Among diagrams d) (unfolds : m.arena.Unfolds f d.tree)
    (parts : ∀ x, Part x d → x = d ∨ ∃ other : Nat, copied[other]? = some x) :
    m.Copies diagrams (copied.insert f.slot d) := by
  have found : (copied.insert f.slot d)[f.slot]? = some d := Std.TreeMap.getElem?_insert_self
  refine ⟨?_, ?_, ?_⟩
  · intro slot x stored
    rcases of_getElem?_insert stored with ⟨_, rfl⟩ | old
    · exact among
    · exact copies.among old
  · intro slot x stored
    rcases of_getElem?_insert stored with ⟨rfl, rfl⟩ | old
    · exact unfolds
    · exact copies.unfolds old
  · intro slot x y stored inside
    rcases of_getElem?_insert stored with ⟨_, rfl⟩ | old
    · rcases parts y inside with rfl | ⟨other, copy⟩
      · exact ⟨f.slot, found⟩
      · exact ⟨other, getElem?_insert_of_none missing copy⟩
    · obtain ⟨other, copy⟩ := copies.parts old inside
      exact ⟨other, getElem?_insert_of_none missing copy⟩

/-- Copies with equal trees are copies of one cell. -/
theorem shared (copies : m.Copies diagrams copied) (proper : m.arena.Proper)
    (coherent : Detached.Coherent diagrams) {slot : Nat} {d : Detached}
    (found : copied[slot]? = some d) : Shared [d] := by
  refine .of_parts coherent (copies.among found) ?_
  intro x y insideX insideY same
  obtain ⟨first, foundX⟩ := copies.parts found insideX
  obtain ⟨second, foundY⟩ := copies.parts found insideY
  have unfoldsX := copies.unfolds foundX
  rw [same] at unfoldsX
  have one := congrArg Ref.slot (unfoldsX.ref_eq proper (copies.unfolds foundY))
  obtain rfl : first = second := one
  exact Option.some.inj (foundX.symm.trans foundY)

end Copies

/-! ## Detached diagrams -/

/-- What copying a reference adds to the copies made before: cells up to its own, with its own. -/
structure Copying (m : Manager) (f : Ref) (copied : Copied) (more : List Detached)
    (result : Detached × Copied) : Prop where
  copies : m.Copies more result.2
  found : result.2[f.slot]? = some result.1
  kept : ∀ {slot : Nat} {d : Detached}, copied[slot]? = some d → result.2[slot]? = some d
  new : ∀ {slot : Nat} {d : Detached}, result.2[slot]? = some d →
    copied[slot]? = some d ∨ slot ≤ f.slot

/-- A copy that is made of copies is added. -/
theorem Copying.insert {m : Manager} {f : Ref} {copied middle : Copied} {more : List Detached}
    {d : Detached} (copies : m.Copies more middle) (missing : middle[f.slot]? = none)
    (among : Among more d) (unfolds : m.arena.Unfolds f d.tree)
    (parts : ∀ x, Part x d → x = d ∨ ∃ other : Nat, middle[other]? = some x)
    (kept : ∀ {slot : Nat} {d : Detached}, copied[slot]? = some d → middle[slot]? = some d)
    (new : ∀ {slot : Nat} {d : Detached}, middle[slot]? = some d →
      copied[slot]? = some d ∨ slot ≤ f.slot) :
    m.Copying f copied more (d, middle.insert f.slot d) where
  copies := copies.insert missing among unfolds parts
  found := Std.TreeMap.getElem?_insert_self
  kept old := getElem?_insert_of_none missing (kept old)
  new stored := by
    rcases of_getElem?_insert stored with ⟨rfl, _⟩ | old
    · exact Or.inr (Nat.le_refl _)
    · exact new old

/-- Copying the branches of a cell adds copies of cells that lie before it. -/
theorem Copying.new_branches {m : Manager} {f high low : Ref} {var : Nat}
    (below : (Node.decision var high low).Below f) {copied first second : Copied}
    {more most : List Detached} {onTrue onFalse : Detached}
    (copiedHigh : m.Copying high copied more (onTrue, first))
    (copiedLow : m.Copying low first most (onFalse, second)) {slot : Nat} {d : Detached}
    (later : second[slot]? = some d) : copied[slot]? = some d ∨ slot < f.slot := by
  rcases copiedLow.new later with middle | le
  · rcases copiedHigh.new middle with old | le
    · exact Or.inl old
    · exact Or.inr (Nat.lt_of_le_of_lt le below.1)
  · exact Or.inr (Nat.lt_of_le_of_lt le below.2)

/-- After its branches, a cell is copied as a decision between their copies. -/
theorem Copying.decision {m : Manager} (proper : m.arena.Proper) {f high low : Ref} {var : Nat}
    (holds : m.arena.Holds f (.decision var high low)) {copied first second : Copied}
    (missing : copied[f.slot]? = none) {supply : Supply} {more most : List Detached}
    (made : Made supply most) {onTrue onFalse : Detached}
    (copiedHigh : m.Copying high copied more (onTrue, first))
    (copiedLow : m.Copying low first most (onFalse, second)) :
    Succeeds (do
      let d ← liftM (Detached.newNode var onTrue onFalse)
      pure (d, second.insert f.slot d)) supply most fun result all =>
        m.Copying f copied all result := by
  have nonzero := (proper.orders holds).var_ne_zero
  have copies := copiedLow.copies
  have foundTrue := copiedLow.kept copiedHigh.found
  have foundFalse := copiedLow.found
  have new {slot : Nat} {d : Detached} (later : second[slot]? = some d) :=
    Copying.new_branches (proper.below holds) copiedHigh copiedLow later
  -- No copy of the cell itself was made on the way, or it would be made twice.
  have missingStill : second[f.slot]? = none := by
    cases later : second[f.slot]? with
    | none => rfl
    | some d =>
        rcases new later with old | lt
        · cases missing.symm.trans old
        · exact absurd lt (Nat.lt_irrefl _)
  refine (Succeeds.lift (Makes.newNode made nonzero (copies.among foundTrue)
    (copies.among foundFalse))).bind ?_
  rintro _ _ all madeLater kept ⟨held, s, rfl⟩
  refine .pure madeLater (.insert (copies.mono kept) missingStill (.self held)
    (.node holds (copies.unfolds foundTrue) (copies.unfolds foundFalse)) ?_
    (fun old => copiedLow.kept (copiedHigh.kept old)) fun later => (new later).imp id Nat.le_of_lt)
  intro x inside
  cases inside with
  | self => exact Or.inl rfl
  | high inside => exact Or.inr (copies.parts foundTrue inside)
  | low inside => exact Or.inr (copies.parts foundFalse inside)

theorem detachFrom_succeeds {m : Manager} (proper : m.arena.Proper) {f : Ref} {node : Node}
    (holds : m.arena.Holds f node) {supply : Supply} {diagrams : List Detached}
    (made : Made supply diagrams) {copied : Copied} (copies : m.Copies diagrams copied) :
    Succeeds ((m.detachFrom f).run copied) supply diagrams fun result more =>
      m.Copying f copied more result := by
  -- Branches lie in earlier cells: the induction is on the slot.
  induction slot : f.slot using Nat.strongRecOn
    generalizing f node supply diagrams copied with
  | ind n ih =>
      cases stored : copied[f.slot]? with
      | some d =>
          rw [detachFrom_of_some stored]
          exact .pure made ⟨copies, stored, fun old => old, fun old => Or.inl old⟩
      | none =>
          cases node with
          | leaf value =>
              rw [detachFrom_of_leaf stored holds]
              refine (Succeeds.lift (Makes.newLeaf made value)).bind ?_
              rintro _ _ more madeLater kept ⟨held, s, rfl⟩
              refine .pure madeLater (.insert (copies.mono kept) stored (.self held) (.leaf holds)
                ?_ (fun old => old) fun old => Or.inl old)
              intro x inside
              cases inside with
              | self => exact Or.inl rfl
          | decision var high low =>
              have below := proper.below holds
              obtain ⟨_, ⟨_, holdsHigh, _⟩, ⟨_, holdsLow, _⟩⟩ := proper.orders holds
              rw [detachFrom_of_decision stored holds]
              refine (ih _ (slot ▸ below.1) holdsHigh made copies rfl).bind ?_
              rintro ⟨onTrue, first⟩ _ more madeFirst _ copiedHigh
              refine (ih _ (slot ▸ below.2) holdsLow madeFirst copiedHigh.copies rfl).bind ?_
              rintro ⟨onFalse, second⟩ _ most madeSecond _ copiedLow
              exact Copying.decision proper holds stored madeSecond copiedHigh copiedLow

/-- A copy has the tree of its reference, and no two of its instances have equal trees. -/
theorem detach_succeeds {m : Manager} (proper : m.arena.Proper) {f : Ref} {node : Node}
    (holds : m.arena.Holds f node) {supply : Supply} {diagrams : List Detached}
    (made : Made supply diagrams) :
    Succeeds (m.detach f) supply diagrams fun d more =>
      Among more d ∧ m.arena.Unfolds f d.tree ∧ Shared [d] := by
  change Succeeds (Prod.fst <$> (m.detachFrom f).run ∅) supply diagrams _
  rw [map_eq_pure_bind]
  refine (detachFrom_succeeds proper holds made (.empty m diagrams)).bind ?_
  rintro ⟨d, copied⟩ _ more madeLater _ ⟨copies, found, _, _⟩
  exact .pure madeLater ⟨copies.among found, copies.unfolds found,
    copies.shared proper madeLater.coherent found⟩

end Manager

end DecisionDiagram
