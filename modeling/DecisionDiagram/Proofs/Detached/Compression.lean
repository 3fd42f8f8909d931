import DecisionDiagram.Detached.Compress
import DecisionDiagram.Proofs.Detached.Made

/-!
# Compression chooses one instance for each tree

A table is closed if the branches of every chosen decision are chosen too. In
such a table the chosen instances are told apart by their trees. Compression
keeps tables closed, replaces nothing, brings the chosen instance for the tree
of the diagram and adds instances for trees of its parts only. Where an instance
is chosen for the tree already, the table stays as it is.
-/

namespace DecisionDiagram.Detached

/-! ## Runs of a compression -/

theorem choose_of_some {candidate result : Detached} {chosen : Representatives}
    (found : chosen[candidate.shape]? = some result) :
    (choose candidate).run chosen = pure (result, chosen) := by
  rw [choose]
  simp only [StateT.run_bind, StateT.run_get, pure_bind, found]
  rfl

theorem choose_of_none {candidate : Detached} {chosen : Representatives}
    (missing : chosen[candidate.shape]? = none) :
    (choose candidate).run chosen = pure (candidate, chosen.insert candidate.shape candidate) := by
  rw [choose]
  simp only [StateT.run_bind, StateT.run_get, pure_bind, missing]
  rfl

theorem compress_of_some {d result : Detached} {chosen : Representatives}
    (found : chosen[d.shape]? = some result) :
    d.compress.run chosen = pure (result, chosen) := by
  rw [compress.eq_def]
  simp only [StateT.run_bind, StateT.run_get, pure_bind, found]
  rfl

theorem compress_leaf_of_none {s : Nat} {value : Bool} {chosen : Representatives}
    (missing : chosen[(leaf s value).shape]? = none) :
    (leaf s value).compress.run chosen = (choose (leaf s value)).run chosen := by
  rw [compress]
  simp only [StateT.run_bind, StateT.run_get, pure_bind, missing]

theorem compress_node_of_none {s var : Nat} {high low : Detached} {chosen : Representatives}
    (missing : chosen[(node s var high low).shape]? = none) :
    (node s var high low).compress.run chosen = (do
      let first ← high.compress.run chosen
      let second ← low.compress.run first.2
      let candidate ← renew s var high low first.1 second.1
      (choose candidate).run second.2 : Stamping (Detached × Representatives)) := by
  rw [compress]
  simp only [StateT.run_bind, StateT.run_get, pure_bind, missing]
  refine bind_congr fun first => bind_congr fun second => ?_
  rw [renew]
  split
  · rfl
  · rfl

/-! ## Closed tables -/

/-- The instance is the one chosen for its shape. -/
def Picked (chosen : Representatives) (c : Detached) : Prop :=
  chosen[c.shape]? = some c

/-- The branches of the instance are chosen. -/
def Founded (chosen : Representatives) : Detached → Prop
  | leaf _ _ => True
  | node _ _ high low => Picked chosen high ∧ Picked chosen low

/-- The table holds instances of the family under their shapes, along with their branches. -/
structure Closed (diagrams : List Detached) (chosen : Representatives) : Prop where
  shape_eq : ∀ {shape : Shape} {c : Detached}, chosen[shape]? = some c → c.shape = shape
  among : ∀ {c}, Picked chosen c → Among diagrams c
  founded : ∀ {c}, Picked chosen c → Founded chosen c

theorem Founded.mono {chosen later : Representatives} {c : Detached} (founded : Founded chosen c)
    (kept : ∀ c, Picked chosen c → Picked later c) : Founded later c := by
  cases c with
  | leaf s value => trivial
  | node s var high low => exact ⟨kept high founded.1, kept low founded.2⟩

theorem Picked.eq_of_shape {chosen : Representatives} {a b : Detached} (first : Picked chosen a)
    (second : Picked chosen b) (same : a.shape = b.shape) : a = b :=
  Option.some.inj (first.symm.trans (same ▸ second))

/-- What is chosen once an instance was chosen for a shape without one. -/
theorem picked_insert {chosen : Representatives} {c : Detached}
    (missing : chosen[c.shape]? = none) {x : Detached} :
    Picked (chosen.insert c.shape c) x ↔ x = c ∨ Picked chosen x := by
  constructor
  · intro picked
    exact (of_getElem?_insert picked).imp (fun same => same.2.symm) id
  · rintro (rfl | picked)
    · exact Std.TreeMap.getElem?_insert_self
    · exact getElem?_insert_of_none missing picked

/-- Instances of a coherent family that have one shape have one tree. -/
theorem Coherent.tree_eq_of_shape {diagrams : List Detached} (coherent : Coherent diagrams)
    {a b : Detached} (amongA : Among diagrams a) (amongB : Among diagrams b)
    (same : a.shape = b.shape) : a.tree = b.tree := by
  cases a with
  | leaf s x =>
      cases b with
      | leaf t y => rw [tree, tree, Shape.leaf.inj same]
      | node t w highB lowB => cases same
  | node s v highA lowA =>
      cases b with
      | leaf t y => cases same
      | node t w highB lowB =>
          obtain ⟨rfl, sameHigh, sameLow⟩ := Shape.node.inj same
          rw [tree, tree, coherent.eq amongA.high amongB.high sameHigh,
            coherent.eq amongA.low amongB.low sameLow]

namespace Closed

variable {diagrams : List Detached} {chosen : Representatives}

theorem picked (closed : Closed diagrams chosen) {shape : Shape} {c : Detached}
    (found : chosen[shape]? = some c) : Picked chosen c := by
  rwa [Picked, closed.shape_eq found]

theorem empty (diagrams : List Detached) : Closed diagrams ∅ where
  shape_eq found := by simp at found
  among found := by simp [Picked] at found
  founded found := by simp [Picked] at found

theorem mono {more : List Detached} (closed : Closed diagrams chosen) (kept : diagrams ⊆ more) :
    Closed more chosen :=
  ⟨closed.shape_eq, fun picked => (closed.among picked).mono kept, closed.founded⟩

/-- Trees tell chosen instances apart. -/
theorem eq_of_tree (closed : Closed diagrams chosen) {a b : Detached} (first : Picked chosen a)
    (second : Picked chosen b) (same : a.tree = b.tree) : a = b := by
  induction a generalizing b with
  | leaf s x =>
      cases b with
      | leaf t y => exact first.eq_of_shape second (congrArg Shape.leaf (Tree.leaf.inj same))
      | node t w highB lowB => cases same
  | node s v highA lowA ihHigh ihLow =>
      cases b with
      | leaf t y => cases same
      | node t w highB lowB =>
          obtain ⟨rfl, sameHigh, sameLow⟩ := Tree.node.inj same
          obtain ⟨highFirst, lowFirst⟩ := closed.founded first
          obtain ⟨highSecond, lowSecond⟩ := closed.founded second
          obtain rfl := ihHigh highFirst highSecond sameHigh
          obtain rfl := ihLow lowFirst lowSecond sameLow
          exact first.eq_of_shape second rfl

/-- All parts of a chosen instance are chosen. -/
theorem picked_part (closed : Closed diagrams chosen) {x c : Detached} (picked : Picked chosen c)
    (inside : Part x c) : Picked chosen x := by
  induction inside with
  | self => exact picked
  | high _ ih => exact ih (closed.founded picked).1
  | low _ ih => exact ih (closed.founded picked).2

theorem insert (closed : Closed diagrams chosen) {c : Detached}
    (missing : chosen[c.shape]? = none) (among : Among diagrams c) (founded : Founded chosen c) :
    Closed diagrams (chosen.insert c.shape c) := by
  have kept (x : Detached) (picked : Picked chosen x) : Picked (chosen.insert c.shape c) x :=
    (picked_insert missing).mpr (Or.inr picked)
  refine ⟨?_, ?_, ?_⟩
  · intro shape x found
    rcases of_getElem?_insert found with ⟨same, rfl⟩ | old
    · exact same
    · exact closed.shape_eq old
  · intro x picked
    rcases (picked_insert missing).mp picked with rfl | picked
    · exact among
    · exact closed.among picked
  · intro x picked
    rcases (picked_insert missing).mp picked with rfl | picked
    · exact founded.mono kept
    · exact (closed.founded picked).mono kept

end Closed

/-! ## Compressed diagrams -/

/-- What compression of a diagram makes of a table and of a family. -/
structure Compresses (d : Detached) (chosen : Representatives) (result : Detached)
    (later : Representatives) (more : List Detached) : Prop where
  closed : Closed more later
  picked : Picked later result
  tree_eq : result.tree = d.tree
  kept : ∀ c, Picked chosen c → Picked later c
  origin : ∀ c, Picked later c → Picked chosen c ∨ ∃ x, Part x d ∧ x.tree = c.tree

variable {supply : Supply} {diagrams : List Detached} {chosen : Representatives}

/-- The instance chosen for the shape of a diagram stands for the diagram. -/
theorem Closed.compresses_of_some (closed : Closed diagrams chosen) (coherent : Coherent diagrams)
    {d result : Detached} (among : Among diagrams d) (found : chosen[d.shape]? = some result) :
    Compresses d chosen result chosen diagrams where
  closed := closed
  picked := closed.picked found
  tree_eq :=
    coherent.tree_eq_of_shape (closed.among (closed.picked found)) among (closed.shape_eq found)
  kept _ old := old
  origin _ old := Or.inl old

theorem choose_makes (made : Made supply diagrams) (closed : Closed diagrams chosen) {c : Detached}
    (among : Among diagrams c) (founded : Founded chosen c) :
    Makes ((choose c).run chosen) supply diagrams fun result more =>
      Compresses c chosen result.1 result.2 more := by
  cases found : chosen[c.shape]? with
  | some result =>
      rw [choose_of_some found]
      exact .pure made (closed.compresses_of_some made.coherent among found)
  | none =>
      rw [choose_of_none found]
      refine .pure made ⟨closed.insert found among founded, (picked_insert found).mpr (Or.inl rfl),
        rfl, fun x old => (picked_insert found).mpr (Or.inr old), ?_⟩
      intro x picked
      rcases (picked_insert found).mp picked with rfl | old
      · exact Or.inr ⟨x, .self, rfl⟩
      · exact Or.inl old

/-- A decision is compressed once its branches and the decision between their results are. -/
theorem Compresses.node {s t var : Nat} {high low onTrue onFalse result : Detached}
    {middle last later : Representatives} {more most all : List Detached}
    (first : Compresses high chosen onTrue middle more)
    (second : Compresses low middle onFalse last most)
    (third : Compresses (node t var onTrue onFalse) last result later all) :
    Compresses (node s var high low) chosen result later all where
  closed := third.closed
  picked := third.picked
  tree_eq := by rw [third.tree_eq, tree, tree, first.tree_eq, second.tree_eq]
  kept c old := third.kept c (second.kept c (first.kept c old))
  origin c picked := by
    have same : (Detached.node t var onTrue onFalse).tree =
        (Detached.node s var high low).tree := by
      rw [tree, tree, first.tree_eq, second.tree_eq]
    rcases third.origin c picked with old | ⟨x, inside, equal⟩
    · rcases second.origin c old with old | ⟨x, inside, equal⟩
      · rcases first.origin c old with old | ⟨x, inside, equal⟩
        · exact Or.inl old
        · exact Or.inr ⟨x, .high inside, equal⟩
      · exact Or.inr ⟨x, .low inside, equal⟩
    · obtain ⟨y, insideY, equalY⟩ := inside.of_tree_eq same
      exact Or.inr ⟨y, insideY, equalY.trans equal⟩

theorem compress_makes {d : Detached} (made : Made supply diagrams)
    (closed : Closed diagrams chosen) (among : Among diagrams d) :
    Makes (d.compress.run chosen) supply diagrams fun result more =>
      Compresses d chosen result.1 result.2 more := by
  induction d generalizing supply diagrams chosen with
  | leaf s value =>
      cases found : chosen[(leaf s value).shape]? with
      | some result =>
          rw [compress_of_some found]
          exact .pure made (closed.compresses_of_some made.coherent among found)
      | none =>
          rw [compress_leaf_of_none found]
          exact choose_makes made closed among trivial
  | node s var high low ihHigh ihLow =>
      cases found : chosen[(node s var high low).shape]? with
      | some result =>
          rw [compress_of_some found]
          exact .pure made (closed.compresses_of_some made.coherent among found)
      | none =>
          rw [compress_node_of_none found]
          refine (ihHigh made closed among.high).bind ?_
          rintro ⟨onTrue, first⟩ _ more madeFirst kept compressedHigh
          have amongFirst := among.mono kept
          refine (ihLow madeFirst compressedHigh.closed amongFirst.low).bind ?_
          rintro ⟨onFalse, second⟩ _ most madeSecond keptMore compressedLow
          have pickedTrue := compressedLow.kept _ compressedHigh.picked
          have pickedFalse := compressedLow.picked
          have closedSecond := compressedLow.closed
          refine (Makes.renew madeSecond (amongFirst.mono keptMore) (closedSecond.among pickedTrue)
            (closedSecond.among pickedFalse)).bind ?_
          rintro candidate _ all madeThird keptMost ⟨amongCandidate, stamp, rfl⟩
          refine (choose_makes madeThird (closedSecond.mono keptMost) amongCandidate
            ⟨pickedTrue, pickedFalse⟩).mono ?_
          intro result last _ compressed
          exact .node compressedHigh compressedLow compressed

/-! ## Compressing again -/

theorem renew_shape (s var : Nat) (high low onTrue onFalse : Detached) (supply : Supply) :
    ∃ candidate later, (renew s var high low onTrue onFalse).run supply = (candidate, later) ∧
      candidate.shape = .node var onTrue.stamp onFalse.stamp := by
  unfold renew
  split
  next kept =>
    obtain ⟨keptHigh, keptLow⟩ := Bool.and_eq_true_iff.mp kept
    refine ⟨node s var high low, supply, rfl, ?_⟩
    rw [shape, of_decide_eq_true keptHigh, of_decide_eq_true keptLow]
  next => exact ⟨_, _, rfl, rfl⟩

/-- Where an instance is chosen for the tree of a diagram, compression brings it and no more. -/
theorem Closed.compress_again (closed : Closed diagrams chosen) (coherent : Coherent diagrams)
    {d result : Detached} (among : Among diagrams d) (picked : Picked chosen result)
    (same : result.tree = d.tree) (supply : Supply) :
    ∃ later, (d.compress.run chosen).run supply = ((result, chosen), later) := by
  -- A decision may miss its own shape; then its branches lead to the shape of the result.
  induction d generalizing supply result with
  | leaf s value =>
      cases result with
      | node t w onTrue onFalse => cases same
      | leaf t other =>
          cases same
          exact ⟨supply, congrArg (StateT.run · supply) (compress_of_some picked)⟩
  | node s var high low ihHigh ihLow =>
      cases found : chosen[(node s var high low).shape]? with
      | some other =>
          have compressed := closed.compresses_of_some coherent among found
          have equal := compressed.tree_eq.trans same.symm
          obtain rfl := closed.eq_of_tree compressed.picked picked equal
          exact ⟨supply, congrArg (StateT.run · supply) (compress_of_some found)⟩
      | none =>
          cases result with
          | leaf t other => cases same
          | node t w onTrue onFalse =>
              obtain ⟨rfl, sameHigh, sameLow⟩ := Tree.node.inj same
              obtain ⟨pickedTrue, pickedFalse⟩ := closed.founded picked
              obtain ⟨first, runHigh⟩ := ihHigh among.high pickedTrue sameHigh supply
              obtain ⟨second, runLow⟩ := ihLow among.low pickedFalse sameLow first
              obtain ⟨candidate, third, renewed, shape⟩ :=
                renew_shape s w high low onTrue onFalse second
              have chosenFor : chosen[candidate.shape]? = some (node t w onTrue onFalse) :=
                shape ▸ picked
              refine ⟨third, ?_⟩
              rw [compress_node_of_none found, run_bind_of_run runHigh, run_bind_of_run runLow,
                run_bind_of_run renewed, choose_of_some chosenFor]
              rfl

end DecisionDiagram.Detached
