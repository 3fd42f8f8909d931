import Mathlib.Data.List.Forall2
import DecisionDiagram.Detached.Topology
import DecisionDiagram.Proofs.Detached.Compression
import DecisionDiagram.Proofs.Tree.Reduction

/-!
# Fully shared diagrams with one tree have one topology

A family is fully shared if no two of its instances have equal trees. Two walks
through fully shared diagrams with equal trees go alike: each meets an instance
when the other meets the one with the same tree, and both give it one number.

A detached diagram is canonical if its tree is and no two of its instances have
equal trees. Canonical diagrams of one function have one tree and one topology.
Compression makes a diagram with a canonical tree canonical, with any table.
-/

namespace DecisionDiagram.Detached

/-- Different instances have different trees, and different stamps. -/
structure Shared (diagrams : List Detached) : Prop where
  coherent : Coherent diagrams
  eq_of_tree : ∀ {x y}, Among diagrams x → Among diagrams y → x.tree = y.tree → x = y

theorem Shared.of_parts {diagrams : List Detached} (coherent : Coherent diagrams) {d : Detached}
    (among : Among diagrams d)
    (unique : ∀ {x y}, Part x d → Part y d → x.tree = y.tree → x = y) : Shared [d] := by
  have inside {x : Detached} (amongOne : Among [d] x) : Part x d := by
    obtain ⟨e, held, inside⟩ := amongOne
    obtain rfl := List.mem_singleton.mp held
    exact inside
  refine ⟨?_, fun amongX amongY => unique (inside amongX) (inside amongY)⟩
  intro e heldE f heldF x y insideX insideY
  have partX := inside ⟨e, heldE, insideX⟩
  have partY := inside ⟨f, heldF, insideY⟩
  exact coherent.eq (among.part partX) (among.part partY)

/-- The instances have one tree, each in its family. -/
structure Counterpart (diagrams others : List Detached) (x y : Detached) : Prop where
  left : Among diagrams x
  right : Among others y
  tree_eq : x.tree = y.tree

/-- The walks have met counterparts and given them equal numbers. -/
structure Alike (diagrams others : List Detached) (first second : Walk) : Prop where
  instances : List.Forall₂ (Counterpart diagrams others) first.instances.toList
    second.instances.toList
  numbers : ∀ {x y}, Counterpart diagrams others x y →
    first.numbers[x.stamp]? = second.numbers[y.stamp]?

/-! ## Runs of a walk -/

theorem walkFrom_of_met {d : Detached} {walk : Walk} (met : walk.numbers.contains d.stamp) :
    d.walkFrom walk = walk := by
  rw [walkFrom.eq_def, if_pos met]

theorem walkFrom_leaf_of_new {s : Nat} {value : Bool} {walk : Walk}
    (new : ¬ walk.numbers.contains (leaf s value).stamp) :
    (leaf s value).walkFrom walk = walk.meet (leaf s value) := by
  rw [walkFrom]
  exact if_neg new

theorem walkFrom_node_of_new {s var : Nat} {high low : Detached} {walk : Walk}
    (new : ¬ walk.numbers.contains (node s var high low).stamp) :
    (node s var high low).walkFrom walk =
      low.walkFrom (high.walkFrom (walk.meet (node s var high low))) := by
  rw [walkFrom]
  exact if_neg new

/-! ## Two walks -/

variable {diagrams others : List Detached}

theorem Counterpart.high {s t v w : Nat} {highA lowA highB lowB : Detached}
    (counterpart : Counterpart diagrams others (node s v highA lowA) (node t w highB lowB)) :
    Counterpart diagrams others highA highB :=
  ⟨counterpart.left.high, counterpart.right.high, (Tree.node.inj counterpart.tree_eq).2.1⟩

theorem Counterpart.low {s t v w : Nat} {highA lowA highB lowB : Detached}
    (counterpart : Counterpart diagrams others (node s v highA lowA) (node t w highB lowB)) :
    Counterpart diagrams others lowA lowB :=
  ⟨counterpart.left.low, counterpart.right.low, (Tree.node.inj counterpart.tree_eq).2.2⟩

/-- An instance has one counterpart at most, either way. -/
theorem Counterpart.stamp_iff (shared : Shared diagrams) (sharedOther : Shared others)
    {d e x y : Detached} (first : Counterpart diagrams others d e)
    (second : Counterpart diagrams others x y) : d.stamp = x.stamp ↔ e.stamp = y.stamp := by
  constructor
  · intro same
    have one := shared.coherent.eq first.left second.left same
    rw [sharedOther.eq_of_tree first.right second.right]
    rw [← first.tree_eq, one, second.tree_eq]
  · intro same
    have one := sharedOther.coherent.eq first.right second.right same
    rw [shared.eq_of_tree first.left second.left]
    rw [first.tree_eq, one, second.tree_eq]

namespace Alike

variable {first second : Walk}

theorem start : Alike diagrams others {} {} :=
  ⟨.nil, fun _ => by simp⟩

theorem contains_eq (alike : Alike diagrams others first second) {d e : Detached}
    (counterpart : Counterpart diagrams others d e) :
    first.numbers.contains d.stamp = second.numbers.contains e.stamp := by
  rw [Std.TreeMap.contains_eq_isSome_getElem?, Std.TreeMap.contains_eq_isSome_getElem?,
    alike.numbers counterpart]

theorem meet (shared : Shared diagrams) (sharedOther : Shared others)
    (alike : Alike diagrams others first second) {d e : Detached}
    (counterpart : Counterpart diagrams others d e) :
    Alike diagrams others (first.meet d) (second.meet e) where
  instances := by
    simp only [Walk.meet, Array.toList_push]
    exact List.rel_append alike.instances (.cons counterpart .nil)
  numbers {x y} other := by
    have sizes : first.instances.size = second.instances.size := by
      simpa using alike.instances.length_eq
    simp only [Walk.meet, Std.TreeMap.getElem?_insert, Std.LawfulEqOrd.compare_eq_iff_eq,
      counterpart.stamp_iff shared sharedOther other, sizes, alike.numbers other]

theorem walkFrom (shared : Shared diagrams) (sharedOther : Shared others)
    (alike : Alike diagrams others first second) {d e : Detached}
    (counterpart : Counterpart diagrams others d e) :
    Alike diagrams others (d.walkFrom first) (e.walkFrom second) := by
  induction d generalizing e first second with
  | leaf s x =>
      by_cases met : first.numbers.contains (leaf s x).stamp
      · rw [walkFrom_of_met met, walkFrom_of_met (alike.contains_eq counterpart ▸ met)]
        exact alike
      · have new := alike.contains_eq counterpart ▸ met
        cases e with
        | node t w highB lowB => cases counterpart.tree_eq
        | leaf t y =>
            rw [walkFrom_leaf_of_new met, walkFrom_leaf_of_new new]
            exact alike.meet shared sharedOther counterpart
  | node s v highA lowA ihHigh ihLow =>
      by_cases met : first.numbers.contains (node s v highA lowA).stamp
      · rw [walkFrom_of_met met, walkFrom_of_met (alike.contains_eq counterpart ▸ met)]
        exact alike
      · have new := alike.contains_eq counterpart ▸ met
        cases e with
        | leaf t y => cases counterpart.tree_eq
        | node t w highB lowB =>
            rw [walkFrom_node_of_new met, walkFrom_node_of_new new]
            exact ihLow (ihHigh (alike.meet shared sharedOther counterpart) counterpart.high)
              counterpart.low

theorem row_eq (alike : Alike diagrams others first second) {x y : Detached}
    (counterpart : Counterpart diagrams others x y) : first.row x = second.row y := by
  have number_eq {x y : Detached} (counterpart : Counterpart diagrams others x y) :
      first.number x = second.number y := by
    rw [Walk.number, Walk.number, Std.TreeMap.getD_eq_getD_getElem?,
      Std.TreeMap.getD_eq_getD_getElem?, alike.numbers counterpart]
  cases x with
  | leaf s x =>
      cases y with
      | node t w highB lowB => cases counterpart.tree_eq
      | leaf t y => exact congrArg Row.leaf (Tree.leaf.inj counterpart.tree_eq)
  | node s v highA lowA =>
      cases y with
      | leaf t y => cases counterpart.tree_eq
      | node t w highB lowB =>
          rw [Walk.row, Walk.row, (Tree.node.inj counterpart.tree_eq).1,
            number_eq counterpart.high, number_eq counterpart.low]

end Alike

theorem topology_eq {d e : Detached} (shared : Shared [d]) (sharedOther : Shared [e])
    (same : d.tree = e.tree) : d.topology = e.topology := by
  have counterpart : Counterpart [d] [e] d e :=
    ⟨.self (List.mem_singleton_self d), .self (List.mem_singleton_self e), same⟩
  have alike := Alike.start.walkFrom shared sharedOther counterpart
  have rows := alike.instances.imp fun x y => alike.row_eq (x := x) (y := y)
  rw [topology, topology, ← List.forall₂_eq_eq_eq, List.forall₂_map_left_iff,
    List.forall₂_map_right_iff]
  exact rows

/-! ## Canonical forms -/

/-- The diagram has the canonical tree of the function and is fully shared. -/
structure Canonical (d : Detached) (φ : (Nat → Bool) → Bool) : Prop where
  tree : d.tree.Canonical φ
  shared : Shared [d]

theorem Canonical.topology_eq {d e : Detached} {φ ψ : (Nat → Bool) → Bool}
    (first : d.Canonical φ) (second : e.Canonical ψ) (same : ∀ a, φ a = ψ a) :
    d.topology = e.topology :=
  Detached.topology_eq first.shared second.shared ((first.tree.eq_iff second.tree).mpr same)

/-- In what compression brings, no two instances have equal trees. -/
theorem Compresses.shared {supply : Supply} {diagrams : List Detached} {d result : Detached}
    {chosen later : Representatives} (made : Made supply diagrams)
    (compresses : Compresses d chosen result later diagrams) : Shared [result] := by
  have closed := compresses.closed
  refine .of_parts made.coherent (closed.among compresses.picked) ?_
  intro x y insideX insideY
  exact closed.eq_of_tree (closed.picked_part compresses.picked insideX)
    (closed.picked_part compresses.picked insideY)

theorem Made.canonical_compress {supply : Supply} {diagrams : List Detached}
    (made : Made supply diagrams) {chosen : Representatives} (closed : Closed diagrams chosen)
    {d : Detached} (among : Among diagrams d) {φ : (Nat → Bool) → Bool}
    (canonical : d.tree.Canonical φ) :
    ((d.compress.run chosen).run supply).1.1.Canonical φ := by
  obtain ⟨⟨result, later⟩, _, _, run, madeLater, _, compresses⟩ :=
    compress_makes made closed among
  rw [run]
  exact ⟨compresses.tree_eq ▸ canonical, compresses.shared madeLater⟩

end DecisionDiagram.Detached
