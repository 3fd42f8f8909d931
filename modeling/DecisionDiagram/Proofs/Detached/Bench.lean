import Mathlib.Data.Finset.Card
import DecisionDiagram.Detached.Bench
import DecisionDiagram.Detached.Reduce
import DecisionDiagram.Proofs.Detached.Compression
import DecisionDiagram.Proofs.Detached.Equality

/-!
# One instance for each structure

At a reached bench, the diagrams belong to one family and the table is closed.
Each result is the chosen instance for the tree of the diagram compressed, and
the table holds one instance for each tree of a part of these diagrams. Nothing
that is done at a bench replaces a chosen instance, and compressing a diagram or
its result again brings the result.
-/

namespace DecisionDiagram.Bench

open Detached

/-! ## What holds at a bench -/

/-- The bench holds diagrams of the family, and its table is what its calls have made it. -/
structure Sound (b : Bench) (family : List Detached) : Prop where
  made : Made b.supply family
  held : b.diagrams ⊆ family
  closed : Closed family b.chosen
  called : ∀ call ∈ b.calls,
    Among family call.1 ∧ Picked b.chosen call.2 ∧ call.2.tree = call.1.tree
  origin : ∀ c, Picked b.chosen c → ∃ call ∈ b.calls, ∃ x, Part x call.1 ∧ x.tree = c.tree

/-- The second bench holds diagrams of a larger family, and no instance chosen was replaced. -/
def Advances (b : Bench) (family : List Detached) (later : Bench) : Prop :=
  ∃ more, family ⊆ more ∧ later.Sound more ∧ ∀ c, Picked b.chosen c → Picked later.chosen c

theorem part_of_branch? {d e : Detached} {value : Bool} (found : d.branch? value = some e) :
    Part e d := by
  cases d with
  | leaf s x => cases found
  | node s var high low =>
      cases found
      cases value with
      | true => exact .high .self
      | false => exact .low .self

theorem of_newDecision {var : Nat} {high low d : Detached} {supply later : Supply}
    (made : (newDecision var high low).run.run supply = (.ok d, later)) :
    var ≠ 0 ∧ (newNode var high low).run supply = (d, later) := by
  by_cases zero : var = 0
  · rw [newDecision, if_pos zero] at made
    cases made
  · rw [newDecision, if_neg zero] at made
    cases made
    exact ⟨zero, rfl⟩

namespace Sound

variable {b : Bench} {family : List Detached}

theorem opened : Sound {} [] where
  made := .nil _
  held := List.Subset.refl _
  closed := .empty []
  called _ held := absurd held List.not_mem_nil
  origin c picked := by simp [Picked] at picked

theorem hold (sound : b.Sound family) {d : Detached} {supply : Supply} {more : List Detached}
    (made : Made supply more) (kept : family ⊆ more) (held : d ∈ more) :
    b.Advances family (b.hold (d, supply)) := by
  refine ⟨more, kept, ⟨made, ?_, sound.closed.mono kept, ?_, sound.origin⟩, fun _ old => old⟩
  · exact List.cons_subset.mpr ⟨held, List.Subset.trans sound.held kept⟩
  · intro call called
    obtain ⟨among, rest⟩ := sound.called call called
    exact ⟨among.mono kept, rest⟩

theorem compress (sound : b.Sound family) {d : Detached} (held : d ∈ b.diagrams) :
    b.Advances family (b.compress d) := by
  have among : Among family d := .self (sound.held held)
  obtain ⟨⟨result, chosen⟩, supply, more, run, made, kept, compressed⟩ :=
    compress_makes sound.made sound.closed among
  have same : b.compress d = ⟨supply, result :: b.diagrams, chosen, (d, result) :: b.calls⟩ := by
    rw [Bench.compress, run]
  have amongResult := compressed.closed.among compressed.picked
  rw [same]
  have keptAll : more ⊆ result :: more := List.subset_cons_self _ _
  refine ⟨result :: more, List.Subset.trans kept keptAll, ⟨made.cons_part amongResult,
    List.cons_subset_cons _ (List.Subset.trans sound.held kept), compressed.closed.mono keptAll,
    ?_, ?_⟩, compressed.kept⟩
  · intro call called
    rcases List.mem_cons.mp called with rfl | called
    · exact ⟨(among.mono kept).mono keptAll, compressed.picked,
        compressed.tree_eq⟩
    · obtain ⟨amongCall, picked, equal⟩ := sound.called call called
      exact ⟨(amongCall.mono kept).mono keptAll, compressed.kept _ picked,
        equal⟩
  · intro c picked
    rcases compressed.origin c picked with old | ⟨x, inside, equal⟩
    · obtain ⟨call, called, part⟩ := sound.origin c old
      exact ⟨call, List.mem_cons_of_mem _ called, part⟩
    · exact ⟨(d, result), List.mem_cons_self, x, inside, equal⟩

theorem step (sound : b.Sound family) {later : Bench} (step : Step b later) :
    b.Advances family later := by
  cases step with
  | leaf value =>
      obtain ⟨d, supply, more, run, made, kept, held, _⟩ := Makes.newLeaf sound.made value
      rw [run]
      exact sound.hold made kept held
  | decision onTrue onFalse run =>
      obtain ⟨nonzero, run⟩ := of_newDecision run
      obtain ⟨d, supply, more, other, made, kept, held, _⟩ := Makes.newNode sound.made nonzero
        (.self (sound.held onTrue)) (.self (sound.held onFalse))
      cases run.symm.trans other
      exact sound.hold made kept held
  | branch held found =>
      have among := (Among.self (sound.held held)).part (part_of_branch? found)
      exact sound.hold (sound.made.cons_part among) (List.subset_cons_self _ _)
        List.mem_cons_self
  | compress held => exact sound.compress held

theorem run (sound : b.Sound family) {later : Bench} (leads : b.Leads later) :
    b.Advances family later := by
  induction leads with
  | refl => exact ⟨family, List.Subset.refl _, sound, fun _ old => old⟩
  | tail _ step ih =>
      obtain ⟨middle, kept, soundMiddle, pickedMiddle⟩ := ih
      obtain ⟨last, keptLast, soundLast, pickedLast⟩ := soundMiddle.step step
      exact ⟨last, List.Subset.trans kept keptLast, soundLast,
        fun c old => pickedLast c (pickedMiddle c old)⟩

end Sound

theorem Reached.sound {b : Bench} (reached : b.Reached) : ∃ family, b.Sound family := by
  obtain ⟨family, _, sound, _⟩ := Sound.opened.run reached
  exact ⟨family, sound⟩

/-- What is at hand at a reached bench was made with the stamps drawn there. -/
theorem Reached.made {b : Bench} (reached : b.Reached) : Made b.supply b.diagrams := by
  obtain ⟨_, sound⟩ := reached.sound
  exact sound.made.subset sound.held

/-! ## Reaching benches -/

theorem reached_empty : Reached {} :=
  .refl

theorem Reached.leaf {b : Bench} (reached : b.Reached) (value : Bool) :
    (b.hold (.leaf b.supply.next value, ⟨b.supply.next + 1⟩)).Reached :=
  reached.tail (.leaf value)

theorem Reached.decision {b : Bench} (reached : b.Reached) {var : Nat} (ne : var ≠ 0)
    {high low : Detached} (onTrue : high ∈ b.diagrams) (onFalse : low ∈ b.diagrams) :
    (b.hold (.node b.supply.next var high low, ⟨b.supply.next + 1⟩)).Reached := by
  refine reached.tail (.decision onTrue onFalse (?_ : (newDecision var high low).run.run _ = _))
  rw [newDecision, if_neg ne]
  rfl

theorem Reached.compress {b : Bench} (reached : b.Reached) {d : Detached}
    (held : d ∈ b.diagrams) : (b.compress d).Reached :=
  reached.tail (.compress held)

/-! ## The size of the table -/

/-- The table has as many entries as there are trees of chosen instances. -/
theorem card_trees {family : List Detached} {chosen : Representatives}
    (closed : Closed family chosen) :
    ∃ trees : Finset Tree, (∀ t, t ∈ trees ↔ ∃ c, Picked chosen c ∧ c.tree = t) ∧
      chosen.size = trees.card := by
  have stored (entry : Shape × Detached) (listed : entry ∈ chosen.toList) :
      Picked chosen entry.2 ∧ entry.2.shape = entry.1 := by
    have found := Std.TreeMap.mem_toList_iff_getElem?_eq_some.mp listed
    exact ⟨closed.picked found, closed.shape_eq found⟩
  -- Instances under different shapes differ, and in a closed table their trees differ then too.
  have nodup : (chosen.toList.map fun entry => entry.2.tree).Nodup := by
    refine List.pairwise_map.mpr (chosen.distinct_keys_toList.imp_of_mem ?_)
    intro first second listedFirst listedSecond differ same
    obtain ⟨pickedFirst, shapeFirst⟩ := stored first listedFirst
    obtain ⟨pickedSecond, shapeSecond⟩ := stored second listedSecond
    apply differ
    rw [← shapeFirst, ← shapeSecond, closed.eq_of_tree pickedFirst pickedSecond same]
    exact Std.ReflCmp.compare_self
  refine ⟨(chosen.toList.map fun entry => entry.2.tree).toFinset, ?_, ?_⟩
  · intro t
    rw [List.mem_toFinset, List.mem_map]
    constructor
    · rintro ⟨entry, listed, rfl⟩
      exact ⟨entry.2, (stored entry listed).1, rfl⟩
    · rintro ⟨c, picked, rfl⟩
      exact ⟨(c.shape, c), Std.TreeMap.mem_toList_iff_getElem?_eq_some.mpr picked, rfl⟩
  · rw [List.toFinset_card_of_nodup nodup, List.length_map, Std.TreeMap.length_toList]

namespace Sound

variable {b : Bench} {family : List Detached}

/-- The trees of chosen instances are those of the parts of the diagrams compressed. -/
theorem picked_tree_iff (sound : b.Sound family) (t : Tree) :
    (∃ c, Picked b.chosen c ∧ c.tree = t) ↔
      ∃ call ∈ b.calls, ∃ x, Part x call.1 ∧ x.tree = t := by
  constructor
  · rintro ⟨c, picked, rfl⟩
    exact sound.origin c picked
  · rintro ⟨call, called, x, inside, rfl⟩
    obtain ⟨_, picked, equal⟩ := sound.called call called
    obtain ⟨c, insideResult, same⟩ := inside.of_tree_eq equal.symm
    exact ⟨c, sound.closed.picked_part picked insideResult, same⟩

/-- Among chosen instances, structural equality is identity. -/
theorem equals_eq_same (sound : b.Sound family) {x y : Detached} (pickedX : Picked b.chosen x)
    (pickedY : Picked b.chosen y) : x.equals y = x.same y := by
  have amongX := sound.closed.among pickedX
  have amongY := sound.closed.among pickedY
  rw [Bool.eq_iff_iff, equals_iff sound.made.coherent amongX amongY,
    sound.made.coherent.same_iff amongX amongY]
  exact ⟨sound.closed.eq_of_tree pickedX pickedY, congrArg tree⟩

/-! ### Results of calls -/

theorem result_equals (sound : b.Sound family) {call : Detached × Detached}
    (called : call ∈ b.calls) : call.2.equals call.1 = true := by
  obtain ⟨among, picked, equal⟩ := sound.called call called
  exact (equals_iff sound.made.coherent (sound.closed.among picked) among).mpr equal

theorem same_results (sound : b.Sound family) {first second : Detached × Detached}
    (calledFirst : first ∈ b.calls) (calledSecond : second ∈ b.calls) :
    first.2.same second.2 = first.1.equals second.1 := by
  obtain ⟨amongFirst, pickedFirst, equalFirst⟩ := sound.called first calledFirst
  obtain ⟨amongSecond, pickedSecond, equalSecond⟩ := sound.called second calledSecond
  have coherent := sound.made.coherent
  rw [← sound.equals_eq_same pickedFirst pickedSecond, Bool.eq_iff_iff,
    equals_iff coherent (sound.closed.among pickedFirst) (sound.closed.among pickedSecond),
    equals_iff coherent amongFirst amongSecond, equalFirst, equalSecond]

/-- The parts of results are chosen instances. -/
theorem picked_of_result (sound : b.Sound family) {x : Detached}
    (among : Among (b.calls.map Prod.snd) x) : Picked b.chosen x := by
  obtain ⟨result, listed, inside⟩ := among
  obtain ⟨call, called, rfl⟩ := List.mem_map.mp listed
  exact sound.closed.picked_part (sound.called call called).2.1 inside

theorem still_chosen (sound : b.Sound family) {later : Bench} (leads : b.Leads later)
    {shape : Shape} {c : Detached} (found : b.chosen[shape]? = some c) :
    later.chosen[shape]? = some c := by
  obtain ⟨_, _, _, kept⟩ := sound.run leads
  have picked := kept c (sound.closed.picked found)
  rwa [Picked, sound.closed.shape_eq found] at picked

/-- A diagram that was compressed brings its result again, and so does the result. -/
theorem compress_again (sound : b.Sound family) {call : Detached × Detached}
    (called : call ∈ b.calls) {d : Detached} (listed : d ∈ [call.1, call.2]) :
    ((d.compress.run b.chosen).run b.supply).1 = (call.2, b.chosen) := by
  obtain ⟨among, picked, equal⟩ := sound.called call called
  have amongResult := sound.closed.among picked
  have of_tree (amongD : Among family d) (same : call.2.tree = d.tree) :
      ((d.compress.run b.chosen).run b.supply).1 = (call.2, b.chosen) := by
    obtain ⟨later, run⟩ :=
      sound.closed.compress_again sound.made.coherent amongD picked same b.supply
    rw [run]
  rcases List.mem_pair.mp listed with rfl | rfl
  · exact of_tree among equal
  · exact of_tree amongResult rfl

end Sound

/--
At a reached bench, every result is structurally equal to the diagram compressed, results are one
instance if and only if the diagrams are structurally equal, and so for all parts of results. The
table has as many entries as the diagrams compressed have structurally different parts, keeps its
entries whatever is done, and stays the same when a diagram or its result is compressed again.
-/
theorem Reached.compression {b : Bench} (reached : b.Reached) :
    (∀ call ∈ b.calls, call.2.equals call.1 = true) ∧
      (∀ first ∈ b.calls, ∀ second ∈ b.calls,
        first.2.same second.2 = first.1.equals second.1) ∧
      (∀ x y, Among (b.calls.map Prod.snd) x → Among (b.calls.map Prod.snd) y →
        x.equals y = x.same y) ∧
      (∃ trees : Finset Tree,
        (∀ t, t ∈ trees ↔ ∃ call ∈ b.calls, ∃ x, Part x call.1 ∧ x.tree = t) ∧
          b.chosen.size = trees.card) ∧
      (∀ later, b.Leads later → ∀ (shape : Shape) (c : Detached),
        b.chosen[shape]? = some c → later.chosen[shape]? = some c) ∧
      ∀ call ∈ b.calls, ∀ d ∈ [call.1, call.2],
        ((d.compress.run b.chosen).run b.supply).1 = (call.2, b.chosen) := by
  obtain ⟨family, sound⟩ := reached.sound
  obtain ⟨trees, mem_trees, size⟩ := card_trees sound.closed
  refine ⟨?_, ?_, ?_, ?_, ?_, ?_⟩
  · intro call called
    exact sound.result_equals called
  · intro first calledFirst second calledSecond
    exact sound.same_results calledFirst calledSecond
  · intro x y amongX amongY
    exact sound.equals_eq_same (sound.picked_of_result amongX) (sound.picked_of_result amongY)
  · exact ⟨trees, fun t => (mem_trees t).trans (sound.picked_tree_iff t), size⟩
  · intro later leads shape c found
    exact sound.still_chosen leads found
  · intro call called d listed
    exact sound.compress_again called listed

def literal (stamp var : Nat) : Detached :=
  .node stamp var (.leaf 0 true) (.leaf 1 false)

def copies : Bench where
  supply := ⟨5⟩
  diagrams := [.node 4 1 (literal 2 2) (literal 3 2), literal 3 2, literal 2 2, .leaf 1 false,
    .leaf 0 true]

theorem reached_copies : copies.Reached := by
  have leaves := (reached_empty.leaf true).leaf false
  have first := leaves.decision (by decide : 2 ≠ 0) (.tail _ (.head _)) (.head _)
  have second := first.decision (by decide : 2 ≠ 0) (.tail _ (.tail _ (.head _)))
    (.tail _ (.head _))
  exact second.decision (by decide : 1 ≠ 0) (.tail _ (.head _)) (.head _)

def compressedCopies : Bench :=
  (copies.compress (.node 4 1 (literal 2 2) (literal 3 2))).compress (literal 3 2)

theorem compression_copies :
    compressedCopies.calls.map (fun call => (call.1.stamp, call.2.stamp)) = [(3, 2), (4, 5)] ∧
      compressedCopies.chosen.size = 4 ∧
      (∀ call ∈ compressedCopies.calls, call.2.equals call.1 = true) ∧
      ∃ trees : Finset Tree,
        (∀ t, t ∈ trees ↔ ∃ call ∈ compressedCopies.calls, ∃ x, Part x call.1 ∧ x.tree = t) ∧
          trees.card = 4 := by
  have reached : compressedCopies.Reached :=
    (reached_copies.compress (.head _)).compress (.tail _ (.tail _ (.head _)))
  have four : compressedCopies.chosen.size = 4 := by decide +kernel
  obtain ⟨equal, _, _, ⟨trees, mem_trees, size⟩, _⟩ := reached.compression
  exact ⟨by decide +kernel, four, equal, trees, mem_trees, size.symm.trans four⟩

end DecisionDiagram.Bench
