import DecisionDiagram.Proofs.Detached.Bench

/-!
# What compression keeps

An instance has a rival if another instance of the diagram, or one in the table, is structurally
equal to it. Where nothing has a rival, compression brings the very diagram: what it adds to the
table on its way are parts of the diagram, so that no rivals come up, and no stamp is drawn.
Conversely the parts of a diagram that compression brings are chosen instances, and these are told
apart by their trees.
-/

namespace DecisionDiagram

namespace Detached

/-- No part of the diagram has the tree of another part or of another chosen instance. -/
structure Unrivalled (chosen : Representatives) (d : Detached) : Prop where
  within : ∀ {x y}, Part x d → Part y d → x.tree = y.tree → x = y
  chosen : ∀ {x c}, Part x d → Picked chosen c → x.tree = c.tree → x = c

section Runs

variable {supply : Supply} {diagrams : List Detached} {chosen : Representatives} {d : Detached}

theorem Unrivalled.part (unrivalled : Unrivalled chosen d) {e : Detached} (inside : Part e d) :
    Unrivalled chosen e where
  within first second := unrivalled.within (first.trans inside) (second.trans inside)
  chosen part := unrivalled.chosen (part.trans inside)

/-- What is chosen while a part is compressed to itself are instances of that part. -/
theorem Unrivalled.later (unrivalled : Unrivalled chosen d) {e : Detached} (inside : Part e d)
    {later : Representatives} (compresses : Compresses e chosen e later diagrams) :
    Unrivalled later d where
  within := unrivalled.within
  chosen {x c} part picked same := by
    rcases compresses.origin c picked with old | ⟨y, below, equal⟩
    · exact unrivalled.chosen part old same
    · have pickedY := compresses.closed.picked_part compresses.picked below
      obtain rfl := compresses.closed.eq_of_tree pickedY picked equal
      exact unrivalled.within part (below.trans inside) same

/-- The instance found for the shape of an unrivalled diagram is the diagram. -/
theorem Unrivalled.eq_of_some (unrivalled : Unrivalled chosen d) (coherent : Coherent diagrams)
    (closed : Closed diagrams chosen) (among : Among diagrams d) {c : Detached}
    (found : chosen[d.shape]? = some c) : c = d := by
  have compresses := closed.compresses_of_some coherent among found
  exact (unrivalled.chosen .self compresses.picked compresses.tree_eq.symm).symm

theorem Unrivalled.choose (unrivalled : Unrivalled chosen d) (coherent : Coherent diagrams)
    (closed : Closed diagrams chosen) (among : Among diagrams d) :
    ∃ later, (choose d).run chosen = pure (d, later) := by
  cases found : chosen[d.shape]? with
  | some c =>
      obtain rfl := unrivalled.eq_of_some coherent closed among found
      exact ⟨chosen, choose_of_some found⟩
  | none => exact ⟨_, choose_of_none found⟩

/-- What is known of a compression is known of the run that took place. -/
theorem compresses_of_run (made : Made supply diagrams) (closed : Closed diagrams chosen)
    (among : Among diagrams d) {result : Detached} {later : Representatives} {after : Supply}
    (run : (d.compress.run chosen).run supply = ((result, later), after)) :
    ∃ more, Made after more ∧ diagrams ⊆ more ∧ Compresses d chosen result later more := by
  obtain ⟨_, _, more, other, madeLater, kept, compresses⟩ := compress_makes made closed among
  cases run.symm.trans other
  exact ⟨more, madeLater, kept, compresses⟩

/-- An unrivalled diagram is compressed to itself, and no stamp is drawn. -/
theorem Unrivalled.compress (unrivalled : Unrivalled chosen d) (made : Made supply diagrams)
    (closed : Closed diagrams chosen) (among : Among diagrams d) :
    ∃ later, (d.compress.run chosen).run supply = ((d, later), supply) := by
  induction d generalizing diagrams chosen with
  | leaf s value =>
      cases found : chosen[(leaf s value).shape]? with
      | some c =>
          obtain rfl := unrivalled.eq_of_some made.coherent closed among found
          exact ⟨chosen, congrArg (StateT.run · supply) (compress_of_some found)⟩
      | none =>
          obtain ⟨later, run⟩ := unrivalled.choose made.coherent closed among
          rw [compress_leaf_of_none found, run]
          exact ⟨later, rfl⟩
  | node s var high low ihHigh ihLow =>
      cases found : chosen[(node s var high low).shape]? with
      | some c =>
          obtain rfl := unrivalled.eq_of_some made.coherent closed among found
          exact ⟨chosen, congrArg (StateT.run · supply) (compress_of_some found)⟩
      | none =>
          have onHigh : Part high (node s var high low) := .high .self
          have onLow : Part low (node s var high low) := .low .self
          obtain ⟨first, runHigh⟩ := ihHigh (unrivalled.part onHigh) made closed among.high
          obtain ⟨more, madeFirst, kept, compressedHigh⟩ :=
            compresses_of_run made closed among.high runHigh
          have amongFirst := among.mono kept
          have unrivalledFirst := unrivalled.later onHigh compressedHigh
          obtain ⟨second, runLow⟩ := ihLow (unrivalledFirst.part onLow) madeFirst
            compressedHigh.closed amongFirst.low
          obtain ⟨most, madeSecond, keptMore, compressedLow⟩ :=
            compresses_of_run madeFirst compressedHigh.closed amongFirst.low runLow
          obtain ⟨later, run⟩ := (unrivalledFirst.later onLow compressedLow).choose
            madeSecond.coherent compressedLow.closed (amongFirst.mono keptMore)
          refine ⟨later, ?_⟩
          rw [compress_node_of_none found, run_bind_of_run runHigh, run_bind_of_run runLow,
            renew_self, pure_bind, run]
          rfl

/-- Compression brings the very diagram if and only if no part of it has a rival. -/
theorem compress_same_iff (made : Made supply diagrams) (closed : Closed diagrams chosen)
    (among : Among diagrams d) :
    ((d.compress.run chosen).run supply).1.1.same d = true ↔ Unrivalled chosen d := by
  rcases run : (d.compress.run chosen).run supply with ⟨⟨result, later⟩, after⟩
  obtain ⟨more, madeLater, kept, compresses⟩ := compresses_of_run made closed among run
  have closedLater := compresses.closed
  change result.same d = true ↔ _
  rw [madeLater.coherent.same_iff (closedLater.among compresses.picked) (among.mono kept)]
  constructor
  · rintro rfl
    have pickedPart {x : Detached} (part : Part x result) : Picked later x :=
      closedLater.picked_part compresses.picked part
    exact ⟨fun first second => closedLater.eq_of_tree (pickedPart first) (pickedPart second),
      fun part picked => closedLater.eq_of_tree (pickedPart part) (compresses.kept _ picked)⟩
  · intro unrivalled
    obtain ⟨_, same⟩ := unrivalled.compress made closed among
    cases run.symm.trans same
    rfl

/-- Having no rival, in terms of structural equality and identity. -/
theorem unrivalled_iff (coherent : Coherent diagrams) (closed : Closed diagrams chosen)
    (among : Among diagrams d) :
    Unrivalled chosen d ↔
      (∀ x y, Part x d → Part y d → x.equals y = true → x.same y = true) ∧
        ∀ x, Part x d → ∀ (shape : Shape) (c : Detached), chosen[shape]? = some c →
          x.equals c = true → x.same c = true := by
  have rival_iff {x y : Detached} (amongX : Among diagrams x) (amongY : Among diagrams y) :
      (x.equals y = true → x.same y = true) ↔ (x.tree = y.tree → x = y) :=
    imp_congr (equals_iff coherent amongX amongY) (coherent.same_iff amongX amongY)
  constructor
  · intro unrivalled
    refine ⟨fun x y partX partY => ?_, fun x part shape c found => ?_⟩
    · exact (rival_iff (among.part partX) (among.part partY)).mpr (unrivalled.within partX partY)
    · have picked := closed.picked found
      exact (rival_iff (among.part part) (closed.among picked)).mpr (unrivalled.chosen part picked)
  · rintro ⟨within, stored⟩
    refine ⟨fun {x y} partX partY => ?_, fun {x c} part picked => ?_⟩
    · exact (rival_iff (among.part partX) (among.part partY)).mp (within x y partX partY)
    · exact (rival_iff (among.part part) (closed.among picked)).mp (stored x part c.shape c picked)

end Runs

end Detached

namespace Bench

open Detached

/--
At a reached bench, compressing a diagram with the table brings the very diagram if and only if no
two instances of it are structurally equal, and none is so to another instance in the table.
-/
theorem Reached.keeps_unrivalled {b : Bench} (reached : b.Reached) {d : Detached}
    (held : d ∈ b.diagrams) :
    ((d.compress.run b.chosen).run b.supply).1.1.same d = true ↔
      (∀ x y, Part x d → Part y d → x.equals y = true → x.same y = true) ∧
        ∀ x, Part x d → ∀ (shape : Shape) (c : Detached), b.chosen[shape]? = some c →
          x.equals c = true → x.same c = true := by
  obtain ⟨family, sound⟩ := reached.sound
  have among : Among family d := .self (sound.held held)
  exact (compress_same_iff sound.made sound.closed among).trans
    (unrivalled_iff sound.made.coherent sound.closed among)

/-- Two instances of a literal, the first of which was compressed. -/
def firstCopy : Bench :=
  copies.compress (literal 2 2)

theorem keeps_unrivalled_firstCopy :
    firstCopy.Reached ∧ (literal 2 2 ∈ firstCopy.diagrams ∧ literal 3 2 ∈ firstCopy.diagrams) ∧
      (∀ x, Part x (literal 2 2) → ∀ (shape : Shape) (c : Detached),
        firstCopy.chosen[shape]? = some c → x.equals c = true → x.same c = true) ∧
      ¬ ((∀ x y, Part x (literal 3 2) → Part y (literal 3 2) → x.equals y = true →
          x.same y = true) ∧
        ∀ x, Part x (literal 3 2) → ∀ (shape : Shape) (c : Detached),
          firstCopy.chosen[shape]? = some c → x.equals c = true → x.same c = true) := by
  have reached : firstCopy.Reached := reached_copies.compress (.tail _ (.tail _ (.head _)))
  have first : literal 2 2 ∈ firstCopy.diagrams := .tail _ (.tail _ (.tail _ (.head _)))
  have second : literal 3 2 ∈ firstCopy.diagrams := .tail _ (.tail _ (.head _))
  have kept : (((literal 2 2).compress.run firstCopy.chosen).run firstCopy.supply).1.1.same
      (literal 2 2) = true := by decide +kernel
  have replaced : ¬ (((literal 3 2).compress.run firstCopy.chosen).run
      firstCopy.supply).1.1.same (literal 3 2) = true := by decide +kernel
  exact ⟨reached, ⟨first, second⟩, ((reached.keeps_unrivalled first).mp kept).2,
    mt (reached.keeps_unrivalled second).mpr replaced⟩

end Bench

end DecisionDiagram
