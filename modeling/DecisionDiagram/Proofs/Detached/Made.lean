import Mathlib.Data.List.Basic
import Std.Data.TreeMap
import DecisionDiagram.Detached.Basic

/-!
# Making detached diagrams

The diagrams made from one supply form a coherent family whose stamps have all
been drawn and that knows no variable zero. A program that draws stamps extends
such a family by what it makes, and programs in sequence extend it in turn. What
a program notes about instances by their stamps stays right while the family
grows.
-/

namespace DecisionDiagram.Detached

def Among (diagrams : List Detached) (x : Detached) : Prop :=
  ∃ d ∈ diagrams, Part x d

/-- The diagrams were made with the stamps that the supply has given away. -/
structure Made (supply : Supply) (diagrams : List Detached) : Prop where
  coherent : Coherent diagrams
  drawn : ∀ d ∈ diagrams, d.Drawn supply
  proper : ∀ d ∈ diagrams, d.Proper

/-! ## Instances of a family -/

theorem Among.self {diagrams : List Detached} {d : Detached} (held : d ∈ diagrams) :
    Among diagrams d :=
  ⟨d, held, .self⟩

theorem Among.mono {diagrams more : List Detached} {x : Detached} (among : Among diagrams x)
    (kept : diagrams ⊆ more) : Among more x := by
  obtain ⟨d, held, inside⟩ := among
  exact ⟨d, kept held, inside⟩

theorem Among.part {diagrams : List Detached} {x y : Detached} (among : Among diagrams y)
    (inside : Part x y) : Among diagrams x := by
  obtain ⟨d, held, outside⟩ := among
  exact ⟨d, held, inside.trans outside⟩

theorem Among.high {diagrams : List Detached} {stamp var : Nat} {high low : Detached}
    (among : Among diagrams (node stamp var high low)) : Among diagrams high :=
  among.part (.high .self)

theorem Among.low {diagrams : List Detached} {stamp var : Nat} {high low : Detached}
    (among : Among diagrams (node stamp var high low)) : Among diagrams low :=
  among.part (.low .self)

/-- Diagrams with equal trees have parts with equal trees. -/
theorem Part.of_tree_eq {x a b : Detached} (inside : Part x a) (same : a.tree = b.tree) :
    ∃ y, Part y b ∧ y.tree = x.tree := by
  induction inside generalizing b with
  | self => exact ⟨b, .self, same.symm⟩
  | high _ ih =>
      cases b with
      | leaf t y => cases same
      | node t w highB lowB =>
          obtain ⟨y, inside, equal⟩ := ih (Tree.node.inj same).2.1
          exact ⟨y, .high inside, equal⟩
  | low _ ih =>
      cases b with
      | leaf t y => cases same
      | node t w highB lowB =>
          obtain ⟨y, inside, equal⟩ := ih (Tree.node.inj same).2.2
          exact ⟨y, .low inside, equal⟩

/-- Stamps tell the instances of a coherent family apart. -/
theorem Coherent.eq {diagrams : List Detached} (coherent : Coherent diagrams) {x y : Detached}
    (amongX : Among diagrams x) (amongY : Among diagrams y) (same : x.stamp = y.stamp) : x = y := by
  obtain ⟨d, heldD, insideD⟩ := amongX
  obtain ⟨e, heldE, insideE⟩ := amongY
  exact coherent d heldD e heldE x y insideD insideE same

theorem Coherent.same_iff {diagrams : List Detached} (coherent : Coherent diagrams)
    {x y : Detached} (amongX : Among diagrams x) (amongY : Among diagrams y) :
    x.same y = true ↔ x = y := by
  constructor
  · intro same
    exact coherent.eq amongX amongY (of_decide_eq_true same)
  · rintro rfl
    exact decide_eq_true rfl

namespace Made

variable {supply : Supply} {diagrams : List Detached}

theorem nil (supply : Supply) : Made supply [] :=
  ⟨fun _ held => absurd held List.not_mem_nil, fun _ held => absurd held List.not_mem_nil,
    fun _ held => absurd held List.not_mem_nil⟩

theorem stamp_lt (made : Made supply diagrams) {x : Detached} (among : Among diagrams x) :
    x.stamp < supply.next := by
  obtain ⟨d, held, inside⟩ := among
  exact made.drawn d held x inside

theorem var_ne_zero (made : Made supply diagrams) {stamp var : Nat} {high low : Detached}
    (among : Among diagrams (node stamp var high low)) : var ≠ 0 := by
  obtain ⟨d, held, inside⟩ := among
  exact made.proper d held stamp var high low inside

theorem mono (made : Made supply diagrams) {later : Supply} (le : supply.next ≤ later.next) :
    Made later diagrams :=
  ⟨made.coherent, fun d held => (made.drawn d held).mono le, made.proper⟩

theorem subset (made : Made supply diagrams) {some : List Detached} (inside : some ⊆ diagrams) :
    Made supply some :=
  ⟨fun d heldD e heldE => made.coherent d (inside heldD) e (inside heldE),
    fun d held => made.drawn d (inside held), fun d held => made.proper d (inside held)⟩

/-- A part of a diagram at hand may be taken for a diagram at hand. -/
theorem cons_part (made : Made supply diagrams) {x : Detached} (among : Among diagrams x) :
    Made supply (x :: diagrams) := by
  have back {d y : Detached} (held : d ∈ x :: diagrams) (inside : Part y d) : Among diagrams y := by
    rcases List.mem_cons.mp held with rfl | held
    · exact among.part inside
    · exact ⟨d, held, inside⟩
  exact ⟨fun d heldD e heldE y z insideD insideE same =>
      made.coherent.eq (back heldD insideD) (back heldE insideE) same,
    fun d held y inside => made.stamp_lt (back held inside),
    fun d held stamp var high low inside => made.var_ne_zero (back held inside)⟩

/-- A new instance bears the next stamp and has parts at hand for its branches. -/
theorem cons_new (made : Made supply diagrams) {d : Detached} (stamp : d.stamp = supply.next)
    (parts : ∀ x, Part x d → x = d ∨ Among diagrams x)
    (proper : ∀ stamp var high low, d = node stamp var high low → var ≠ 0) :
    Made ⟨supply.next + 1⟩ (d :: diagrams) := by
  have back {e x : Detached} (held : e ∈ d :: diagrams) (inside : Part x e) :
      x = d ∨ Among diagrams x := by
    rcases List.mem_cons.mp held with rfl | held
    · exact parts x inside
    · exact Or.inr ⟨e, held, inside⟩
  refine ⟨?_, ?_, ?_⟩
  · intro e heldE f heldF x y insideX insideY same
    rcases back heldE insideX with rfl | amongX
    · rcases back heldF insideY with rfl | amongY
      · rfl
      · exact absurd (same.symm.trans stamp) (Nat.ne_of_lt (made.stamp_lt amongY))
    · rcases back heldF insideY with rfl | amongY
      · exact absurd (same.trans stamp) (Nat.ne_of_lt (made.stamp_lt amongX))
      · exact made.coherent.eq amongX amongY same
  · intro e held x inside
    rcases back held inside with rfl | among
    · exact stamp ▸ Nat.lt_succ_self _
    · exact Nat.lt_succ_of_lt (made.stamp_lt among)
  · intro e held stamp var high low inside
    rcases back held inside with same | among
    · exact proper stamp var high low same.symm
    · exact made.var_ne_zero among

theorem cons_leaf (made : Made supply diagrams) (value : Bool) :
    Made ⟨supply.next + 1⟩ (leaf supply.next value :: diagrams) := by
  refine made.cons_new rfl ?_ ?_
  · intro x inside
    cases inside with
    | self => exact Or.inl rfl
  · intro stamp var high low same
    cases same

theorem cons_node (made : Made supply diagrams) {var : Nat} {high low : Detached} (ne : var ≠ 0)
    (onTrue : Among diagrams high) (onFalse : Among diagrams low) :
    Made ⟨supply.next + 1⟩ (node supply.next var high low :: diagrams) := by
  refine made.cons_new rfl ?_ ?_
  · intro x inside
    cases inside with
    | self => exact Or.inl rfl
    | high inside => exact Or.inr (onTrue.part inside)
    | low inside => exact Or.inr (onFalse.part inside)
  · intro stamp top onHigh onLow same
    cases same
    exact ne

end Made

/-! ## Programs -/

/-- The decision itself if its branches are the given ones, or else one made with these. -/
def renew (s var : Nat) (high low onTrue onFalse : Detached) : Stamping Detached :=
  if onTrue.same high && onFalse.same low then pure (node s var high low)
  else newNode var onTrue onFalse

theorem renew_self (s var : Nat) (high low : Detached) :
    renew s var high low high low = pure (node s var high low) := by
  rw [renew, if_pos]
  simp [same]

theorem run_bind_of_run {α β : Type} {x : Stamping α} {next : α → Stamping β}
    {supply later : Supply} {a : α} (run : x.run supply = (a, later)) :
    (x >>= next).run supply = (next a).run later := by
  rw [StateT.run_bind, run]
  rfl

/-- The program extends the family, and its result meets the condition there. -/
def Makes {α : Type} (x : Stamping α) (supply : Supply) (diagrams : List Detached)
    (post : α → List Detached → Prop) : Prop :=
  ∃ a later more, x.run supply = (a, later) ∧ Made later more ∧ diagrams ⊆ more ∧ post a more

namespace Makes

variable {α β : Type} {supply : Supply} {diagrams : List Detached}

theorem pure (made : Made supply diagrams) {post : α → List Detached → Prop} {a : α}
    (done : post a diagrams) : Makes (Pure.pure a) supply diagrams post :=
  ⟨a, supply, diagrams, rfl, made, List.Subset.refl _, done⟩

theorem bind {x : Stamping α} {next : α → Stamping β} {post : α → List Detached → Prop}
    {goal : β → List Detached → Prop} (first : Makes x supply diagrams post)
    (rest : ∀ {a later more}, Made later more → diagrams ⊆ more → post a more →
      Makes (next a) later more goal) : Makes (x >>= next) supply diagrams goal := by
  obtain ⟨a, later, more, run, made, kept, done⟩ := first
  obtain ⟨b, last, most, runRest, madeRest, keptRest, doneRest⟩ := rest made kept done
  exact ⟨b, last, most, (run_bind_of_run run).trans runRest, madeRest,
    List.Subset.trans kept keptRest, doneRest⟩

theorem mono {x : Stamping α} {post goal : α → List Detached → Prop}
    (makes : Makes x supply diagrams post)
    (implies : ∀ {a more}, diagrams ⊆ more → post a more → goal a more) :
    Makes x supply diagrams goal := by
  obtain ⟨a, later, more, run, made, kept, done⟩ := makes
  exact ⟨a, later, more, run, made, kept, implies kept done⟩

theorem newLeaf (made : Made supply diagrams) (value : Bool) :
    Makes (newLeaf value) supply diagrams fun d more =>
      d ∈ more ∧ ∃ stamp, d = leaf stamp value :=
  ⟨leaf supply.next value, ⟨supply.next + 1⟩, _, rfl, made.cons_leaf value,
    List.subset_cons_self _ _, List.mem_cons_self, _, rfl⟩

theorem newNode (made : Made supply diagrams) {var : Nat} {high low : Detached} (ne : var ≠ 0)
    (onTrue : Among diagrams high) (onFalse : Among diagrams low) :
    Makes (newNode var high low) supply diagrams fun d more =>
      d ∈ more ∧ ∃ stamp, d = node stamp var high low :=
  ⟨node supply.next var high low, ⟨supply.next + 1⟩, _, rfl, made.cons_node ne onTrue onFalse,
    List.subset_cons_self _ _, List.mem_cons_self, _, rfl⟩

/-- A decision with new branches is made anew, unless these are the old ones. -/
theorem renew (made : Made supply diagrams) {s var : Nat} {high low onTrue onFalse : Detached}
    (among : Among diagrams (node s var high low)) (amongTrue : Among diagrams onTrue)
    (amongFalse : Among diagrams onFalse) :
    Makes (renew s var high low onTrue onFalse) supply diagrams fun d more =>
      Among more d ∧ ∃ stamp, d = node stamp var onTrue onFalse := by
  unfold Detached.renew
  split
  next kept =>
    obtain ⟨keptHigh, keptLow⟩ := Bool.and_eq_true_iff.mp kept
    obtain rfl := (made.coherent.same_iff amongTrue among.high).mp keptHigh
    obtain rfl := (made.coherent.same_iff amongFalse among.low).mp keptLow
    exact .pure made ⟨among, s, rfl⟩
  next =>
    refine (newNode made (made.var_ne_zero among) amongTrue amongFalse).mono ?_
    rintro d more _ ⟨held, stamp, rfl⟩
    exact ⟨.self held, stamp, rfl⟩

end Makes

/-! ## Notes -/

section Notes

variable {κ β : Type} [Ord κ] [Std.TransOrd κ] [Std.LawfulEqOrd κ] {notes : Std.TreeMap κ β}
  {key other : κ} {note found : β}

theorem of_getElem?_insert (stored : (notes.insert key note)[other]? = some found) :
    key = other ∧ note = found ∨ notes[other]? = some found := by
  rw [Std.TreeMap.getElem?_insert] at stored
  split at stored
  next same => exact Or.inl ⟨Std.LawfulEqOrd.eq_of_compare same, Option.some.inj stored⟩
  next => exact Or.inr stored

theorem getElem?_insert_of_none (missing : notes[key]? = none)
    (stored : notes[other]? = some found) : (notes.insert key note)[other]? = some found := by
  have differ : ¬ compare key other = .eq := by
    intro same
    rw [Std.LawfulEqOrd.eq_of_compare same, stored] at missing
    cases missing
  rw [Std.TreeMap.getElem?_insert, if_neg differ, stored]

end Notes

/-- Every note is about an instance of the family that bears the stamp, and is right about it. -/
def Noted {β : Type} (diagrams : List Detached) (right : Detached → β → Prop)
    (notes : Std.TreeMap Nat β) : Prop :=
  ∀ s note, notes[s]? = some note → ∃ x, Among diagrams x ∧ x.stamp = s ∧ right x note

namespace Noted

variable {β : Type} {diagrams : List Detached} {right : Detached → β → Prop}
  {notes : Std.TreeMap Nat β}

theorem empty (diagrams : List Detached) (right : Detached → β → Prop) :
    Noted diagrams right ∅ := by
  intro s note stored
  simp at stored

theorem mono {more : List Detached} {still : Detached → β → Prop}
    (noted : Noted diagrams right notes) (kept : diagrams ⊆ more)
    (implies : ∀ {x note}, right x note → still x note) : Noted more still notes := by
  intro s note stored
  obtain ⟨x, among, same, correct⟩ := noted s note stored
  exact ⟨x, among.mono kept, same, implies correct⟩

theorem insert (noted : Noted diagrams right notes) {d : Detached} (among : Among diagrams d)
    {note : β} (correct : right d note) : Noted diagrams right (notes.insert d.stamp note) := by
  intro s other stored
  rcases of_getElem?_insert stored with ⟨same, rfl⟩ | old
  · exact ⟨d, among, same, correct⟩
  · exact noted s other old

/-- In a coherent family, a note about a stamp is about the instance that bears it. -/
theorem of_some (noted : Noted diagrams right notes) (coherent : Coherent diagrams)
    {d : Detached} (among : Among diagrams d) {note : β} (stored : notes[d.stamp]? = some note) :
    right d note := by
  obtain ⟨x, amongX, same, correct⟩ := noted d.stamp note stored
  obtain rfl := coherent.eq amongX among same
  exact correct

end Noted

end DecisionDiagram.Detached
