import Mathlib.Data.Set.Function
import DecisionDiagram.Proofs.Detached.Redundancy

/-!
# What reduction keeps

A diagram in which no decision is redundant is reduced to itself, and no stamp is drawn for it. What
a decision is reduced to is a part of it, unless it is new, and each stamp that is drawn belongs to
the result of a decision of its own. So a reduction keeps the very instances in which there is
nothing to leave out, and makes at most one instance for each of the others.
-/

namespace DecisionDiagram.Detached

/-! ## Irredundant diagrams -/

/-- No decision that the diagram reaches has structurally equal branches. -/
def Irredundant (d : Detached) : Prop :=
  ∀ stamp var high low, Part (node stamp var high low) d → high.equals low = false

/-- Irredundant diagrams are those with reduced trees. -/
theorem Coherent.irredundant_iff {diagrams : List Detached} (coherent : Coherent diagrams)
    {d : Detached} (among : Among diagrams d) : d.Irredundant ↔ d.tree.Reduced := by
  constructor
  · intro irredundant
    induction d with
    | leaf s value => trivial
    | node s var high low ihHigh ihLow =>
        have unequal := Bool.eq_false_iff.mp (irredundant s var high low .self)
        refine ⟨mt (equals_iff coherent among.high among.low).mpr unequal, ?_, ?_⟩
        · exact ihHigh among.high fun t w a b inside => irredundant t w a b (.high inside)
        · exact ihLow among.low fun t w a b inside => irredundant t w a b (.low inside)
  · intro reduced stamp var high low inside
    exact coherent.branches_not_equal among reduced inside

/-! ## Reduction of reduced diagrams -/

theorem reduce_of_run {d result : Detached} {notes : Reduced} {supply later : Supply}
    (run : (d.reduceFrom.run ∅).run supply = ((result, notes), later)) :
    d.reduce.run supply = (result, later) := by
  change (Prod.fst <$> d.reduceFrom.run ∅).run supply = _
  rw [map_eq_pure_bind, run_bind_of_run run]
  rfl

theorem rejoin_self {diagrams : List Detached} (coherent : Coherent diagrams) {s var : Nat}
    {high low : Detached} (among : Among diagrams (node s var high low))
    (ne : high.tree ≠ low.tree) : rejoin s var high low high low = pure (node s var high low) := by
  rw [rejoin, if_neg (mt (equals_iff coherent among.high among.low).mp ne), renew_self]

/-- What is noted about diagrams with reduced trees is that they are results themselves. -/
def Retains (diagrams : List Detached) (notes : Reduced) : Prop :=
  Noted diagrams (fun x result => x.tree.Reduced → result = x) notes

theorem reduceFrom_of_reduced {diagrams : List Detached} (coherent : Coherent diagrams)
    {d : Detached} (among : Among diagrams d) (reduced : d.tree.Reduced) {notes : Reduced}
    (retains : Retains diagrams notes) (supply : Supply) :
    ∃ later, (d.reduceFrom.run notes).run supply = ((d, later), supply) ∧
      Retains diagrams later := by
  induction d generalizing notes with
  | leaf s value => exact ⟨notes, rfl, retains⟩
  | node s var high low ihHigh ihLow =>
      cases stored : notes[s]? with
      | some result =>
          obtain rfl := retains.of_some coherent among stored reduced
          exact ⟨notes, congrArg (StateT.run · supply) (reduceFrom_of_some stored), retains⟩
      | none =>
          obtain ⟨first, runHigh, retainsFirst⟩ := ihHigh among.high reduced.2.1 retains
          obtain ⟨second, runLow, retainsSecond⟩ := ihLow among.low reduced.2.2 retainsFirst
          refine ⟨second.insert s (node s var high low), ?_,
            retainsSecond.insert among fun _ => rfl⟩
          rw [reduceFrom_of_none stored, run_bind_of_run runHigh, run_bind_of_run runLow,
            rejoin_self coherent among reduced.1, pure_bind]
          rfl

/-- A diagram with a reduced tree is reduced to itself, whatever stamps there are. -/
theorem reduce_of_reduced {diagrams : List Detached} (coherent : Coherent diagrams)
    {d : Detached} (among : Among diagrams d) (reduced : d.tree.Reduced) (supply : Supply) :
    d.reduce.run supply = (d, supply) := by
  obtain ⟨later, run, _⟩ := reduceFrom_of_reduced coherent among reduced (.empty diagrams _) supply
  exact reduce_of_run run

/-! ## New instances -/

/-- The result is a part of the diagram, or it is new: its stamp is one of those from `start` on. -/
def Renews (start : Nat) (d result : Detached) : Prop :=
  Part result d ∨ start ≤ result.stamp

theorem Renews.mono {start : Nat} {d e result : Detached} (renews : Renews start d result)
    (inside : Part d e) : Renews start e result :=
  renews.imp (·.trans inside) id

/-- The result is a part or new, and a diagram with a reduced tree is its own result. -/
def Follows (start : Nat) (d result : Detached) : Prop :=
  Renews start d result ∧ (d.tree.Reduced → result = d)

/-- Each stamp drawn between the two supplies is that of a noted result. -/
def Credited (supply later : Supply) (notes : Reduced) : Prop :=
  ∀ t, supply.next ≤ t → t < later.next →
    ∃ (s : Nat) (result : Detached), notes[s]? = some result ∧ result.stamp = t

theorem Credited.trans {supply middle later : Supply} {notes : Reduced}
    (first : Credited supply middle notes) (second : Credited middle later notes) :
    Credited supply later notes := by
  intro t lower upper
  rcases Nat.lt_or_ge t middle.next with before | after
  · exact first t lower before
  · exact second t after upper

theorem Credited.mono {supply later : Supply} {notes more : Reduced}
    (credited : Credited supply later notes)
    (kept : ∀ {s : Nat} {r : Detached}, notes[s]? = some r → more[s]? = some r) :
    Credited supply later more := by
  intro t lower upper
  obtain ⟨s, result, noted, stamp⟩ := credited t lower upper
  exact ⟨s, result, kept noted, stamp⟩

/-- A rejoined decision is its high branch reduced, or itself, or else it bears the next stamp. -/
theorem rejoin_cases {s var : Nat} {high low onTrue onFalse result : Detached}
    {supply later : Supply}
    (run : (rejoin s var high low onTrue onFalse).run supply = (result, later)) :
    (result = onTrue ∨ result = node s var high low) ∧ later = supply ∨
      result.stamp = supply.next ∧ later = ⟨supply.next + 1⟩ := by
  unfold rejoin renew at run
  split at run
  · cases run
    exact Or.inl ⟨Or.inl rfl, rfl⟩
  split at run
  · cases run
    exact Or.inl ⟨Or.inr rfl, rfl⟩
  · cases run
    exact Or.inr ⟨rfl, rfl⟩

/-- What a reduction makes, and which notes account for the stamps that it draws. -/
structure Renewing (start : Nat) (family : List Detached) (supply : Supply) (d : Detached)
    (result : Detached × Reduced) (later : Supply) : Prop where
  le : supply.next ≤ later.next
  renews : Renews start d result.1
  noted : Noted family (Follows start) result.2
  credited : Credited supply later result.2

section Renewing

variable {start : Nat} {family : List Detached}

/-- Once its branches are reduced, a decision is noted, along with the stamp drawn for it. -/
theorem Renewing.node {supply middle last later : Supply} {s var : Nat}
    {high low onTrue onFalse result : Detached} {first second : Reduced}
    (among : Among family (node s var high low)) (begun : start ≤ supply.next)
    (missing : second[s]? = none)
    (keptFirst : ∀ {t : Nat} {r : Detached}, first[t]? = some r → second[t]? = some r)
    (renewingHigh : Renewing start family supply high (onTrue, first) middle)
    (renewingLow : Renewing start family middle low (onFalse, second) last)
    (run : (rejoin s var high low onTrue onFalse).run last = (result, later))
    (same : (Detached.node s var high low).tree.Reduced → result = .node s var high low) :
    Renewing start family supply (node s var high low) (result, second.insert s result) later := by
  have le := Nat.le_trans renewingHigh.le renewingLow.le
  have keptAll {t : Nat} {r : Detached} (noted : second[t]? = some r) :
      (second.insert s result)[t]? = some r := getElem?_insert_of_none missing noted
  have credited : Credited supply last (second.insert s result) :=
    (renewingHigh.credited.mono fun noted => keptAll (keptFirst noted)).trans
      (renewingLow.credited.mono keptAll)
  rcases rejoin_cases run with ⟨old, rfl⟩ | ⟨stamp, rfl⟩
  · have renews : Renews start (Detached.node s var high low) result := by
      rcases old with rfl | rfl
      · exact renewingHigh.renews.mono (.high .self)
      · exact Or.inl .self
    exact ⟨le, renews, renewingLow.noted.insert among ⟨renews, same⟩, credited⟩
  · have renews : Renews start (Detached.node s var high low) result :=
      Or.inr (stamp ▸ Nat.le_trans begun le)
    refine ⟨Nat.le_succ_of_le le, renews, renewingLow.noted.insert among ⟨renews, same⟩, ?_⟩
    intro t lower upper
    rcases Nat.lt_succ_iff_lt_or_eq.mp upper with before | rfl
    · exact credited t lower before
    · exact ⟨s, result, Std.TreeMap.getElem?_insert_self, stamp⟩

theorem reduceFrom_renews (coherent : Coherent family) {d result : Detached}
    (amongFamily : Among family d) {supply later : Supply} (begun : start ≤ supply.next)
    {diagrams : List Detached} (made : Made supply diagrams) (among : Among diagrams d)
    {notes after : Reduced}
    (noted : Noted diagrams (fun x r => Reduces diagrams x r ∧ Stems notes x r) notes)
    (renewed : Noted family (Follows start) notes)
    (run : (d.reduceFrom.run notes).run supply = ((result, after), later)) :
    Renewing start family supply d (result, after) later := by
  -- The notes are about parts of the diagram, so they stay in the family that it came from.
  induction d generalizing result supply later diagrams notes after with
  | leaf s value =>
      cases run
      exact ⟨Nat.le_refl _, Or.inl .self, renewed, fun t lower upper => by omega⟩
  | node s var high low ihHigh ihLow =>
      cases stored : notes[s]? with
      | some found =>
          rw [reduceFrom_of_some stored] at run
          cases run
          exact ⟨Nat.le_refl _, (renewed.of_some coherent amongFamily stored).1, renewed,
            fun t lower upper => by omega⟩
      | none =>
          have same (reduced : (node s var high low).tree.Reduced) :
              result = node s var high low := by
            have retains : Retains family notes := renewed.mono (List.Subset.refl _) And.right
            obtain ⟨_, runSame, _⟩ :=
              reduceFrom_of_reduced coherent amongFamily reduced retains supply
            cases run.symm.trans runSame
            rfl
          obtain ⟨⟨onTrue, first⟩, middle, more, runHigh, madeFirst, kept, reducingHigh⟩ :=
            reduceFrom_makes made among.high noted
          have amongFirst := among.mono kept
          obtain ⟨⟨onFalse, second⟩, last, most, runLow, _, _, reducingLow⟩ :=
            reduceFrom_makes madeFirst amongFirst.low reducingHigh.noted
          have renewingHigh := ihHigh amongFamily.high begun made among.high noted renewed runHigh
          have renewingLow := ihLow amongFamily.low (Nat.le_trans begun renewingHigh.le) madeFirst
            amongFirst.low reducingHigh.noted renewingHigh.noted runLow
          rcases rejoined : (rejoin s var high low onTrue onFalse).run last with ⟨outcome, final⟩
          rw [reduceFrom_of_none stored, run_bind_of_run runHigh, run_bind_of_run runLow,
            run_bind_of_run rejoined] at run
          cases run
          exact .node amongFamily begun
            (Reducing.missing made.coherent stored among reducingHigh reducingLow)
            reducingLow.kept renewingHigh renewingLow rejoined same

end Renewing

/-! ## Whole reductions -/

theorem reduce_renews {supply : Supply} {diagrams : List Detached} (made : Made supply diagrams)
    {d : Detached} (among : Among diagrams d) :
    ∃ result notes later more, d.reduce.run supply = (result, later) ∧ Made later more ∧
      diagrams ⊆ more ∧ Reducing more ∅ d (result, notes) ∧
      Renewing supply.next diagrams supply d (result, notes) later := by
  obtain ⟨⟨result, notes⟩, later, more, run, madeLater, kept, reducing⟩ :=
    reduceFrom_makes made among (.empty diagrams _)
  have renewing := reduceFrom_renews made.coherent among (Nat.le_refl _) made among
    (.empty diagrams _) (.empty diagrams _) run
  exact ⟨result, notes, later, more, reduce_of_run run, madeLater, kept, reducing, renewing⟩

namespace Renewing

variable {start : Nat} {family more : List Detached} {supply later : Supply} {d result : Detached}
  {notes : Reduced}

/-- All parts of the result are parts of the diagram or new. -/
theorem part (renewing : Renewing start family supply d (result, notes) later)
    (reducing : Reducing more ∅ d (result, notes)) (coherent : Coherent family)
    (among : Among family d) {x : Detached} (inside : Part x result) : Renews start d x := by
  rcases reducing.stems x inside with ⟨s, stored⟩ | ⟨_, below⟩
  · rcases reducing.new stored with none | ⟨y, ⟨insideY, _⟩, rfl⟩
    · simp at none
    · have follows := renewing.noted.of_some coherent (among.part insideY) stored
      exact follows.1.mono insideY
  · exact Or.inl below

/-- Every stamp drawn is that of what some decision was reduced to, which was not reduced yet. -/
theorem exists_decision (renewing : Renewing supply.next family supply d (result, notes) later)
    (reducing : Reducing more ∅ d (result, notes)) (made : Made supply family)
    (among : Among family d) (coherent : Coherent more) (kept : family ⊆ more) (t : Nat)
    (drawn : t ∈ Set.Ico supply.next later.next) :
    ∃ x, (x ∈ d.decisions ∧ ¬ x.Irredundant) ∧
      ∃ r, notes[x.stamp]? = some r ∧ Reduces more x r ∧ r.stamp = t := by
  obtain ⟨s, r, stored, rfl⟩ := renewing.credited t drawn.1 drawn.2
  rcases reducing.new stored with none | ⟨x, inside, rfl⟩
  · simp at none
  · have amongX := among.part inside.1
    have reduces := (reducing.noted.of_some coherent (amongX.mono kept) stored).1
    have same := (renewing.noted.of_some made.coherent amongX stored).2
    refine ⟨x, ⟨inside, ?_⟩, r, stored, reduces, rfl⟩
    -- Otherwise the result would be the decision, whose stamp had been drawn before.
    rw [made.coherent.irredundant_iff amongX]
    intro reduced
    rw [same reduced] at drawn
    exact absurd (made.stamp_lt amongX) (Nat.not_lt_of_ge drawn.1)

/-- Different stamps were drawn for different decisions, since each has one result. -/
theorem exists_source (renewing : Renewing supply.next family supply d (result, notes) later)
    (reducing : Reducing more ∅ d (result, notes)) (made : Made supply family)
    (among : Among family d) (coherent : Coherent more) (kept : family ⊆ more) :
    ∃ source : Nat → Detached, Set.InjOn source (Set.Ico supply.next later.next) ∧
      (∀ t ∈ Set.Ico supply.next later.next, source t ∈ d.decisions ∧ ¬ (source t).Irredundant) ∧
      ∀ x, Part x result → x.stamp ∈ Set.Ico supply.next later.next →
        x.tree = (source x.stamp).tree.reduce := by
  have : Nonempty Detached := ⟨d⟩
  choose! source inside outcome stored reduces stamp using
    renewing.exists_decision reducing made among coherent kept
  refine ⟨source, ?_, inside, ?_⟩
  · intro t drawn u drawnToo same
    have outcomes := stored t drawn
    rw [same] at outcomes
    have equal : outcome t = outcome u := Option.some.inj (outcomes.symm.trans (stored u drawnToo))
    rw [← stamp t drawn, ← stamp u drawnToo, equal]
  · intro x part drawn
    have amongX : Among more x := reducing.reduces.1.part part
    obtain ⟨amongOutcome, reduced⟩ := reduces x.stamp drawn
    have equal : x = outcome x.stamp := coherent.eq amongX amongOutcome (stamp x.stamp drawn).symm
    exact (congrArg tree equal).trans reduced

end Renewing

/--
A reduction brings the very diagram if and only if no decision in it has structurally equal
branches; so the result is reduced to itself. What the result reaches are instances of the diagram in
which there is nothing to leave out, and new ones. Each new instance was made for a decision of its
own, in which there was something to leave out.
-/
theorem Made.retention {supply : Supply} {diagrams : List Detached} (made : Made supply diagrams)
    {d : Detached} (among : Among diagrams d) :
    ∃ result later, d.reduce.run supply = (result, later) ∧
      (result.same d = true ↔ d.Irredundant) ∧
      (∀ other, result.reduce.run other = (result, other)) ∧
      (∀ x, Part x result →
        Part x d ∧ x.Irredundant ∨ x.stamp ∈ Set.Ico supply.next later.next) ∧
      ∃ source : Nat → Detached, Set.InjOn source (Set.Ico supply.next later.next) ∧
        (∀ t ∈ Set.Ico supply.next later.next,
          source t ∈ d.decisions ∧ ¬ (source t).Irredundant) ∧
        ∀ x, Part x result → x.stamp ∈ Set.Ico supply.next later.next →
          x.tree = (source x.stamp).tree.reduce := by
  obtain ⟨result, notes, later, more, run, madeLater, kept, reducing, renewing⟩ :=
    reduce_renews made among
  obtain ⟨amongResult, reducedTree⟩ := id reducing.reduces
  have coherent := madeLater.coherent
  have reduced : result.tree.Reduced := reducedTree ▸ d.tree.reduced_reduce
  refine ⟨result, later, run, ?_, ?_, ?_,
    renewing.exists_source reducing made among coherent kept⟩
  · rw [coherent.same_iff amongResult (among.mono kept), made.coherent.irredundant_iff among]
    constructor
    · rintro rfl
      exact reduced
    · intro reducedD
      exact (Prod.mk.inj (run.symm.trans (reduce_of_reduced made.coherent among reducedD supply))).1
  · exact reduce_of_reduced coherent amongResult reduced
  · intro x inside
    have amongX := amongResult.part inside
    rcases renewing.part reducing made.coherent among inside with old | new
    · exact Or.inl ⟨old, (coherent.irredundant_iff amongX).mpr (inside.reduced reduced)⟩
    · exact Or.inr ⟨new, madeLater.stamp_lt amongX⟩

/-- A decision between a redundant one and a leaf. -/
def mixed : Detached :=
  .node 6 1 (.node 4 2 (Bench.literal 2 3) (Bench.literal 3 3)) (.leaf 0 true)

def mixing : Bench :=
  cascading.hold (mixed, ⟨7⟩)

theorem reached_mixing : mixing.Reached :=
  reached_cascading.decision (by decide : 1 ≠ 0) (.tail _ (.head _))
    (.tail _ (.tail _ (.tail _ (.tail _ (.tail _ (.head _))))))

theorem retention_mixed :
    Made ⟨7⟩ mixing.diagrams ∧ Among mixing.diagrams mixed ∧ ¬ mixed.Irredundant ∧
      ∃ result, mixed.reduce.run ⟨7⟩ = (result, ⟨8⟩) ∧ result.stamp = 7 ∧
        (∀ other, result.reduce.run other = (result, other)) ∧
        ∃ x ∈ mixed.decisions, ¬ x.Irredundant ∧ result.tree = x.tree.reduce := by
  have made : Made ⟨7⟩ mixing.diagrams := reached_mixing.made
  have among : Among mixing.diagrams mixed := .self (.head _)
  obtain ⟨result, later, run, same_iff, again, _, source, _, inside, reduced⟩ :=
    made.retention among
  have facts : (mixed.reduce.run ⟨7⟩).1.stamp = 7 ∧ (mixed.reduce.run ⟨7⟩).2.next = 8 := by
    decide +kernel
  rw [run] at facts
  obtain ⟨stamp, next⟩ : result.stamp = 7 ∧ later.next = 8 := facts
  obtain rfl : later = ⟨8⟩ := congrArg Supply.mk next
  have differ : ¬ result.same mixed = true := by
    rw [same, stamp]
    decide
  have drawn : result.stamp ∈ Set.Ico 7 8 := by
    rw [stamp]
    exact ⟨Nat.le_refl 7, Nat.lt_succ_self 7⟩
  obtain ⟨decision, redundant⟩ := inside result.stamp drawn
  exact ⟨made, among, mt same_iff.mpr differ, result, run, stamp, again, source result.stamp,
    decision, redundant, reduced result .self drawn⟩

end DecisionDiagram.Detached
