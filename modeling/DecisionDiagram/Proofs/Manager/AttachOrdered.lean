import DecisionDiagram.Proofs.Arena.Paths
import DecisionDiagram.Proofs.Manager.Attach
import DecisionDiagram.Proofs.Tree.Reduction

/-!
# Attaching an ordered diagram

If the variables of a diagram increase along every path, then so they do below each of its
decisions after reduction, and choice never has to reorder anything. Every step of attaching the
diagram is then a plain decision, which takes no notice of the computed table, and the result
unfolds to the reduced tree.
-/

namespace DecisionDiagram

namespace Manager

open Detached (Among Made Noted)

/-! ## Leaving the computed table alone -/

def recalling (m : Manager) (results : ComputedTable ComputedKey Ref) : Manager :=
  { m with computed := results }

/--
The program succeeds in the same way whatever the manager remembers, and neither the entries nor
the counts of look-ups change.
-/
structure Forgoes {α : Type} (x : ManagerM α) (m : Manager) (answer : α) (later : Manager) :
    Prop where
  ignores : ∀ results, x (m.recalling results) = .ok answer (later.recalling results)
  keeps : later.computed = m.computed

namespace Forgoes

variable {α β : Type} {x : ManagerM α} {m later last : Manager} {answer : α}

theorem pure (answer : α) (m : Manager) : Forgoes (Pure.pure answer) m answer m :=
  ⟨fun _ => rfl, rfl⟩

theorem run (forgoes : Forgoes x m answer later) : x m = .ok answer later := by
  have same : later.recalling m.computed = later := eq_of_parts rfl forgoes.keeps.symm rfl
  exact same ▸ forgoes.ignores m.computed

theorem bind {next : α → ManagerM β} {result : β} (first : Forgoes x m answer later)
    (rest : Forgoes (next answer) later result last) : Forgoes (x >>= next) m result last := by
  refine ⟨fun results => ?_, rest.keeps.trans first.keeps⟩
  rw [bind_ok (first.ignores results), rest.ignores results]

theorem congr {y : ManagerM α} (forgoes : Forgoes x m answer later)
    (same : ∀ results, y (m.recalling results) = x (m.recalling results)) :
    Forgoes y m answer later :=
  ⟨fun results => (same results).trans (forgoes.ignores results), forgoes.keeps⟩

end Forgoes

/-- A decision is made without the computed table. -/
theorem Sound.forgoes_decision {m : Manager} (sound : m.Sound) {var : Nat} {high low : Ref}
    (orders : m.arena.Orders var high low) :
    ∃ ref later, Forgoes (Manager.decision var high low) m ref later ∧ later.Sound ∧
      m.arena.decision var high low = (ref, later.arena) := by
  obtain ⟨ref, later, run, soundLater, made⟩ := sound.decision orders
  refine ⟨ref, later, ?_, soundLater, made⟩
  by_cases same : high = low
  · subst same
    cases (decision_of_eq m orders.var_ne_zero high).symm.trans run
    exact ⟨fun results => decision_of_eq _ orders.var_ne_zero high, rfl⟩
  · obtain ⟨inside, stored⟩ := decision_of_ne sound.unlimited same orders
    cases stored.symm.trans run
    refine ⟨fun results => ?_, computed_intern m _ inside⟩
    have stillOrders : (m.recalling results).arena.Orders var high low := orders
    have stillUnlimited : (m.recalling results).limit? = none := sound.unlimited
    obtain ⟨_, again⟩ := decision_of_ne stillUnlimited same stillOrders
    exact again

/-! ## Ordered diagrams -/

/-- The reference unfolds to the reduced tree of the diagram. -/
def Mirrors (m : Manager) (d : Detached) (ref : Ref) : Prop :=
  m.arena.Unfolds ref d.tree.reduce

structure Grafts (m : Manager) (diagrams : List Detached) (d : Detached) (ref : Ref)
    (attached : Attached) (later : Manager) : Prop where
  sound : later.Sound
  grown : m.arena.Extends later.arena
  mirrors : later.Mirrors d ref
  spans : m.arena.Spans ref later.arena
  noted : Noted diagrams later.Mirrors attached

/-- Reduced branches still come after their decision, so that choice need not reorder them. -/
theorem Grafts.choose {m middle last : Manager} {diagrams : List Detached} {supply : Supply}
    (made : Made supply diagrams) {s var : Nat} {high low : Detached}
    (among : Among diagrams (.node s var high low))
    (ordered : (Detached.node s var high low).tree.Ordered) {onTrue onFalse : Ref}
    {first second : Attached} (graftsHigh : m.Grafts diagrams high onTrue first middle)
    (graftsLow : middle.Grafts diagrams low onFalse second last) :
    ∃ ref later, Forgoes (Manager.choose var onTrue onFalse) last ref later ∧
      m.Grafts diagrams (.node s var high low) ref (second.insert s ref) later := by
  obtain ⟨⟨afterHigh, afterLow⟩, _, _⟩ := ordered
  have mirrorsHigh : last.Mirrors high onTrue := graftsHigh.mirrors.extend graftsLow.grown
  have orders : last.arena.Orders var onTrue onFalse :=
    ⟨made.var_ne_zero among, mirrorsHigh.admits afterHigh.reduce,
      graftsLow.mirrors.admits afterLow.reduce⟩
  obtain ⟨ref, later, forgoes, sound, decision⟩ := graftsLow.sound.forgoes_decision orders
  have proper := graftsLow.sound.proper
  have decided := Arena.decided proper orders decision
  have mirrors : later.Mirrors (.node s var high low) ref := by
    rw [Mirrors, Detached.tree, Tree.reduce]
    exact decided.unfolds proper mirrorsHigh graftsLow.mirrors
  refine ⟨ref, later, forgoes.congr fun _ => choose_of_orders orders, sound,
    (graftsHigh.grown.trans graftsLow.grown).trans decided.grown, mirrors,
    graftsHigh.spans.decision graftsLow.spans graftsLow.grown decided decision, ?_⟩
  have noted := graftsLow.noted.mono (List.Subset.refl _) fun unfolds =>
    unfolds.extend decided.grown
  exact noted.insert among mirrors

/-- An ordered diagram is attached without the computed table, whatever was attached before. -/
theorem Sound.graftFrom {m : Manager} (sound : m.Sound) {supply : Supply}
    {diagrams : List Detached} (made : Made supply diagrams) {d : Detached}
    (among : Among diagrams d) (ordered : d.tree.Ordered) {attached : Attached}
    (noted : Noted diagrams m.Mirrors attached) :
    ∃ ref notes later, Forgoes ((Manager.attachFrom d).run attached) m (ref, notes) later ∧
      m.Grafts diagrams d ref notes later := by
  induction d generalizing m attached with
  | leaf s value =>
      exact ⟨_, attached, m, ⟨fun _ => attachFrom_leaf s value attached _, rfl⟩, sound, .refl _,
        .leaf (sound.proper.leaf value), .refl _ _, noted⟩
  | node s var high low ihHigh ihLow =>
      cases stored : attached[s]? with
      | some ref =>
          exact ⟨ref, attached, m, ⟨fun _ => attachFrom_of_some stored _, rfl⟩, sound, .refl _,
            noted.of_some made.coherent among stored, .refl _ _, noted⟩
      | none =>
          obtain ⟨onTrue, first, middle, runHigh, graftsHigh⟩ :=
            ihHigh sound among.high ordered.2.1 noted
          obtain ⟨onFalse, second, last, runLow, graftsLow⟩ :=
            ihLow graftsHigh.sound among.low ordered.2.2 graftsHigh.noted
          obtain ⟨ref, later, run, grafts⟩ := graftsHigh.choose made among ordered graftsLow
          refine ⟨ref, second.insert s ref, later, ?_, grafts⟩
          rw [attachFrom_of_none stored]
          exact runHigh.bind (runLow.bind (run.bind (.pure _ later)))

/-- Attaching an ordered diagram leaves the computed table alone and spans what it makes. -/
theorem Sound.graft {m : Manager} (sound : m.Sound) {supply : Supply} {diagrams : List Detached}
    (made : Made supply diagrams) {d : Detached} (among : Among diagrams d)
    (ordered : d.tree.Ordered) :
    ∃ ref later, Forgoes (Manager.attach d) m ref later ∧ later.Sound ∧ m.arena.Extends later.arena ∧
      later.Mirrors d ref ∧ m.arena.Spans ref later.arena := by
  obtain ⟨ref, notes, later, run, grafts⟩ :=
    sound.graftFrom made among ordered (.empty diagrams m.Mirrors)
  exact ⟨ref, later, ⟨fun results => attach_of_run (run.ignores results), run.keeps⟩,
    grafts.sound, grafts.grown, grafts.mirrors, grafts.spans⟩

end Manager

end DecisionDiagram
