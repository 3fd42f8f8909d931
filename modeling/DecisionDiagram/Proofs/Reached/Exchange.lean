import DecisionDiagram.Proofs.Detached.Bench
import DecisionDiagram.Proofs.Detached.Reduction
import DecisionDiagram.Proofs.Detached.Topology
import DecisionDiagram.Proofs.Manager.Attach
import DecisionDiagram.Proofs.Manager.Detach
import DecisionDiagram.Proofs.Reached.Renaming

/-!
# Diagrams that leave and join reached managers

What is detached is the canonical form of the function that the reference
represents, whichever manager it comes from and whatever was done there. So a
diagram that was reduced outside all managers equals the one that a manager makes
of it, and detached diagrams tell whether references of different managers
represent one function.
-/

namespace DecisionDiagram.Manager

open Detached (Among Made Succeeds)

/-- Detaching the reference brings the diagram and leaves the later supply. -/
def Detaches (m : Manager) (f : Ref) (supply : Supply) (d : Detached) (later : Supply) : Prop :=
  (m.detach f).run.run supply = (.ok d, later)

/-- A detached diagram is the canonical form of the function of its reference. -/
theorem Sound.detaches {m : Manager} (sound : m.Sound) {f : Ref} {φ : (Nat → Bool) → Bool}
    (represents : m.Represents f φ) {supply : Supply} {diagrams : List Detached}
    (made : Made supply diagrams) :
    ∃ d later more, m.Detaches f supply d later ∧ Made later more ∧ diagrams ⊆ more ∧
      Among more d ∧ d.Canonical φ := by
  obtain ⟨node, holds⟩ := resident_iff.mp represents.1
  obtain ⟨_, later, more, run, madeLater, kept, d, rfl, among, unfolds, shared⟩ :=
    detach_succeeds sound.proper holds made
  obtain ⟨tree, unfoldsTree, value⟩ := sound.denotes_of_represents represents
  cases unfoldsTree.inj unfolds
  exact ⟨d, later, more, run, madeLater, kept, among,
    unfolds.tree_canonical sound.proper value, shared⟩

/-! ## Two ways of reduction -/

/--
An ordered diagram becomes by reduction what a manager makes of it: the diagrams are structurally
equal, and once the reduced one is compressed with an empty table they have one topology.
-/
theorem Reached.reduction {m : Manager} (reached : m.Reached) {b : Bench} (bench : b.Reached)
    {d : Detached} (held : d ∈ b.diagrams) (ordered : d.tree.Ordered) :
    ∃ ref later, attach d m = .ok ref later ∧
      ∀ s r t, b.supply.next ≤ s.next → d.reduce.run s = (r, t) →
        ∀ u, ∃ e v, later.Detaches ref u e v ∧ r.equals e = true ∧
          ∀ w, t.next ≤ w.next → ((r.compress.run ∅).run w).1.1.topology = e.topology := by
  obtain ⟨family, soundBench⟩ := bench.sound
  have among : Among family d := .self (soundBench.held held)
  obtain ⟨ref, later, run, soundLater, _, stands⟩ := reached.sound.attach soundBench.made among
  refine ⟨ref, later, run, ?_⟩
  intro s r t notBefore runReduce u
  obtain ⟨_, _, more, other, madeReduced, _, amongR, treeR⟩ :=
    Detached.reduce_makes (soundBench.made.mono notBefore) among
  cases runReduce.symm.trans other
  have canonicalR : r.tree.Canonical fun a => d.tree.evaluate a := treeR ▸ ordered.canonical_reduce
  obtain ⟨e, v, _, detaches, _, _, _, canonicalE⟩ :=
    soundLater.detaches (.of_denotes stands) (.nil u)
  have same := (canonicalR.eq_iff canonicalE.tree).mpr fun _ => rfl
  refine ⟨e, v, detaches, Detached.equalsFrom_of_tree_eq same ∅, ?_⟩
  intro w notBefore
  have compressed := (madeReduced.mono notBefore).canonical_compress (.empty more) amongR canonicalR
  exact compressed.topology_eq canonicalE fun _ => rfl

/-- A diagram with two instances of one literal, one of them below a redundant test. -/
def redundant : Detached :=
  .node 6 1 (.node 4 2 (Bench.literal 2 3) (Bench.literal 3 3))
    (.node 5 2 (Bench.literal 3 3) (.leaf 1 false))

def redundancy : Bench where
  supply := ⟨7⟩
  diagrams := [redundant, .node 5 2 (Bench.literal 3 3) (.leaf 1 false),
    .node 4 2 (Bench.literal 2 3) (Bench.literal 3 3), Bench.literal 3 3, Bench.literal 2 3,
    .leaf 1 false, .leaf 0 true]

theorem reached_redundancy : redundancy.Reached := by
  have leaves := (Bench.reached_empty.leaf true).leaf false
  have first := leaves.decision (by decide : 3 ≠ 0) (.tail _ (.head _)) (.head _)
  have second := first.decision (by decide : 3 ≠ 0) (.tail _ (.tail _ (.head _)))
    (.tail _ (.head _))
  have test := second.decision (by decide : 2 ≠ 0) (.tail _ (.head _)) (.head _)
  have other := test.decision (by decide : 2 ≠ 0) (.tail _ (.head _))
    (.tail _ (.tail _ (.tail _ (.head _))))
  exact other.decision (by decide : 1 ≠ 0) (.tail _ (.head _)) (.head _)

theorem reduction_redundant :
    redundant.tree.Ordered ∧
      ∃ ref later e v, attach redundant twoLiterals = .ok ref later ∧
        later.Detaches ref {} e v ∧ (redundant.reduce.run ⟨7⟩).1.equals e = true ∧
        e.topology = [.node 1 1 4, .node 3 2 3, .leaf true, .leaf false, .node 2 1 3] := by
  have ordered : redundant.tree.Ordered := by
    simp [redundant, Bench.literal, Detached.tree, Tree.Ordered, Tree.After]
  have compressed :
      (((redundant.reduce.run ⟨7⟩).1.compress.run ∅).run
        (redundant.reduce.run ⟨7⟩).2).1.1.topology =
      [.node 1 1 4, .node 3 2 3, .leaf true, .leaf false, .node 2 1 3] := by decide +kernel
  obtain ⟨ref, later, run, reduces⟩ :=
    reached_twoLiterals.reduction reached_redundancy (.head _) ordered
  obtain ⟨e, v, detaches, equal, topology⟩ := reduces ⟨7⟩ _ _ (Nat.le_refl _) rfl {}
  exact ⟨ordered, ref, later, e, v, run, detaches, equal,
    (topology _ (Nat.le_refl _)).symm.trans compressed⟩

/-! ## Two managers -/

/--
Diagrams detached from two managers are structurally equal if and only if their references represent
one function, and then they have one topology. A diagram attached elsewhere represents its function
there, and it is structurally equal to what is detached again.
-/
theorem Reached.exchange {m n : Manager} (reachedM : m.Reached) (reachedN : n.Reached) {f g : Ref}
    (insideF : m.Resident f) (insideG : n.Resident g) :
    ∃ φ ψ : (Nat → Bool) → Bool, m.Represents f φ ∧ n.Represents g ψ ∧
      ∀ s, ∃ d t, m.Detaches f s d t ∧
        (∀ u, t.next ≤ u.next → ∃ e v, n.Detaches g u e v ∧
          (d.equals e = true ↔ ∀ a, φ a = ψ a) ∧
          (d.equals e = true → d.topology = e.topology)) ∧
        ∃ ref later, attach d n = .ok ref later ∧ later.Represents ref φ ∧
          ∀ u, ∃ e v, later.Detaches ref u e v ∧ e.equals d = true := by
  obtain ⟨φ, representsF⟩ := reachedM.sound.exists_represents insideF
  obtain ⟨ψ, representsG⟩ := reachedN.sound.exists_represents insideG
  refine ⟨φ, ψ, representsF, representsG, ?_⟩
  intro s
  obtain ⟨d, t, diagrams, detachesF, made, _, amongD, canonicalD⟩ :=
    reachedM.sound.detaches representsF (.nil s)
  refine ⟨d, t, detachesF, ?_, ?_⟩
  · intro u notBefore
    obtain ⟨e, v, more, detachesG, madeMore, kept, amongE, canonicalE⟩ :=
      reachedN.sound.detaches representsG (made.mono notBefore)
    have equals_iff : d.equals e = true ↔ ∀ a, φ a = ψ a :=
      (Detached.equals_iff madeMore.coherent (amongD.mono kept) amongE).trans
        (canonicalD.tree.eq_iff canonicalE.tree)
    exact ⟨e, v, detachesG, equals_iff,
      fun equal => canonicalD.topology_eq canonicalE (equals_iff.mp equal)⟩
  · obtain ⟨ref, later, run, soundLater, _, stands⟩ := reachedN.sound.attach made amongD
    have represents : later.Represents ref φ := .of_denotes (stands.congr canonicalD.tree.evaluate)
    refine ⟨ref, later, run, represents, ?_⟩
    intro u
    obtain ⟨e, v, _, detachesRef, _, _, _, canonicalE⟩ := soundLater.detaches represents (.nil u)
    have same := (canonicalE.tree.eq_iff canonicalD.tree).mpr fun _ => rfl
    exact ⟨e, v, detachesRef, Detached.equalsFrom_of_tree_eq same ∅⟩

theorem represents_of_literal {m : Manager} (sound : m.Sound) {ref : Ref} {var : Nat}
    (stored : m.table.get? ref = some (.decision var Ref.trueLeaf Ref.falseLeaf)) :
    m.Represents ref fun a => a var := by
  have denotes : m.arena.Denotes ref fun a => if a var then true else false :=
    .node stored (.leaf (sound.proper.leaf true)) (.leaf (sound.proper.leaf false))
  refine .of_denotes (denotes.congr fun a => ?_)
  cases a var <;> rfl

theorem exchange_literal :
    (twoLiterals.Resident ⟨2⟩ ∧ bothCopies.Resident ⟨6⟩) ∧
      ∃ d t e v, twoLiterals.Detaches ⟨2⟩ {} d t ∧ bothCopies.Detaches ⟨6⟩ t e v ∧
        d.equals e = true ∧ d.topology = e.topology := by
  have reached : bothCopies.Reached := (reached_fresh (by decide)).run _
  have inside : twoLiterals.Resident ⟨2⟩ ∧ bothCopies.Resident ⟨6⟩ := by decide
  have first := represents_of_literal reached_twoLiterals.sound
    (by decide : twoLiterals.table.get? ⟨2⟩ = some (.decision 2 Ref.trueLeaf Ref.falseLeaf))
  have second := represents_of_literal reached.sound
    (by decide : bothCopies.table.get? ⟨6⟩ = some (.decision 2 Ref.trueLeaf Ref.falseLeaf))
  obtain ⟨φ, ψ, representsF, representsG, exchange⟩ :=
    reached_twoLiterals.exchange reached inside.1 inside.2
  obtain ⟨d, t, detachesF, others, _⟩ := exchange {}
  obtain ⟨e, v, detachesG, equals_iff, topology⟩ := others t (Nat.le_refl _)
  have same (a : Nat → Bool) : φ a = ψ a := by
    rw [← Except.ok.inj ((first.2 a).symm.trans (representsF.2 a)),
      ← Except.ok.inj ((second.2 a).symm.trans (representsG.2 a))]
  have equal := equals_iff.mpr same
  exact ⟨inside, d, t, e, v, detachesF, detachesG, equal, topology equal⟩

end DecisionDiagram.Manager
