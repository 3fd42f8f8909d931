import DecisionDiagram.Proofs.Detached.Relabelling
import DecisionDiagram.Proofs.Manager.Relabel
import DecisionDiagram.Proofs.Reached.Exchange
import DecisionDiagram.Proofs.Reached.Support

/-!
# Renaming diagrams with one copy of each state variable

Where a diagram holds at most one copy of each state variable, no two of its variables are taken to
one, and their order is kept. So renaming relabels it and does nothing else: what is detached after
it has the topology of what is detached before, with other variables.
-/

namespace DecisionDiagram

/-- Variables of different state variables are renamed in their order. -/
theorem StateCopy.strictMonoOn_rename (copy : StateCopy) {vars : Set Nat}
    (apart : ∀ k, ¬ (2 * k ∈ vars ∧ 2 * k + 1 ∈ vars)) : StrictMonoOn copy.rename vars := by
  intro v insideV w insideW lt
  have number_lt : v / 2 < w / 2 := by
    by_contra same
    have even : v = 2 * (v / 2) := by omega
    have odd : w = 2 * (v / 2) + 1 := by omega
    exact apart (v / 2) ⟨even ▸ insideV, odd ▸ insideW⟩
  cases copy with
  | current =>
      rw [rename, rename]
      split <;> split <;> omega
  | next =>
      rw [rename, rename]
      omega

namespace Manager

/-- Renaming a diagram relabels its cells, and it remembers and makes nothing else. -/
structure PurelyRelabels (m : Manager) (copy : StateCopy) (f ref : Ref) (later : Manager) :
    Prop where
  run : rename copy f m = .ok ref later
  plain : relabel copy f m = .ok ref later
  kept : ∀ (key : ComputedKey) (result : Ref), m.computed.entries[key]? = some result →
    later.computed.entries[key]? = some result
  gained : ∀ key : ComputedKey, m.computed.entries[key]? = none →
    later.computed.entries[key]? ≠ none → ∃ g, m.arena.Leads f g ∧ key = .rename copy g
  leads : ∀ g, later.Resident g → ¬ m.Resident g → later.arena.Leads ref g
  topology : ∀ s u, ∃ d t e v, m.Detaches f s d t ∧ later.Detaches ref u e v ∧
    e.topology = d.topology.map (.relabel copy.rename)

theorem Relabels.purely {m later : Manager} {copy : StateCopy} {f ref : Ref} {t : Tree}
    (relabels : m.Relabels copy f t ref later) (sound : m.Sound) (unfolds : m.arena.Unfolds f t)
    (mono : StrictMonoOn copy.rename t.vars) : m.PurelyRelabels copy f ref later := by
  have represents : m.Represents f fun a => t.evaluate a :=
    .of_denotes ⟨t, unfolds, fun _ => rfl⟩
  have renamed : later.Represents ref fun a => t.evaluate fun var => a (copy.rename var) :=
    .of_denotes ⟨_, relabels.unfolds, t.evaluate_relabel⟩
  refine ⟨relabels.run, relabels.plain, fun key result => relabels.fills.kept, ?_, ?_, ?_⟩
  · intro key missing present
    by_contra other
    refine present (relabels.fills.missing ?_ missing)
    rintro ⟨g, leads, rfl⟩
    exact other ⟨g, leads, rfl⟩
  · intro g inside new
    exact relabels.spans g (Nat.le_of_not_lt new) inside
  · intro s u
    obtain ⟨d, left, _, detachesF, _, _, _, canonicalD⟩ := sound.detaches represents (.nil s)
    obtain ⟨e, v, _, detachesRef, _, _, _, canonicalE⟩ :=
      relabels.sound.detaches renamed (.nil u)
    have canonical := unfolds.tree_canonical sound.proper fun _ => rfl
    rw [← (canonicalD.tree.eq_iff canonical).mpr fun _ => rfl] at mono
    refine ⟨d, left, e, v, detachesF, detachesRef, ?_⟩
    rw [← d.topology_relabel]
    exact canonicalE.topology_eq (canonicalD.relabel mono) fun _ => rfl

/--
The support of a stored diagram is found, and if it contains at most one copy of each state
variable, then renaming to either copy is a pure relabelling.
-/
theorem Reached.relabelling {m : Manager} (reached : m.Reached) {f : Ref}
    (inside : m.Resident f) :
    ∃ vars, m.support f = .ok vars ∧
      ((∀ k, ¬ (2 * k ∈ vars ∧ 2 * k + 1 ∈ vars)) →
        ∀ copy : StateCopy, ∃ ref later, m.PurelyRelabels copy f ref later) := by
  have sound := reached.sound
  obtain ⟨node, holds⟩ := resident_iff.mp inside
  obtain ⟨t, unfolds⟩ := sound.proper.exists_unfolds inside
  obtain ⟨vars, listed, mem_vars⟩ := support_of_holds sound.proper holds
  refine ⟨vars, listed, fun apart copy => ?_⟩
  have mono : StrictMonoOn copy.rename t.vars := by
    refine copy.strictMonoOn_rename fun k both => apart k ?_
    exact both.imp (fun even => (mem_vars _).mpr ((unfolds.mem_vars _).mp even))
      fun odd => (mem_vars _).mpr ((unfolds.mem_vars _).mp odd)
  obtain ⟨ref, later, relabels⟩ := sound.relabels copy unfolds mono
  exact ⟨ref, later, relabels.purely sound unfolds mono⟩

def mixedCopies : Manager :=
  (Operation.run [.literal 4 true, .decision 3 ⟨2⟩ Ref.falseLeaf] (fresh 3)).2

theorem relabelling_mixedCopies :
    mixedCopies.Resident ⟨3⟩ ∧ mixedCopies.support ⟨3⟩ = .ok [3, 4] ∧
      (∀ k, ¬ (2 * k ∈ [3, 4] ∧ 2 * k + 1 ∈ [3, 4])) ∧
      ∃ ref later e v, mixedCopies.PurelyRelabels .current ⟨3⟩ ref later ∧
        later.Detaches ref {} e v ∧
        e.topology = [.node 2 1 3, .node 4 2 3, .leaf true, .leaf false] := by
  have reached : mixedCopies.Reached := (reached_fresh (by decide)).run _
  have inside : mixedCopies.Resident ⟨3⟩ := by decide
  have listed : mixedCopies.support ⟨3⟩ = .ok [3, 4] := support_of_listed (by decide +kernel)
  have apart (k : Nat) : ¬ (2 * k ∈ [3, 4] ∧ 2 * k + 1 ∈ [3, 4]) := by
    simp only [List.mem_cons, List.not_mem_nil, or_false]
    omega
  have before : ((mixedCopies.detach ⟨3⟩).run.run {}).1.toOption.map Detached.topology =
      some [.node 3 1 3, .node 4 2 3, .leaf true, .leaf false] := by decide +kernel
  obtain ⟨_, found, renames⟩ := reached.relabelling inside
  cases listed.symm.trans found
  obtain ⟨ref, later, relabels⟩ := renames apart .current
  obtain ⟨d, t, e, v, detaches, detachesRef, topology⟩ := relabels.topology {} {}
  rw [detaches] at before
  rw [Option.some.inj before] at topology
  exact ⟨inside, listed, apart, ref, later, e, v, relabels, detachesRef, topology⟩

end Manager

end DecisionDiagram
