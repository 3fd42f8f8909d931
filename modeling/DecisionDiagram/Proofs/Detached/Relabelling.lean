import DecisionDiagram.Proofs.Detached.Topology
import DecisionDiagram.Proofs.Tree.Relabelling

/-!
# Relabelled diagrams

Taking each variable of a detached diagram to another leaves its stamps and its sharing as they are,
so a walk meets the same instances in the same order, and the topology is relabelled row by row. If
no two variables are confused and their order is kept, a canonical diagram stays canonical.
-/

namespace DecisionDiagram.Detached

def relabel (ρ : Nat → Nat) : Detached → Detached
  | leaf stamp value => leaf stamp value
  | node stamp var high low => node stamp (ρ var) (high.relabel ρ) (low.relabel ρ)

def Row.relabel (ρ : Nat → Nat) : Row → Row
  | .leaf value => .leaf value
  | .node var high low => .node (ρ var) high low

variable {ρ : Nat → Nat}

@[simp]
theorem stamp_relabel (d : Detached) : (d.relabel ρ).stamp = d.stamp := by
  cases d <;> rfl

theorem tree_relabel (d : Detached) : (d.relabel ρ).tree = d.tree.relabel ρ := by
  induction d with
  | leaf s value => rfl
  | node s var high low ihHigh ihLow => rw [relabel, tree, tree, Tree.relabel, ihHigh, ihLow]

/-! ## Walks -/

def Walk.relabel (ρ : Nat → Nat) (walk : Walk) : Walk where
  instances := walk.instances.map (·.relabel ρ)
  numbers := walk.numbers

theorem Walk.meet_relabel (walk : Walk) (d : Detached) :
    (walk.relabel ρ).meet (d.relabel ρ) = (walk.meet d).relabel ρ := by
  simp [Walk.meet, Walk.relabel]

theorem Walk.row_relabel (walk : Walk) (d : Detached) :
    (walk.relabel ρ).row (d.relabel ρ) = (walk.row d).relabel ρ := by
  cases d with
  | leaf s value => rfl
  | node s var high low => simp [Detached.relabel, Walk.relabel, row, number, Row.relabel]

/-- Walks look at stamps only. -/
theorem walkFrom_relabel (d : Detached) (walk : Walk) :
    (d.relabel ρ).walkFrom (walk.relabel ρ) = (d.walkFrom walk).relabel ρ := by
  induction d generalizing walk with
  | leaf s value =>
      by_cases met : walk.numbers.contains (leaf s value).stamp
      · rw [walkFrom_of_met met]
        exact walkFrom_of_met met
      · rw [walkFrom_leaf_of_new met, ← walk.meet_relabel]
        exact walkFrom_leaf_of_new met
  | node s var high low ihHigh ihLow =>
      by_cases met : walk.numbers.contains (node s var high low).stamp
      · rw [walkFrom_of_met met]
        exact walkFrom_of_met met
      · rw [walkFrom_node_of_new met, ← ihLow, ← ihHigh, ← walk.meet_relabel]
        exact walkFrom_node_of_new met

theorem topology_relabel (d : Detached) :
    (d.relabel ρ).topology = d.topology.map (Row.relabel ρ) := by
  have start : ({} : Walk).relabel ρ = {} := by simp [Walk.relabel]
  have walks : (d.relabel ρ).walkFrom {} = (d.walkFrom {}).relabel ρ := by
    rw [← walkFrom_relabel, start]
  have instances (walk : Walk) : (walk.relabel ρ).instances.toList =
      walk.instances.toList.map (·.relabel ρ) := Array.toList_map
  rw [topology, topology, walks, instances, List.map_map, List.map_map]
  exact List.map_congr_left fun x _ => Walk.row_relabel _ x

/-! ## Canonical diagrams -/

/-- The parts of a relabelled diagram are its parts, relabelled. -/
theorem Part.of_relabel {d y : Detached} (inside : Part y (d.relabel ρ)) :
    ∃ x, Part x d ∧ y = x.relabel ρ := by
  induction d with
  | leaf s value =>
      cases inside with
      | self => exact ⟨leaf s value, .self, rfl⟩
  | node s var high low ihHigh ihLow =>
      cases inside with
      | self => exact ⟨node s var high low, .self, rfl⟩
      | high inside =>
          obtain ⟨x, part, same⟩ := ihHigh inside
          exact ⟨x, .high part, same⟩
      | low inside =>
          obtain ⟨x, part, same⟩ := ihLow inside
          exact ⟨x, .low part, same⟩

theorem Part.vars_subset {x d : Detached} (inside : Part x d) :
    x.tree.vars ⊆ d.tree.vars := by
  induction inside with
  | self => exact subset_rfl
  | high _ ih => exact ih.trans Tree.vars_high
  | low _ ih => exact ih.trans Tree.vars_low

theorem Shared.relabel {d : Detached} (shared : Shared [d])
    (injective : Set.InjOn ρ d.tree.vars) : Shared [d.relabel ρ] := by
  have among {x : Detached} (inside : Part x d) : Among [d] x :=
    ⟨d, List.mem_singleton_self d, inside⟩
  have coherent : Coherent [d.relabel ρ] := by
    intro e heldE f heldF x y insideX insideY same
    obtain rfl := List.mem_singleton.mp heldE
    obtain rfl := List.mem_singleton.mp heldF
    obtain ⟨x, partX, rfl⟩ := insideX.of_relabel
    obtain ⟨y, partY, rfl⟩ := insideY.of_relabel
    rw [stamp_relabel, stamp_relabel] at same
    rw [shared.coherent.eq (among partX) (among partY) same]
  refine .of_parts coherent (.self (List.mem_singleton_self _)) ?_
  intro x y insideX insideY same
  obtain ⟨x, partX, rfl⟩ := insideX.of_relabel
  obtain ⟨y, partY, rfl⟩ := insideY.of_relabel
  rw [tree_relabel, tree_relabel] at same
  have trees := Tree.relabel_inj injective partX.vars_subset partY.vars_subset same
  rw [shared.eq_of_tree (among partX) (among partY) trees]

theorem Canonical.relabel {d : Detached} {φ : (Nat → Bool) → Bool} (canonical : d.Canonical φ)
    (mono : StrictMonoOn ρ d.tree.vars) :
    (d.relabel ρ).Canonical fun a => φ fun var => a (ρ var) :=
  ⟨d.tree_relabel ▸ canonical.tree.relabel mono, canonical.shared.relabel mono.injOn⟩

end DecisionDiagram.Detached
