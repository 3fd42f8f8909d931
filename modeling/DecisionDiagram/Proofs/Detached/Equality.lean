import DecisionDiagram.Detached.Reduce
import DecisionDiagram.Proofs.Detached.Made

/-!
# Structural equality is equality of trees

A comparison that ends well has compared the labels and both branches of every
pair that it met, unless it found the two to be one instance. So the pairs that
it met are closed under branches, and induction along the first diagram shows
that such pairs have equal trees. A comparison of diagrams with equal trees ends
well, whatever was met before.
-/

namespace DecisionDiagram.Detached

/-! ## Runs of a comparison -/

/-- The comparison of labels and branches, which follows when a pair is met first. -/
def partsEqualFrom : Detached → Detached → StateM Compared Bool
  | leaf _ x, leaf _ y => return x = y
  | node _ v highA lowA, node _ w highB lowB => do
      if v ≠ w then
        return false
      else if ← highA.equalsFrom highB then
        lowA.equalsFrom lowB
      else
        return false
  | _, _ => return false

/-- The diagrams are one instance, or their comparison has begun. -/
def Linked (compared : Compared) (a b : Detached) : Prop :=
  a.same b ∨ (a.stamp, b.stamp) ∈ compared

/-- A comparison ends at once for linked diagrams, or else it goes on with their parts. -/
theorem equalsFrom_cases (a b : Detached) (compared : Compared) :
    Linked compared a b ∧ (a.equalsFrom b).run compared = (true, compared) ∨
      (a.equalsFrom b).run compared =
        (a.partsEqualFrom b).run (compared.insert (a.stamp, b.stamp)) := by
  rw [equalsFrom.eq_def]
  by_cases same : a.same b
  · rw [if_pos same]
    exact Or.inl ⟨Or.inl same, rfl⟩
  rw [if_neg same]
  by_cases met : (a.stamp, b.stamp) ∈ compared
  · have found : compared.contains (a.stamp, b.stamp) := Std.TreeSet.mem_iff_contains.mp met
    refine Or.inl ⟨Or.inr met, ?_⟩
    change (if _ then _ else _ : StateM Compared Bool) compared = _
    rw [if_pos found]
    rfl
  · have missing : ¬ compared.contains (a.stamp, b.stamp) :=
      fun found => met (Std.TreeSet.mem_iff_contains.mpr found)
    refine Or.inr ?_
    change (if _ then _ else _ : StateM Compared Bool) compared = _
    rw [if_neg missing]
    cases a <;> cases b <;> rfl

theorem partsEqualFrom_node {s t v : Nat} {highA lowA highB lowB : Detached}
    {compared middle : Compared} {answer : Bool}
    (run : (highA.equalsFrom highB).run compared = (answer, middle)) :
    (partsEqualFrom (node s v highA lowA) (node t v highB lowB)).run compared =
      if answer then (lowA.equalsFrom lowB).run middle else (false, middle) := by
  rw [partsEqualFrom, if_neg (not_not.mpr rfl), StateT.run_bind, run]
  cases answer <;> rfl

theorem of_partsEqualFrom_node {s t v w : Nat} {highA lowA highB lowB : Detached}
    {compared later : Compared}
    (run : (partsEqualFrom (node s v highA lowA) (node t w highB lowB)).run compared =
      (true, later)) :
    v = w ∧ ∃ middle, (highA.equalsFrom highB).run compared = (true, middle) ∧
      (lowA.equalsFrom lowB).run middle = (true, later) := by
  by_cases same : v = w
  · subst same
    rcases first : (highA.equalsFrom highB).run compared with ⟨answer, middle⟩
    rw [partsEqualFrom_node first] at run
    cases answer with
    | false => cases run
    | true => exact ⟨rfl, middle, rfl, run⟩
  · rw [partsEqualFrom, if_pos same] at run
    cases run

/-! ## Comparisons that end well -/

inductive Matched (compared : Compared) : Detached → Detached → Prop where
  | leaf {s t : Nat} {value : Bool} : Matched compared (leaf s value) (leaf t value)
  | node {s t var : Nat} {highA lowA highB lowB : Detached}
      (onTrue : Linked compared highA highB) (onFalse : Linked compared lowA lowB) :
      Matched compared (node s var highA lowA) (node t var highB lowB)

/-- All pairs met between the two states are matched in the later one. -/
structure Matches (diagrams : List Detached) (compared later : Compared) : Prop where
  kept : ∀ pair ∈ compared, pair ∈ later
  matched : ∀ {x y}, Among diagrams x → Among diagrams y → (x.stamp, y.stamp) ∈ later →
    (x.stamp, y.stamp) ∈ compared ∨ Matched later x y

theorem mem_compared_insert {compared : Compared} {pair other : Nat × Nat} :
    other ∈ compared.insert pair ↔ other = pair ∨ other ∈ compared := by
  rw [Std.TreeSet.mem_insert, compareLex_eq_eq]
  simp only [compareOn, Std.LawfulEqOrd.compare_eq_iff_eq]
  rw [← Prod.ext_iff, eq_comm]

theorem Linked.mono {compared later : Compared} {a b : Detached} (linked : Linked compared a b)
    (kept : ∀ pair ∈ compared, pair ∈ later) : Linked later a b :=
  linked.imp id (kept _)

theorem Matched.mono {compared later : Compared} {a b : Detached} (matched : Matched compared a b)
    (kept : ∀ pair ∈ compared, pair ∈ later) : Matched later a b := by
  cases matched with
  | leaf => exact .leaf
  | node onTrue onFalse => exact .node (onTrue.mono kept) (onFalse.mono kept)

namespace Matches

variable {diagrams : List Detached} {compared middle later : Compared}

theorem refl (compared : Compared) : Matches diagrams compared compared :=
  ⟨fun _ met => met, fun _ _ met => Or.inl met⟩

theorem trans (first : Matches diagrams compared middle) (second : Matches diagrams middle later) :
    Matches diagrams compared later where
  kept pair met := second.kept pair (first.kept pair met)
  matched amongX amongY met := by
    rcases second.matched amongX amongY met with before | matched
    · exact (first.matched amongX amongY before).imp id (·.mono second.kept)
    · exact Or.inr matched

/-- A pair that is noted before its parts are compared is matched when these were. -/
theorem of_insert (coherent : Coherent diagrams) {a b : Detached} (amongA : Among diagrams a)
    (amongB : Among diagrams b)
    (rest : Matches diagrams (compared.insert (a.stamp, b.stamp)) later)
    (matched : Matched later a b) : Matches diagrams compared later where
  kept pair met := rest.kept pair (mem_compared_insert.mpr (Or.inr met))
  matched {x y} amongX amongY met := by
    rcases rest.matched amongX amongY met with before | done
    · rcases mem_compared_insert.mp before with noted | before
      · obtain ⟨sameX, sameY⟩ := Prod.mk.inj noted
        cases coherent.eq amongX amongA sameX
        cases coherent.eq amongY amongB sameY
        exact Or.inr matched
      · exact Or.inl before
    · exact Or.inr done

end Matches

/-- What a comparison that ends well has found out. -/
theorem matches_of_equalsFrom {diagrams : List Detached} (coherent : Coherent diagrams)
    {a b : Detached} (amongA : Among diagrams a) (amongB : Among diagrams b)
    {compared later : Compared} (run : (a.equalsFrom b).run compared = (true, later)) :
    Linked later a b ∧ Matches diagrams compared later := by
  -- A pair is noted before its parts are compared; only when these have ended well is it matched.
  induction a generalizing b compared later with
  | leaf s x =>
      rcases equalsFrom_cases (leaf s x) b compared with ⟨linked, ended⟩ | goesOn
      · cases ended.symm.trans run
        exact ⟨linked, .refl compared⟩
      rw [goesOn] at run
      cases b with
      | node t w highB lowB => cases run
      | leaf t y =>
          obtain ⟨equal, rfl⟩ := Prod.mk.inj run
          obtain rfl : x = y := of_decide_eq_true equal
          exact ⟨Or.inr (mem_compared_insert.mpr (Or.inl rfl)),
            .of_insert coherent amongA amongB (.refl _) .leaf⟩
  | node s v highA lowA ihHigh ihLow =>
      rcases equalsFrom_cases (node s v highA lowA) b compared with ⟨linked, ended⟩ | goesOn
      · cases ended.symm.trans run
        exact ⟨linked, .refl compared⟩
      rw [goesOn] at run
      cases b with
      | leaf t y => cases run
      | node t w highB lowB =>
          obtain ⟨rfl, middle, runHigh, runLow⟩ := of_partsEqualFrom_node run
          obtain ⟨linkedHigh, first⟩ := ihHigh amongA.high amongB.high runHigh
          obtain ⟨linkedLow, second⟩ := ihLow amongA.low amongB.low runLow
          have both := first.trans second
          exact ⟨Or.inr (both.kept _ (mem_compared_insert.mpr (Or.inl rfl))),
            .of_insert coherent amongA amongB both (.node (linkedHigh.mono second.kept) linkedLow)⟩

/-- Where all pairs met are matched, linked diagrams have equal trees. -/
theorem Linked.tree_eq {diagrams : List Detached} (coherent : Coherent diagrams)
    {compared : Compared}
    (matched : ∀ {x y}, Among diagrams x → Among diagrams y → (x.stamp, y.stamp) ∈ compared →
      Matched compared x y)
    {a b : Detached} (amongA : Among diagrams a) (amongB : Among diagrams b)
    (linked : Linked compared a b) : a.tree = b.tree := by
  induction a generalizing b with
  | leaf s x =>
      rcases linked with same | met
      · rw [(coherent.same_iff amongA amongB).mp same]
      · cases matched amongA amongB met with
        | leaf => rfl
  | node s v highA lowA ihHigh ihLow =>
      rcases linked with same | met
      · rw [(coherent.same_iff amongA amongB).mp same]
      · cases matched amongA amongB met with
        | node onTrue onFalse =>
            rw [tree, tree, ihHigh amongA.high amongB.high onTrue,
              ihLow amongA.low amongB.low onFalse]

/-! ## Comparisons of equal trees -/

theorem equalsFrom_of_tree_eq {a b : Detached} (same : a.tree = b.tree) (compared : Compared) :
    ((a.equalsFrom b).run compared).1 = true := by
  induction a generalizing b compared with
  | leaf s x =>
      rcases equalsFrom_cases (leaf s x) b compared with ⟨_, ended⟩ | goesOn
      · rw [ended]
      rw [goesOn]
      cases b with
      | leaf t y => exact decide_eq_true (Tree.leaf.inj same)
      | node t w highB lowB => cases same
  | node s v highA lowA ihHigh ihLow =>
      rcases equalsFrom_cases (node s v highA lowA) b compared with ⟨_, ended⟩ | goesOn
      · rw [ended]
      rw [goesOn]
      cases b with
      | leaf t y => cases same
      | node t w highB lowB =>
          obtain ⟨rfl, sameHigh, sameLow⟩ := Tree.node.inj same
          have onTrue := ihHigh sameHigh (compared.insert (s, t))
          rcases run : (highA.equalsFrom highB).run (compared.insert (s, t)) with ⟨answer, middle⟩
          rw [run] at onTrue
          obtain rfl : answer = true := onTrue
          change ((partsEqualFrom _ _).run (compared.insert (s, t))).1 = true
          rw [partsEqualFrom_node run]
          exact ihLow sameLow middle

/-- Within a coherent family, the comparison tells whether two diagrams have equal trees. -/
theorem equals_iff {diagrams : List Detached} (coherent : Coherent diagrams) {a b : Detached}
    (amongA : Among diagrams a) (amongB : Among diagrams b) :
    a.equals b = true ↔ a.tree = b.tree := by
  constructor
  · intro equal
    have run : (a.equalsFrom b).run ∅ = (true, ((a.equalsFrom b).run ∅).2) := Prod.ext equal rfl
    obtain ⟨linked, all⟩ := matches_of_equalsFrom coherent amongA amongB run
    refine linked.tree_eq coherent ?_ amongA amongB
    intro x y amongX amongY met
    exact (all.matched amongX amongY met).resolve_left Std.TreeSet.not_mem_emptyc
  · intro same
    exact equalsFrom_of_tree_eq same ∅

end DecisionDiagram.Detached
