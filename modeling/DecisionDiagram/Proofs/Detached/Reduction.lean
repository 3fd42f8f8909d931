import DecisionDiagram.Detached.Reduce
import DecisionDiagram.Proofs.Detached.Equality
import DecisionDiagram.Proofs.Detached.Instances
import DecisionDiagram.Proofs.Tree.Reduction

/-!
# Reduction of detached diagrams

The tree of a reduced diagram is the reduced tree of the diagram, for every
sharing and every order of variables. Structural equality, by which branches are
compared, is equality of their reduced trees. Each decision is noted with one
result, and all parts of results are results or leaves, so that reduction brings
no more instances than it was given.
-/

namespace DecisionDiagram.Detached

/-! ## Runs of a reduction -/

/-- The reduced form of a decision whose branches have been reduced. -/
def rejoin (s var : Nat) (high low onTrue onFalse : Detached) : Stamping Detached :=
  if onTrue.equals onFalse then pure onTrue else renew s var high low onTrue onFalse

theorem reduceFrom_of_some {s var : Nat} {high low result : Detached} {reduced : Reduced}
    (found : reduced[s]? = some result) :
    (node s var high low).reduceFrom.run reduced = pure (result, reduced) := by
  rw [reduceFrom]
  simp only [stamp, StateT.run_bind, StateT.run_get, pure_bind, found]
  rfl

theorem reduceFrom_of_none {s var : Nat} {high low : Detached} {reduced : Reduced}
    (missing : reduced[s]? = none) :
    (node s var high low).reduceFrom.run reduced = (do
      let first ← high.reduceFrom.run reduced
      let second ← low.reduceFrom.run first.2
      let result ← rejoin s var high low first.1 second.1
      pure (result, second.2.insert s result) : Stamping (Detached × Reduced)) := by
  rw [reduceFrom]
  simp only [stamp, StateT.run_bind, StateT.run_get, pure_bind, missing]
  refine bind_congr fun first => bind_congr fun second => ?_
  rw [rejoin, renew]
  split
  · rfl
  · split
    · rfl
    · rfl

/-! ## Reduced diagrams -/

/-- The result is an instance of the family with the reduced tree of the diagram. -/
def Reduces (diagrams : List Detached) (d result : Detached) : Prop :=
  Among diagrams result ∧ result.tree = d.tree.reduce

/-- Every part of the result is a result itself, or it is a leaf of the diagram. -/
def Stems (reduced : Reduced) (d result : Detached) : Prop :=
  ∀ x, Part x result → (∃ s : Nat, reduced[s]? = some x) ∨ x.isLeaf ∧ Part x d

theorem Reduces.mono {diagrams more : List Detached} (kept : diagrams ⊆ more)
    {d result : Detached} (reduces : Reduces diagrams d result) : Reduces more d result :=
  ⟨reduces.1.mono kept, reduces.2⟩

theorem Stems.mono {reduced later : Reduced} {d e result : Detached}
    (stems : Stems reduced d result)
    (kept : ∀ {s : Nat} {r : Detached}, reduced[s]? = some r → later[s]? = some r)
    (inside : Part d e) : Stems later e result := by
  intro x part
  rcases stems x part with ⟨s, noted⟩ | ⟨leaf, below⟩
  · exact Or.inl ⟨s, kept noted⟩
  · exact Or.inr ⟨leaf, below.trans inside⟩

/-- What a reduction adds to the notes: one result for each decision of the diagram at most. -/
structure Reducing (diagrams : List Detached) (reduced : Reduced) (d : Detached)
    (result : Detached × Reduced) : Prop where
  reduces : Reduces diagrams d result.1
  stems : Stems result.2 d result.1
  noted : Noted diagrams (fun x r => Reduces diagrams x r ∧ Stems result.2 x r) result.2
  kept : ∀ {s : Nat} {r : Detached}, reduced[s]? = some r → result.2[s]? = some r
  new : ∀ {s : Nat} {r : Detached}, result.2[s]? = some r →
    reduced[s]? = some r ∨ ∃ x ∈ d.decisions, x.stamp = s

/-- A rejoined decision has no parts but itself and those of its branches. -/
theorem rejoin_makes {supply : Supply} {diagrams : List Detached} (made : Made supply diagrams)
    {s var : Nat} {high low onTrue onFalse : Detached}
    (among : Among diagrams (node s var high low)) (reducesHigh : Reduces diagrams high onTrue)
    (reducesLow : Reduces diagrams low onFalse) :
    Makes (rejoin s var high low onTrue onFalse) supply diagrams fun result more =>
      Reduces more (node s var high low) result ∧
        ∀ x, Part x result → x = result ∨ Part x onTrue ∨ Part x onFalse := by
  obtain ⟨amongTrue, rightTrue⟩ := reducesHigh
  obtain ⟨amongFalse, rightFalse⟩ := reducesLow
  unfold rejoin Reduces
  rw [tree, Tree.reduce, ← rightTrue, ← rightFalse]
  by_cases equal : onTrue.equals onFalse
  · rw [if_pos equal, if_pos ((equals_iff made.coherent amongTrue amongFalse).mp equal)]
    exact .pure made ⟨⟨amongTrue, rfl⟩, fun x inside => Or.inr (Or.inl inside)⟩
  · rw [if_neg equal, if_neg (mt (equals_iff made.coherent amongTrue amongFalse).mpr equal)]
    refine (Makes.renew made among amongTrue amongFalse).mono ?_
    rintro d more _ ⟨amongD, stamp, rfl⟩
    refine ⟨⟨amongD, rfl⟩, fun x inside => ?_⟩
    cases inside with
    | self => exact Or.inl rfl
    | high inside => exact Or.inr (Or.inl inside)
    | low inside => exact Or.inr (Or.inr inside)

/-- The branches of a decision do not contain it, so that nothing is noted for it meanwhile. -/
theorem Reducing.missing {more most diagrams : List Detached} (coherent : Coherent diagrams)
    {s var : Nat} {high low onTrue onFalse : Detached} {reduced first second : Reduced}
    (missing : reduced[s]? = none) (among : Among diagrams (node s var high low))
    (reducingHigh : Reducing more reduced high (onTrue, first))
    (reducingLow : Reducing most first low (onFalse, second)) : second[s]? = none := by
  by_contra noted
  obtain ⟨r, later⟩ := Option.ne_none_iff_exists'.mp noted
  rcases reducingLow.new later with middle | ⟨x, ⟨inside, _⟩, same⟩
  · rcases reducingHigh.new middle with old | ⟨x, ⟨inside, _⟩, same⟩
    · cases missing.symm.trans old
    · obtain rfl := coherent.eq (among.high.part inside) among same
      exact not_part_high inside
  · obtain rfl := coherent.eq (among.low.part inside) among same
    exact not_part_low inside

/-- Once its branches are reduced, a decision is noted with its own result. -/
theorem Reducing.node {more most diagrams : List Detached} (coherent : Coherent diagrams)
    (kept : most ⊆ diagrams) {s var : Nat}
    {high low onTrue onFalse result : Detached} {reduced first second : Reduced}
    (missing : reduced[s]? = none) (among : Among diagrams (node s var high low))
    (reducingHigh : Reducing more reduced high (onTrue, first))
    (reducingLow : Reducing most first low (onFalse, second))
    (reduces : Reduces diagrams (node s var high low) result)
    (parts : ∀ x, Part x result → x = result ∨ Part x onTrue ∨ Part x onFalse) :
    Reducing diagrams reduced (node s var high low) (result, second.insert s result) := by
  have missingStill := Reducing.missing coherent missing among reducingHigh reducingLow
  have keptAll {t : Nat} {r : Detached} (noted : second[t]? = some r) :
      (second.insert s result)[t]? = some r := getElem?_insert_of_none missingStill noted
  have keptFirst {t : Nat} {r : Detached} (noted : first[t]? = some r) :
      (second.insert s result)[t]? = some r := keptAll (reducingLow.kept noted)
  have stems : Stems (second.insert s result) (Detached.node s var high low) result := by
    intro x inside
    rcases parts x inside with rfl | inTrue | inFalse
    · exact Or.inl ⟨s, Std.TreeMap.getElem?_insert_self⟩
    · exact reducingHigh.stems.mono keptFirst (.high .self) x inTrue
    · exact reducingLow.stems.mono keptAll (.low .self) x inFalse
  refine ⟨reduces, stems, ?_, fun old => keptFirst (reducingHigh.kept old), ?_⟩
  · refine (reducingLow.noted.mono kept ?_).insert among ⟨reduces, stems⟩
    rintro x r ⟨reducesX, stemsX⟩
    exact ⟨reducesX.mono kept, stemsX.mono keptAll .self⟩
  · intro t r noted
    rcases of_getElem?_insert noted with ⟨rfl, _⟩ | later
    · exact Or.inr ⟨_, ⟨.self, by simp [isLeaf, value?]⟩, rfl⟩
    · rcases reducingLow.new later with middle | ⟨x, ⟨inside, inner⟩, same⟩
      · rcases reducingHigh.new middle with old | ⟨x, ⟨inside, inner⟩, same⟩
        · exact Or.inl old
        · exact Or.inr ⟨x, ⟨.high inside, inner⟩, same⟩
      · exact Or.inr ⟨x, ⟨.low inside, inner⟩, same⟩

theorem reduceFrom_makes {d : Detached} {supply : Supply} {diagrams : List Detached}
    (made : Made supply diagrams) (among : Among diagrams d) {reduced : Reduced}
    (noted : Noted diagrams (fun x r => Reduces diagrams x r ∧ Stems reduced x r) reduced) :
    Makes (d.reduceFrom.run reduced) supply diagrams fun result more =>
      Reducing more reduced d result := by
  induction d generalizing supply diagrams reduced with
  | leaf s value =>
      refine .pure made ⟨⟨among, rfl⟩, ?_, noted, fun old => old, fun old => Or.inl old⟩
      intro x inside
      cases inside with
      | self => exact Or.inr ⟨rfl, .self⟩
  | node s var high low ihHigh ihLow =>
      cases stored : reduced[s]? with
      | some result =>
          rw [reduceFrom_of_some stored]
          obtain ⟨reduces, stems⟩ := noted.of_some made.coherent among stored
          exact .pure made ⟨reduces, stems, noted, fun old => old, fun old => Or.inl old⟩
      | none =>
          rw [reduceFrom_of_none stored]
          refine (ihHigh made among.high noted).bind ?_
          rintro ⟨onTrue, first⟩ _ more madeFirst kept reducingHigh
          have amongFirst := among.mono kept
          refine (ihLow madeFirst amongFirst.low reducingHigh.noted).bind ?_
          rintro ⟨onFalse, second⟩ _ most madeSecond keptMore reducingLow
          have amongSecond := amongFirst.mono keptMore
          refine (rejoin_makes madeSecond amongSecond (reducingHigh.reduces.mono keptMore)
            reducingLow.reduces).bind ?_
          rintro result _ last madeLast keptMost ⟨reduces, parts⟩
          exact .pure madeLast (.node madeLast.coherent keptMost stored
            (amongSecond.mono keptMost) reducingHigh reducingLow reduces parts)

/-- Every instance of the result is what some instance of the diagram was reduced to. -/
theorem Reducing.ncard_le {diagrams : List Detached} {d : Detached}
    {result : Detached × Reduced} (reducing : Reducing diagrams ∅ d result) :
    result.1.instances.ncard ≤ d.instances.ncard := by
  let outcome (x : Detached) : Detached := if x.isLeaf then x else result.2[x.stamp]?.getD x
  have covered : result.1.instances ⊆ outcome '' d.instances := by
    intro y inside
    rcases reducing.stems y inside with ⟨s, noted⟩ | ⟨leaf, below⟩
    · rcases reducing.new noted with none | ⟨x, ⟨insideX, inner⟩, rfl⟩
      · simp at none
      · exact ⟨x, insideX, by simp [outcome, inner, noted]⟩
    · exact ⟨y, below, if_pos leaf⟩
  calc result.1.instances.ncard ≤ (outcome '' d.instances).ncard :=
        Set.ncard_le_ncard covered (d.finite_instances.image outcome)
    _ ≤ d.instances.ncard := Set.ncard_image_le d.finite_instances

/-- Reduction makes a diagram of the reduced tree, and no more instances than there were. -/
theorem reduce_shrinks {d : Detached} {supply : Supply} {diagrams : List Detached}
    (made : Made supply diagrams) (among : Among diagrams d) :
    Makes d.reduce supply diagrams fun result more =>
      Reduces more d result ∧ result.instances.ncard ≤ d.instances.ncard := by
  change Makes (Prod.fst <$> d.reduceFrom.run ∅) supply diagrams _
  rw [map_eq_pure_bind]
  refine (reduceFrom_makes made among (.empty diagrams _)).bind ?_
  rintro result _ more madeLater _ reducing
  exact .pure madeLater ⟨reducing.reduces, reducing.ncard_le⟩

/-- Reduction makes a diagram of the reduced tree. -/
theorem reduce_makes {d : Detached} {supply : Supply} {diagrams : List Detached}
    (made : Made supply diagrams) (among : Among diagrams d) :
    Makes d.reduce supply diagrams fun result more => Reduces more d result :=
  (reduce_shrinks made among).mono fun _ done => done.1

end DecisionDiagram.Detached
