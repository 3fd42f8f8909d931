import DecisionDiagram.Proofs.Manager.Sound

/-!
# Operations perform their algorithms

On a sound manager and references to stored nodes, every memoised operation
succeeds and performs its algorithm of the arena, whatever has been remembered
before. Choice is not memoised itself but made of operations that are.
-/

namespace DecisionDiagram.Manager

theorem Performs.bind {m : Manager} {x : ManagerM Ref} {next : Ref → ManagerM Ref}
    {step whole : Arena → Ref → Arena → Prop} (first : Performs x m step)
    (rest : ∀ {ref later}, later.Sound → step m.arena ref later.arena →
      Performs (next ref) later fun _ result last => whole m.arena result last) :
    Performs (x >>= next) m whole := by
  obtain ⟨ref, later, run, sound, done⟩ := first
  obtain ⟨result, last, runRest, soundLast, doneRest⟩ := rest sound done
  exact ⟨result, last, (bind_ok run).trans runRest, soundLast, doneRest⟩

theorem Performs.mono {m : Manager} {x : ManagerM Ref}
    {step other : Arena → Ref → Arena → Prop} (performs : Performs x m step)
    (implies : ∀ {ref later}, step m.arena ref later → other m.arena ref later) :
    Performs x m other := by
  obtain ⟨ref, later, run, sound, done⟩ := performs
  exact ⟨ref, later, run, sound, implies done⟩

theorem Performs.of_eq {m : Manager} {x y : ManagerM Ref} {step : Arena → Ref → Arena → Prop}
    (same : x m = y m) (performs : Performs y m step) : Performs x m step := by
  rwa [Performs, same]

namespace Sound

/-! ## Connectives -/

theorem apply {m : Manager} (sound : m.Sound) (op : Connective) {p q : Ref} {a b : Node}
    (holdsP : m.arena.Holds p a) (holdsQ : m.arena.Holds q b) :
    Performs (apply op p q) m fun arena => arena.Applies op p q := by
  induction size : p.slot + q.slot using Nat.strongRecOn generalizing m p q a b with
  | ind n ih =>
      cases split : Node.topVar? a b with
      | none =>
          obtain ⟨⟨x, rfl⟩, ⟨y, rfl⟩⟩ := Node.leaves_of_topVar? split
          exact ⟨_, m, apply_of_leaves op holdsP holdsQ, sound, .leaves holdsP holdsQ⟩
      | some var =>
          have smaller (value : Bool) := size ▸ Node.cofactors_slot_lt
            (sound.proper.below holdsP) (sound.proper.below holdsQ) split value
          refine .of_eq (apply_of_split op holdsP holdsQ split)
            (sound.memo Arena.Settled.applies ?_ ?_)
          · intro ref later
            exact .of_applies sound.proper holdsP holdsQ (split ▸ Option.some_ne_none var)
          · -- Both branches run on managers that extend this one, and so does the decision.
            obtain ⟨_, cofactorP, _⟩ := sound.proper.admits_cofactor holdsP split true
            have flipped := Node.topVar?_comm a b ▸ split
            obtain ⟨_, cofactorQ, _⟩ := sound.proper.admits_cofactor holdsQ flipped true
            refine (ih _ (smaller true) (sound.counted _) cofactorP cofactorQ rfl).bind ?_
            intro high middle soundMiddle onTrue
            have yieldsTrue := onTrue.yields sound.proper
            obtain ⟨_, restP, _⟩ := sound.proper.admits_cofactor holdsP split false
            obtain ⟨_, restQ, _⟩ := sound.proper.admits_cofactor holdsQ flipped false
            refine (ih _ (smaller false) soundMiddle (yieldsTrue.grown _ _ restP)
              (yieldsTrue.grown _ _ restQ) rfl).bind ?_
            intro low last soundLast onFalse
            have yieldsFalse := onFalse.yields soundMiddle.proper
            have orders :=
              sound.proper.orders_split holdsP holdsQ split yieldsTrue yieldsFalse
            exact (soundLast.decision orders).mono fun made =>
              .split holdsP holdsQ split onTrue onFalse made

/-! ## Restriction -/

theorem restrict {m : Manager} (sound : m.Sound) {f : Ref} {node : Node}
    (holds : m.arena.Holds f node) {var : Nat} (ne : var ≠ 0) (value : Bool) :
    Performs (restrict f var value) m fun arena => arena.Restricts var value f := by
  induction slot : f.slot using Nat.strongRecOn generalizing m f node with
  | ind n ih =>
      cases node with
      | leaf x => exact ⟨f, m, restrict_of_leaf ne value holds, sound, .unaffected ⟨_, holds, rfl⟩⟩
      | decision top high low =>
          have run := restrict_of_decision ne value holds
          rcases Nat.lt_trichotomy var top with before | rfl | after
          · rw [if_pos before] at run
            exact ⟨f, m, run, sound, .unaffected ⟨_, holds, decide_eq_true before⟩⟩
          · rw [if_neg (Nat.lt_irrefl var), if_pos rfl] at run
            exact ⟨_, m, run, sound, .here holds⟩
          · rw [if_neg (Nat.lt_asymm after), if_neg (Nat.ne_of_gt after)] at run
            have below : (Node.decision top high low).Below ⟨n⟩ := slot ▸ sound.proper.below holds
            obtain ⟨_, ⟨_, holdsHigh, _⟩, ⟨_, holdsLow, _⟩⟩ := sound.proper.orders holds
            refine .of_eq run (sound.memo (fun settled => settled.2) ?_ ?_)
            · intro ref later
              exact .of_restricts sound.proper holds after
            · refine (ih _ below.1 (sound.counted _) holdsHigh rfl).bind ?_
              intro onTrue middle soundMiddle restrictsHigh
              have yieldsHigh := restrictsHigh.yields sound.proper
              refine (ih _ below.2 soundMiddle (yieldsHigh.grown _ _ holdsLow) rfl).bind ?_
              intro onFalse last soundLast restrictsLow
              have yieldsLow := restrictsLow.yields soundMiddle.proper
              have orders := sound.proper.orders_branches holds yieldsHigh yieldsLow
              exact (soundLast.decision orders).mono fun made =>
                .deeper holds after restrictsHigh restrictsLow made

/-! ## Choice and renaming -/

theorem literal {m : Manager} (sound : m.Sound) {var : Nat} (ne : var ≠ 0) (positive : Bool) :
    Performs (literal var positive) m fun arena ref later =>
      arena.decision var (Ref.ofBool positive) (Ref.ofBool !positive) = (ref, later) :=
  sound.decision (sound.proper.orders_leaves ne positive !positive)

theorem choose {m : Manager} (sound : m.Sound) {var : Nat} (ne : var ≠ 0) {high low : Ref}
    {a b : Node} (holdsHigh : m.arena.Holds high a) (holdsLow : m.arena.Holds low b) :
    Performs (choose var high low) m fun arena => arena.Chooses var high low := by
  by_cases same : high = low
  · subst same
    exact ⟨high, m, (choose_of_eq m var high).trans (decision_of_eq m ne high), sound, .same⟩
  · by_cases ordered : a.admits var && b.admits var
    · refine .of_eq (choose_of_ordered same holdsHigh holdsLow ordered) ?_
      have orders := Arena.Proper.orders_nodes ne holdsHigh holdsLow ordered
      exact (sound.decision orders).mono (.plain same holdsHigh holdsLow ordered)
    · refine .of_eq (choose_of_disordered same holdsHigh holdsLow ordered) ?_
      refine (sound.literal ne true).bind ?_
      intro x withVar soundVar made
      have first := Arena.decided sound.proper (sound.proper.orders_leaves ne true false) made
      obtain ⟨_, holdsVar, _⟩ := first.admits (Nat.pos_of_ne_zero ne)
      refine (soundVar.apply .and holdsVar (first.grown _ _ holdsHigh)).bind ?_
      intro onTrue withTrue soundTrue conjTrue
      have second := conjTrue.yields soundVar.proper
      refine (soundTrue.apply .imply (second.grown _ _ holdsVar)
        (soundTrue.proper.leaf false)).bind ?_
      intro notX withNot soundNot negation
      have third := negation.yields soundTrue.proper
      obtain ⟨_, holdsNot, _⟩ := negation.inside soundTrue.proper
      have lowStill := (first.grown.trans (second.grown.trans third.grown)) _ _ holdsLow
      refine (soundNot.apply .and holdsNot lowStill).bind ?_
      intro onFalse withFalse soundFalse conjFalse
      have fourth := conjFalse.yields soundNot.proper
      obtain ⟨_, holdsTrue, _⟩ := conjTrue.inside soundVar.proper
      obtain ⟨_, holdsFalse, _⟩ := conjFalse.inside soundNot.proper
      refine (soundFalse.apply .or ((third.grown.trans fourth.grown) _ _ holdsTrue)
        holdsFalse).mono ?_
      exact .composed same holdsHigh holdsLow ordered made conjTrue negation conjFalse

theorem rename {m : Manager} (sound : m.Sound) (copy : StateCopy) {f : Ref} {node : Node}
    (holds : m.arena.Holds f node) :
    Performs (rename copy f) m fun arena => arena.Renames copy f := by
  induction slot : f.slot using Nat.strongRecOn generalizing m f node with
  | ind n ih =>
      cases node with
      | leaf x =>
          have leaf := sound.proper.isLeaf holds
          exact ⟨f, m, rename_of_leaf m copy leaf, sound, .leaf holds⟩
      | decision var high low =>
          have inner := sound.proper.not_isLeaf holds
          have below : (Node.decision var high low).Below ⟨n⟩ := slot ▸ sound.proper.below holds
          obtain ⟨nonzero, ⟨_, holdsHigh, _⟩, ⟨_, holdsLow, _⟩⟩ := sound.proper.orders holds
          refine .of_eq (rename_of_decision copy inner holds)
            (sound.memo (fun settled => settled.2) ?_ ?_)
          · intro ref later
            exact .of_renames sound.proper holds
          · refine (ih _ below.1 (sound.counted _) holdsHigh rfl).bind ?_
            intro onTrue middle soundMiddle renamesHigh
            have yieldsHigh := renamesHigh.yields sound.proper
            refine (ih _ below.2 soundMiddle (yieldsHigh.grown _ _ holdsLow) rfl).bind ?_
            intro onFalse last soundLast renamesLow
            have yieldsLow := renamesLow.yields soundMiddle.proper
            obtain ⟨_, holdsTrue, _⟩ := (yieldsHigh.admits rfl).extend yieldsLow.grown
            obtain ⟨_, holdsFalse, _⟩ := yieldsLow.admits rfl
            exact (soundLast.choose (copy.rename_ne_zero nonzero) holdsTrue holdsFalse).mono
              (.node holds renamesHigh renamesLow)

end Sound

end DecisionDiagram.Manager
