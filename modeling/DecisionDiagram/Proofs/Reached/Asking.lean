import DecisionDiagram.Proofs.Reached.Guarded

/-!
# Asking for cofactors

Application reads the cofactors of its operands off their nodes. A program may ask the manager for
them instead, and such a question is refused for variables below the top one. In a recursion that
splits on the smaller of the top variables this never happens, so both programs do the same.
-/

namespace DecisionDiagram.Manager

/--
Application as a program that asks for the cofactors of its operands, with a bound on the depth of
the recursion. A question for cofactors checks that its variable is not below the top one.
-/
def applyAsking (op : Connective) : Nat → Ref → Ref → ManagerM Ref
  | 0, p, _ => throw (.foreignRef p)
  | depth + 1, p, q => do
      let ⟨a, _⟩ ← fetch p
      let ⟨b, _⟩ ← fetch q
      match Node.topVar? a b with
      | none => return Ref.ofBool (op.eval a.value b.value)
      | some var =>
          memo (.ofApply op p q) do
            let ⟨highP, lowP⟩ ← ask (·.cofactors p var)
            let ⟨highQ, lowQ⟩ ← ask (·.cofactors q var)
            let high ← applyAsking op depth highP highQ
            let low ← applyAsking op depth lowP lowQ
            decision var high low

/-- Sequences agree if their first steps do and their rests do after a success. -/
theorem bind_congr_run {α β : Type} {m : Manager} {x y : ManagerM α} {f g : α → ManagerM β}
    (same : x m = y m) (rest : ∀ {a later}, y m = .ok a later → f a later = g a later) :
    (x >>= f) m = (y >>= g) m := by
  cases run : y m with
  | ok a later => rw [bind_ok (same.trans run), bind_ok run, rest run]
  | error fault later => rw [bind_error (same.trans run), bind_error run]

theorem memo_congr {m : Manager} {key : ComputedKey} {first second : ManagerM Ref}
    (same : first (m.counted key) = second (m.counted key)) :
    memo key first m = memo key second m := by
  rw [memo, memo, bind_ok (remembered_eq m key), bind_ok (remembered_eq m key)]
  cases m.computed.entries[key]? with
  | some ref => rfl
  | none => exact bind_congr_run same fun _ => rfl

theorem cofactors_of_split {m : Manager} {p : Ref} {a b : Node} (holds : m.arena.Holds p a)
    {var : Nat} (nonzero : var ≠ 0) (split : Node.topVar? a b = some var) :
    m.cofactors p var = .ok (a.cofactor var true p, a.cofactor var false p) := by
  refine cofactors_of_holds holds nonzero fun top high low same => ?_
  subst same
  exact Node.le_of_topVar? split

theorem applyAsking_of_split {m : Manager} (op : Connective) (depth : Nat) {p q : Ref} {a b : Node}
    {var : Nat} (holdsP : m.arena.Holds p a) (holdsQ : m.arena.Holds q b) (nonzero : var ≠ 0)
    (split : Node.topVar? a b = some var) :
    applyAsking op (depth + 1) p q m = memo (.ofApply op p q) (do
      let high ← applyAsking op depth (a.cofactor var true p) (b.cofactor var true q)
      let low ← applyAsking op depth (a.cofactor var false p) (b.cofactor var false q)
      decision var high low) m := by
  have stillP : (m.counted (.ofApply op p q)).arena.Holds p a := holdsP
  have stillQ : (m.counted (.ofApply op p q)).arena.Holds q b := holdsQ
  have flipped := Node.topVar?_comm a b ▸ split
  rw [applyAsking, bind_ok (fetch_of_holds holdsP)]
  dsimp only
  rw [bind_ok (fetch_of_holds holdsQ)]
  dsimp only
  rw [split]
  refine memo_congr ?_
  rw [bind_ok (ask_eq_ok (cofactors_of_split stillP nonzero split)),
    bind_ok (ask_eq_ok (cofactors_of_split stillQ nonzero flipped))]

theorem applyAsking_of_leaves {m : Manager} (op : Connective) (depth : Nat) {p q : Ref}
    {x y : Bool} (holdsP : m.arena.Holds p (.leaf x)) (holdsQ : m.arena.Holds q (.leaf y)) :
    applyAsking op (depth + 1) p q m = .ok (Ref.ofBool (op.eval x y)) m := by
  rw [applyAsking, bind_ok (fetch_of_holds holdsP)]
  dsimp only
  rw [bind_ok (fetch_of_holds holdsQ)]
  rfl

theorem applyAsking_of_foreign {m : Manager} (op : Connective) (depth : Nat) {p q : Ref}
    (foreign : m.Foreign p q) : applyAsking op (depth + 1) p q m = apply op p q m := by
  by_cases residentP : m.Resident p
  · obtain ⟨a, holdsP⟩ := resident_iff.mp residentP
    have foreignQ := foreign.resolve_left (not_not_intro residentP)
    rw [apply_of_foreign_right op holdsP foreignQ, applyAsking, bind_ok (fetch_of_holds holdsP)]
    exact bind_error (fetch_of_foreign foreignQ)
  · rw [apply_of_foreign_left op q residentP, applyAsking]
    exact bind_error (fetch_of_foreign residentP)

/-- The question for cofactors is never refused, so asking it makes no difference. -/
theorem applyAsking_eq_apply {m : Manager} (sound : m.Sound) (op : Connective) {depth : Nat}
    {p q : Ref} (deep : p.slot + q.slot < depth) :
    applyAsking op depth p q m = apply op p q m := by
  induction depth generalizing m p q with
  | zero => exact absurd deep (Nat.not_lt_zero _)
  | succ depth ih =>
      by_cases foreign : m.Foreign p q
      case pos => exact applyAsking_of_foreign op depth foreign
      obtain ⟨residentP, residentQ⟩ := not_or.mp foreign
      obtain ⟨a, holdsP⟩ := resident_iff.mp (Classical.not_not.mp residentP)
      obtain ⟨b, holdsQ⟩ := resident_iff.mp (Classical.not_not.mp residentQ)
      cases split : Node.topVar? a b with
      | none =>
          obtain ⟨⟨x, rfl⟩, ⟨y, rfl⟩⟩ := Node.leaves_of_topVar? split
          rw [apply_of_leaves op holdsP holdsQ, applyAsking_of_leaves op depth holdsP holdsQ]
      | some var =>
          have nonzero := sound.proper.split_ne_zero holdsP holdsQ split
          have smaller (value : Bool) := Nat.lt_of_lt_of_le (Node.cofactors_slot_lt
            (sound.proper.below holdsP) (sound.proper.below holdsQ) split value)
            (Nat.le_of_lt_succ deep)
          rw [apply_of_split op holdsP holdsQ split,
            applyAsking_of_split op depth holdsP holdsQ nonzero split]
          -- Both branches run on sound managers, which is all that the induction asks for.
          have counted := sound.counted (.ofApply op p q)
          refine memo_congr (bind_congr_run (ih counted (smaller true)) fun runHigh => ?_)
          have soundHigh := ((Steady.apply op _ _).kept counted runHigh).1
          exact bind_congr_run (ih soundHigh (smaller false)) fun _ => rfl

end DecisionDiagram.Manager
