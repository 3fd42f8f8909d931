import DecisionDiagram.Proofs.Manager.Keeping
import DecisionDiagram.Proofs.Manager.Tracing
import DecisionDiagram.Proofs.Reached.Support

/-!
# Descents

A recursion over stored diagrams goes from decisions to branches, or from two diagrams to cofactors
of both. It does so in the nodes that were there at first: they stay whatever nodes are made
meanwhile, and no call is for a new one. Variables ascend along branches and cofactors.
-/

namespace DecisionDiagram

def Node.var? : Node → Option Nat
  | leaf _ => none
  | decision var _ _ => some var

namespace Arena

/-! ## Branches and splits -/

def var? (arena : Arena) (f : Ref) : Option Nat :=
  arena[f.slot]?.bind Node.var?

def splitVar? (arena : Arena) (operands : Ref × Ref) : Option Nat := do
  let a ← arena[operands.1.slot]?
  let b ← arena[operands.2.slot]?
  Node.topVar? a b

inductive Branch (arena : Arena) : Ref → Ref → Prop where
  | high {f high low : Ref} {var : Nat} (holds : arena.Holds f (.decision var high low)) :
      Branch arena f high
  | low {f high low : Ref} {var : Nat} (holds : arena.Holds f (.decision var high low)) :
      Branch arena f low

/-- The second diagrams are cofactors of the first, for the variable on which those are split. -/
inductive Split (arena : Arena) : Ref × Ref → Ref × Ref → Prop where
  | cofactors {p q : Ref} {a b : Node} {var : Nat} (holdsP : arena.Holds p a)
      (holdsQ : arena.Holds q b) (split : Node.topVar? a b = some var) (value : Bool) :
      Split arena (p, q) (a.cofactor var value p, b.cofactor var value q)

variable {arena : Arena}

theorem var?_of_holds {f : Ref} {node : Node} (holds : arena.Holds f node) :
    arena.var? f = node.var? := by
  rw [var?, show arena[f.slot]? = some node from holds, Option.bind_some]

theorem splitVar?_of_holds {p q : Ref} {a b : Node} (holdsP : arena.Holds p a)
    (holdsQ : arena.Holds q b) : arena.splitVar? (p, q) = Node.topVar? a b := by
  rw [splitVar?, show arena[p.slot]? = some a from holdsP,
    show arena[q.slot]? = some b from holdsQ]
  rfl

theorem mentions_of_var? {f : Ref} {var : Nat} (found : arena.var? f = some var) :
    arena.Mentions f var := by
  obtain ⟨node, holds, label⟩ := Option.bind_eq_some_iff.mp found
  cases node with
  | leaf value => cases label
  | decision top high low =>
      obtain rfl : top = var := Option.some.inj label
      exact .top holds

theorem mentions_of_splitVar? {p q : Ref} {var : Nat} (found : arena.splitVar? (p, q) = some var) :
    arena.Mentions p var ∨ arena.Mentions q var := by
  obtain ⟨a, holdsP, rest⟩ := Option.bind_eq_some_iff.mp found
  obtain ⟨b, holdsQ, split⟩ := Option.bind_eq_some_iff.mp rest
  rcases Node.topVar?_eq_some split with ⟨_, _, rfl⟩ | ⟨_, _, rfl⟩
  · exact Or.inl (.top holdsP)
  · exact Or.inr (.top holdsQ)

/-- What a cofactor mentions, the diagram does. -/
theorem Mentions.of_cofactor {f : Ref} {node : Node} (holds : arena.Holds f node) {var other : Nat}
    {value : Bool} (mentions : arena.Mentions (node.cofactor var value f) other) :
    arena.Mentions f other := by
  cases node with
  | leaf x => exact mentions
  | decision top high low =>
      rw [Node.cofactor] at mentions
      split at mentions
      · cases value
        · exact .low holds mentions
        · exact .high holds mentions
      · exact mentions

section Proper

variable (proper : arena.Proper)
include proper

theorem Proper.ordered_branch : Ordered arena.Branch arena.var? arena.Mentions where
  top := mentions_of_var?
  later made := by
    cases made with
    | high holds =>
        refine ⟨_, var?_of_holds holds, fun other inside => ⟨?_, .high holds inside⟩⟩
        exact inside.lt proper (proper.orders holds).high
    | low holds =>
        refine ⟨_, var?_of_holds holds, fun other inside => ⟨?_, .low holds inside⟩⟩
        exact inside.lt proper (proper.orders holds).low

theorem Proper.ordered_split : Ordered arena.Split arena.splitVar?
    fun operands var => arena.Mentions operands.1 var ∨ arena.Mentions operands.2 var where
  top := mentions_of_splitVar?
  later made := by
    cases made with
    | @cofactors p q a b var holdsP holdsQ split value =>
        refine ⟨var, (splitVar?_of_holds holdsP holdsQ).trans split, ?_⟩
        rintro other (insideP | insideQ)
        · have lt := insideP.lt proper (proper.admits_cofactor holdsP split value)
          exact ⟨lt, Or.inl (insideP.of_cofactor holdsP)⟩
        · have flipped := (Node.topVar?_comm a b).trans split
          have lt := insideQ.lt proper (proper.admits_cofactor holdsQ flipped value)
          exact ⟨lt, Or.inr (insideQ.of_cofactor holdsQ)⟩

end Proper

end Arena

namespace Manager

/-! ## The calls of operations -/

section Traces

variable {arena : Arena} (proper : arena.Proper)
include proper

/-- Calls for the branches of a decision continue a call for the decision. -/
theorem traces_branches {α : Type} {μ : Type → Type} [Monad μ] [LawfulMonad μ]
    {ends : {α : Type} → μ α → (α → Prop) → Prop} [Lasting ends] {x : Ref → Tracing Ref μ α}
    {f high low : Ref} {var : Nat} (holds : arena.Holds f (.decision var high low))
    (earlier : ∀ {g node}, g.slot < f.slot → arena.Holds g node →
      Traces ends (Descends arena.Branch g) (x g)) :
    Traces ends (Continues arena.Branch f) (x high) ∧
      Traces ends (Continues arena.Branch f) (x low) := by
  obtain ⟨_, ⟨_, holdsHigh, _⟩, ⟨_, holdsLow, _⟩⟩ := proper.orders holds
  have below := proper.below holds
  exact ⟨.nested (.high holds) (earlier below.1 holdsHigh),
    .nested (.low holds) (earlier below.2 holdsLow)⟩

/-- A connective calls itself on cofactors of its operands, whatever nodes are made meanwhile. -/
theorem traces_apply (op : Connective) {p q : Ref} {a b : Node} (holdsP : arena.Holds p a)
    (holdsQ : arena.Holds q b) :
    Traces (Keeping arena) (Descends arena.Split (p, q)) (applyTracing op p q) := by
  induction size : p.slot + q.slot using Nat.strongRecOn generalizing p q a b with
  | ind n ih =>
      rw [applyTracing]
      refine .calling (.lift_bind (.fetch holdsP) ?_)
      rintro _ ⟨belowP, rfl⟩
      refine .lift_bind (.fetch holdsQ) ?_
      rintro _ ⟨belowQ, rfl⟩
      dsimp only
      cases split : Node.topVar? a b with
      | none => exact .pure _
      | some var =>
          refine .lift_bind (.remembered _) fun found _ => ?_
          cases found with
          | some result => exact .pure result
          | none =>
              -- The nodes were read before any call: what one branch makes does not change the other.
              have branch (value : Bool) : Traces (Keeping arena) (Continues arena.Split (p, q))
                  (applyTracing op (a.cofactor var value p) (b.cofactor var value q)) := by
                have smaller := Node.cofactors_slot_lt belowP belowQ split value
                have flipped := (Node.topVar?_comm a b).trans split
                obtain ⟨_, insideP, _⟩ := proper.admits_cofactor holdsP split value
                obtain ⟨_, insideQ, _⟩ := proper.admits_cofactor holdsQ flipped value
                exact .nested (.cofactors holdsP holdsQ split value)
                  (ih _ (size ▸ smaller) insideP insideQ rfl)
              exact .combine (branch true) (branch false) (.decision var) (.remember _)

theorem traces_restrict {f : Ref} {node : Node} (holds : arena.Holds f node) {var : Nat}
    (ne : var ≠ 0) (value : Bool) :
    Traces (Keeping arena) (Descends arena.Branch f) (restrictTracing f var value) := by
  induction slot : f.slot using Nat.strongRecOn generalizing f node with
  | ind n ih =>
      rw [restrictTracing]
      refine .calling ?_
      dsimp only
      rw [if_neg ne]
      refine .lift_bind (.fetch holds) ?_
      rintro _ ⟨_, rfl⟩
      cases node with
      | leaf x => exact .pure f
      | decision top high low =>
          dsimp only
          split
          · exact .pure f
          split
          · exact .pure _
          refine .lift_bind (.remembered _) fun found _ => ?_
          cases found with
          | some result => exact .pure result
          | none =>
              obtain ⟨onTrue, onFalse⟩ := traces_branches proper holds
                fun lt inside => ih _ (slot ▸ lt) inside rfl
              exact .combine onTrue onFalse (.decision top) (.remember _)

theorem traces_rename (copy : StateCopy) {f : Ref} {node : Node} (holds : arena.Holds f node) :
    Traces (Keeping arena) (Descends arena.Branch f) (renameTracing copy f) := by
  induction slot : f.slot using Nat.strongRecOn generalizing f node with
  | ind n ih =>
      rw [renameTracing]
      refine .calling ?_
      dsimp only
      split
      · exact .pure f
      refine .lift_bind (.remembered _) fun found _ => ?_
      cases found with
      | some result => exact .pure result
      | none =>
          refine .lift_bind (.fetch holds) ?_
          rintro _ ⟨_, rfl⟩
          cases node with
          | leaf x => exact .pure f
          | decision var high low =>
              obtain ⟨onTrue, onFalse⟩ := traces_branches proper holds
                fun lt inside => ih _ (slot ▸ lt) inside rfl
              exact .combine onTrue onFalse (.choose _) (.remember _)

theorem traces_rebuildFrom {f : Ref} {node : Node} (holds : arena.Holds f node) :
    Traces (Passing (Keeping arena)) (Descends arena.Branch f) (rebuildFromTracing f) := by
  induction slot : f.slot using Nat.strongRecOn generalizing f node with
  | ind n ih =>
      rw [rebuildFromTracing]
      refine .calling (.lift_bind (Passing.lift (.fetch holds)) ?_)
      rintro _ ⟨_, rfl⟩
      cases node with
      | leaf x => exact .pure f
      | decision var high low =>
          refine .lift_bind Passing.get fun noted _ => ?_
          cases noted[f.slot]? with
          | some result => exact .pure result
          | none =>
              obtain ⟨onTrue, onFalse⟩ := traces_branches proper holds
                fun lt inside => ih _ (slot ▸ lt) inside rfl
              exact .combine onTrue onFalse (fun high low => Passing.lift (.decision var high low))
                fun _ => Passing.modify _

end Traces

section Reading

variable {m : Manager} (proper : m.arena.Proper)
include proper

theorem traces_detachFrom {f : Ref} {node : Node} (holds : m.arena.Holds f node) :
    Traces (Passing Drawing) (Descends m.arena.Branch f) (m.detachFromTracing f) := by
  induction slot : f.slot using Nat.strongRecOn generalizing f node with
  | ind n ih =>
      rw [detachFromTracing, node_of_holds holds]
      refine .calling (.lift_bind Passing.get fun copied _ => ?_)
      cases copied[f.slot]? with
      | some d => exact .pure d
      | none =>
          refine .lift_bind (Drawing.found _) ?_
          rintro _ rfl
          cases node with
          | leaf x =>
              exact .lift_bind (Passing.lift (.any _)) fun d _ =>
                .lift_bind (Passing.modify _) fun _ _ => .pure d
          | decision var high low =>
              obtain ⟨onTrue, onFalse⟩ := traces_branches proper holds
                fun lt inside => ih _ (slot ▸ lt) inside rfl
              exact .combine onTrue onFalse (fun _ _ => Passing.lift (.any _))
                fun _ => Passing.modify _

theorem traces_evaluate (assignment : Nat → Bool) {f : Ref} {node : Node}
    (holds : m.arena.Holds f node) :
    Traces Answering (Descends m.arena.Branch f) (m.evaluateTracing f assignment) := by
  induction slot : f.slot using Nat.strongRecOn generalizing f node with
  | ind n ih =>
      rw [evaluateTracing, node_of_holds holds]
      cases node with
      | leaf x => exact .calling (.pure x)
      | decision var high low =>
          obtain ⟨onTrue, onFalse⟩ := traces_branches proper holds
            fun lt inside => ih _ (slot ▸ lt) inside rfl
          refine .calling ?_
          change Traces Answering _ (if assignment var then _ else _)
          split
          · exact onTrue
          · exact onFalse

end Reading

end Manager

end DecisionDiagram
