import DecisionDiagram.Manager.Apply
import DecisionDiagram.Manager.Detach
import DecisionDiagram.Manager.Query

/-!
# Operations as data

Whatever can be done with a manager is an `Operation`, and `Operation.perform`
does it. A history of a manager is a list of operations; those that fail are
part of it, since they may have had effects.
-/

namespace DecisionDiagram

inductive Operation where
  | leaf (value : Bool)
  | decision (var : Nat) (high low : Ref)
  | literal (var : Nat) (positive : Bool)
  | apply (op : Connective) (p q : Ref)
  | neg (f : Ref)
  | conjAll (diagrams : List Ref)
  | disjAll (diagrams : List Ref)
  | restrict (f : Ref) (var : Nat) (value : Bool)
  | existsVar (f : Ref) (var : Nat)
  | forallVar (f : Ref) (var : Nat)
  | existsVars (f : Ref) (vars : List Nat)
  | rename (copy : StateCopy) (f : Ref)
  | rebuild (f : Ref)
  | attach (d : Detached)
  | detach (f : Ref) (supply : Supply)
  | clearComputed
  | inspect (f : Ref)
  | decisions (f : Ref)
  | text (f : Ref)
  | support (f : Ref)
  | equals (p q : Ref)
  | contains (p q : Ref)
  | intersects (p q : Ref)
  | cofactors (f : Ref) (var : Nat)
  | evaluate (f : Ref) (assignment : Nat → Bool)
  | truthTable (f : Ref) (vars : List Nat)

inductive Answer where
  | done
  | ref (ref : Ref)
  | pair (high low : Ref)
  | truth (value : Bool)
  | truths (values : List Bool)
  | node (node : Node)
  | decisions (nodes : List (Ref × Node))
  | vars (vars : List Nat)
  | text (text : String)
  | detached (d : Detached) (supply : Supply)

namespace Operation

open Manager in
def perform : Operation → ManagerM Answer
  | leaf value => return .ref (Ref.ofBool value)
  | decision var high low => .ref <$> Manager.decision var high low
  | literal var positive => .ref <$> Manager.literal var positive
  | apply op p q => .ref <$> Manager.apply op p q
  | neg f => .ref <$> Manager.neg f
  | conjAll diagrams => .ref <$> Manager.conjAll diagrams
  | disjAll diagrams => .ref <$> Manager.disjAll diagrams
  | restrict f var value => .ref <$> Manager.restrict f var value
  | existsVar f var => .ref <$> Manager.existsVar f var
  | forallVar f var => .ref <$> Manager.forallVar f var
  | existsVars f vars => .ref <$> Manager.existsVars f vars
  | rename copy f => .ref <$> Manager.rename copy f
  | rebuild f => .ref <$> Manager.rebuild f
  | attach d => .ref <$> Manager.attach d
  | detach f supply => ask fun m =>
      let ⟨result, supply⟩ := (m.detach f).run supply
      result.map (.detached · supply)
  | clearComputed => do
      Manager.clearComputed
      return .done
  | inspect f => do
      let node ← fetch f
      return .node node
  | decisions f => .decisions <$> ask (·.decisions f)
  | text f => .text <$> ask (·.text f)
  | support f => .vars <$> ask (·.support f)
  | equals p q => .truth <$> ask (·.equals p q)
  | contains p q => .truth <$> Manager.contains p q
  | intersects p q => .truth <$> Manager.intersects p q
  | cofactors f var => do
      let ⟨high, low⟩ ← ask (·.cofactors f var)
      return .pair high low
  | evaluate f assignment => .truth <$> ask (·.evaluate f assignment)
  | truthTable f vars => .truths <$> ask (·.truthTable f vars)

end Operation

end DecisionDiagram
