import Mathlib.Data.Finset.Card
import Mathlib.Data.List.Basic

/-!
# Nested calls

A program that traces its calls lists the chains of nested calls it makes, each from the outermost
call on. The call alone is the first of them, and apart from the list the program does what it does
untraced. Chains descend if every call but the last makes the next one, and they are shallow if the
calls are for variables in ascending order: no chain is longer, by more than one, than there are
variables.
-/

namespace DecisionDiagram

/-- Programs that list the chains of calls made so far, each from the outermost call on. -/
abbrev Tracing (κ : Type) (μ : Type → Type) := StateT (List (List κ)) μ

def calling {κ α : Type} {μ : Type → Type} [Monad μ] (call : κ) (body : Tracing κ μ α) :
    Tracing κ μ α := fun chains => do
  let ⟨result, inner⟩ ← body.run []
  return (result, chains ++ [call] :: inner.map (call :: ·))

def afresh {κ α σ : Type} {μ : Type → Type} [Monad μ] (noted : σ)
    (pass : Tracing κ (StateT σ μ) α) : Tracing κ μ α := fun chains =>
  (pass.run chains).run' noted

/-! ## Without the chains -/

section Erasure

variable {κ α β γ : Type} {μ : Type → Type} [Monad μ]

/-- Apart from the chains, the first program does what the second does. -/
def Erases (x : Tracing κ μ α) (y : μ α) : Prop :=
  ∀ chains, x.run' chains = y

namespace Erases

variable [LawfulMonad μ]

theorem lift (y : μ α) : Erases (liftM y : Tracing κ μ α) y := by
  intro chains
  change Prod.fst <$> (y >>= fun a => pure (a, chains)) = y
  rw [map_bind]
  simp only [map_pure, bind_pure]

theorem pure (a : α) : Erases (Pure.pure a : Tracing κ μ α) (Pure.pure a) :=
  fun chains => map_pure Prod.fst (a, chains)

theorem bind {x : Tracing κ μ α} {y : μ α} {next : α → Tracing κ μ β} {rest : α → μ β}
    (first : Erases x y) (others : ∀ a, Erases (next a) (rest a)) :
    Erases (x >>= next) (y >>= rest) := by
  intro chains
  calc Prod.fst <$> (x.run chains >>= fun result => (next result.1).run result.2)
      = x.run chains >>= fun result => (next result.1).run' result.2 := by rw [map_bind]; rfl
    _ = x.run chains >>= fun result => rest result.1 :=
        bind_congr fun result => others result.1 result.2
    _ = Prod.fst <$> x.run chains >>= rest := by rw [bind_map_left]
    _ = y >>= rest := congrArg (· >>= rest) (first chains)

/-- A result that is made of those of two calls, and noted. -/
theorem combine {x : Tracing κ μ α} {y : μ α} {x' : Tracing κ μ β} {y' : μ β}
    {make : α → β → μ γ} {note : γ → μ PUnit} (first : Erases x y) (second : Erases x' y') :
    Erases (do
        let a ← x
        let b ← x'
        let result ← liftM (make a b)
        liftM (note result)
        Pure.pure result : Tracing κ μ γ)
      (do
        let a ← y
        let b ← y'
        let result ← make a b
        note result
        Pure.pure result) :=
  first.bind fun a => second.bind fun b => (lift (make a b)).bind fun result =>
    (lift (note result)).bind fun _ => pure result

theorem calling {x : Tracing κ μ α} {y : μ α} (call : κ) (erases : Erases x y) :
    Erases (DecisionDiagram.calling call x) y := by
  intro chains
  calc Prod.fst <$> (x.run [] >>= fun result =>
          Pure.pure (result.1, chains ++ [call] :: result.2.map (call :: ·)))
      = x.run' [] := by rw [map_bind]; simp only [map_pure]; rw [← map_eq_pure_bind]; rfl
    _ = y := erases []

theorem afresh {σ : Type} {x : Tracing κ (StateT σ μ) α} {y : StateT σ μ α} (noted : σ)
    (erases : Erases x y) : Erases (DecisionDiagram.afresh noted x) (y.run' noted) := by
  intro chains
  rw [← erases chains]
  change Prod.fst <$> Prod.fst <$> (x.run chains).run noted =
    Prod.fst <$> (Prod.fst <$> x.run chains).run noted
  rw [StateT.run_map]
  simp only [Functor.map_map]

end Erases

end Erasure

/-! ## The outermost call -/

section Outermost

variable {κ α : Type} {μ : Type → Type} [Monad μ]

/-- The first chain that the program lists is that of the call alone. -/
def Opens (call : κ) (x : Tracing κ μ α) : Prop :=
  ∃ rest : μ (α × List (List κ)),
    x.run [] = (fun result => (result.1, [call] :: result.2)) <$> rest

namespace Opens

variable [LawfulMonad μ]

theorem calling (call : κ) (body : Tracing κ μ α) :
    Opens call (DecisionDiagram.calling call body) := by
  refine ⟨(fun result => (result.1, result.2.map (call :: ·))) <$> body.run [], ?_⟩
  rw [← comp_map]
  exact (map_eq_pure_bind _ _).symm

theorem afresh {σ : Type} {call : κ} {pass : Tracing κ (StateT σ μ) α} (noted : σ)
    (opens : Opens call pass) : Opens call (DecisionDiagram.afresh noted pass) := by
  obtain ⟨rest, run⟩ := opens
  refine ⟨Prod.fst <$> rest.run noted, ?_⟩
  change Prod.fst <$> (pass.run []).run noted = _
  rw [run, StateT.run_map, ← comp_map, ← comp_map]
  rfl

end Opens

end Outermost

/-! ## Descending chains -/

/-- The chain begins with the call, and every call of it makes the one that follows. -/
inductive Descends {κ : Type} (makes : κ → κ → Prop) : κ → List κ → Prop where
  | last (call : κ) : Descends makes call [call]
  | nest {call next : κ} {chain : List κ} (made : makes call next)
      (onward : Descends makes next chain) : Descends makes call (call :: chain)

def Continues {κ : Type} (makes : κ → κ → Prop) (call : κ) (chain : List κ) : Prop :=
  ∃ next, makes call next ∧ Descends makes next chain

/-! ## How programs end -/

/-- A way to say how programs end that is passed on by sequences of programs. -/
class Lasting {μ : Type → Type} [Monad μ]
    (ends : {α : Type} → μ α → (α → Prop) → Prop) : Prop where
  pure {α : Type} {a : α} {post : α → Prop} (met : post a) : ends (Pure.pure a) post
  bind {α β : Type} {x : μ α} {next : α → μ β} {post : α → Prop} {goal : β → Prop}
    (first : ends x post) (rest : ∀ a, post a → ends (next a) goal) : ends (x >>= next) goal

section Endings

variable {α σ : Type} {μ : Type → Type} [Monad μ]
  {ends : {α : Type} → μ α → (α → Prop) → Prop} [lasting : Lasting ends]

theorem Lasting.mono [LawfulMonad μ] {x : μ α} {post goal : α → Prop} (ended : ends x post)
    (implies : ∀ a, post a → goal a) : ends x goal := by
  rw [← bind_pure x]
  exact lasting.bind ended fun a met => lasting.pure (implies a met)

def Passing (ends : {α : Type} → μ α → (α → Prop) → Prop) (pass : StateT σ μ α)
    (post : α → Prop) : Prop :=
  ∀ noted, ends (pass.run noted) fun result => post result.1

instance : Lasting (Passing ends : {α : Type} → StateT σ μ α → (α → Prop) → Prop) where
  pure met := fun _ => lasting.pure met
  bind first rest := fun noted => lasting.bind (first noted) fun result met =>
    rest result.1 met result.2

theorem Passing.lift {x : μ α} {post : α → Prop} (ended : ends x post) :
    Passing ends (liftM x : StateT σ μ α) post :=
  fun noted => lasting.bind ended fun a met => lasting.pure (a := (a, noted)) met

theorem Passing.get : Passing ends (get : StateT σ μ σ) fun _ => True :=
  fun _ => lasting.pure trivial

theorem Passing.modify (change : σ → σ) :
    Passing ends (modify change : StateT σ μ PUnit) fun _ => True :=
  fun _ => lasting.pure trivial

end Endings

/-! ## The chains of a program -/

/-- All chains that the program adds to the list are allowed. -/
def Traces {κ α : Type} {μ : Type → Type} (ends : {α : Type} → μ α → (α → Prop) → Prop)
    (allowed : List κ → Prop) (x : Tracing κ μ α) : Prop :=
  ∀ chains, ends (x.run chains) fun result =>
    ∀ chain ∈ result.2, chain ∈ chains ∨ allowed chain

namespace Traces

variable {κ α β γ : Type} {μ : Type → Type} [Monad μ]
  {ends : {α : Type} → μ α → (α → Prop) → Prop} [lasting : Lasting ends]
  {allowed : List κ → Prop}

theorem pure (a : α) : Traces ends allowed (Pure.pure a : Tracing κ μ α) :=
  fun _ => lasting.pure fun _ before => Or.inl before

theorem bind [LawfulMonad μ] {x : Tracing κ μ α} {next : α → Tracing κ μ β}
    (first : Traces ends allowed x) (rest : ∀ a, Traces ends allowed (next a)) :
    Traces ends allowed (x >>= next) := by
  intro chains
  refine lasting.bind (first chains) fun result added => ?_
  refine Lasting.mono (rest result.1 result.2) fun last more chain listed => ?_
  rcases more chain listed with before | met
  · exact added chain before
  · exact Or.inr met

/-- A step that calls nothing, whose result is known. -/
theorem lift_bind [LawfulMonad μ] {y : μ α} {next : α → Tracing κ μ β} {post : α → Prop}
    (first : ends y post) (rest : ∀ a, post a → Traces ends allowed (next a)) :
    Traces ends allowed (liftM y >>= next : Tracing κ μ β) := by
  intro chains
  have whole : (liftM y >>= next : Tracing κ μ β).run chains =
      y >>= fun a => (next a).run chains := by
    change (y >>= fun a => Pure.pure (a, chains)) >>= _ = _
    rw [bind_assoc]
    simp only [pure_bind]
    rfl
  rw [whole]
  exact lasting.bind first fun a met => rest a met chains

/-- A result that is made of those of two calls, and noted. -/
theorem combine [LawfulMonad μ] {x : Tracing κ μ α} {y : Tracing κ μ β} {make : α → β → μ γ}
    {note : γ → μ PUnit} (first : Traces ends allowed x) (second : Traces ends allowed y)
    (makes : ∀ a b, ends (make a b) fun _ => True) (notes : ∀ c, ends (note c) fun _ => True) :
    Traces ends allowed (do
      let a ← x
      let b ← y
      let result ← liftM (make a b)
      liftM (note result)
      Pure.pure result : Tracing κ μ γ) :=
  first.bind fun a => second.bind fun b => lift_bind (makes a b) fun result _ =>
    lift_bind (notes result) fun _ _ => pure result

/-- Starting with no chains, the program lists allowed ones only. -/
theorem run_nil [LawfulMonad μ] {x : Tracing κ μ α} (traces : Traces ends allowed x) :
    ends (x.run []) fun result => ∀ chain ∈ result.2, allowed chain :=
  Lasting.mono (traces []) fun _ added chain listed =>
    (added chain listed).resolve_left List.not_mem_nil

/-- The chains of a call made by another one go on from that one. -/
theorem nested [LawfulMonad μ] {makes : κ → κ → Prop} {call next : κ} {x : Tracing κ μ α}
    (made : makes call next) (traces : Traces ends (Descends makes next) x) :
    Traces ends (Continues makes call) x :=
  fun chains => Lasting.mono (traces chains) fun _ added chain listed =>
    (added chain listed).imp_right fun descends => ⟨next, made, descends⟩

/-- The chains of a call descend if those of its body go on from it. -/
theorem calling [LawfulMonad μ] {makes : κ → κ → Prop} {call : κ} {body : Tracing κ μ α}
    (inner : Traces ends (Continues makes call) body) :
    Traces ends (Descends makes call) (calling call body) := by
  intro chains
  refine lasting.bind inner.run_nil fun result added => lasting.pure fun chain listed => ?_
  rcases List.mem_append.mp listed with before | new
  · exact Or.inl before
  · rcases List.mem_cons.mp new with rfl | continued
    · exact Or.inr (.last call)
    · obtain ⟨onward, within, rfl⟩ := List.mem_map.mp continued
      obtain ⟨next, made, descends⟩ := added onward within
      exact Or.inr (.nest made descends)

theorem afresh [LawfulMonad μ] {σ : Type} {pass : Tracing κ (StateT σ μ) α} (noted : σ)
    (traces : Traces (Passing ends) allowed pass) : Traces ends allowed (afresh noted pass) := by
  intro chains
  change ends (Prod.fst <$> (pass.run chains).run noted) _
  rw [map_eq_pure_bind]
  exact lasting.bind (traces chains noted) fun result added => lasting.pure added

end Traces

/-! ## Shallow chains -/

/-- The chain begins with the call, only its last call may have no variable, and the variables of
its calls are in ascending order and among the given ones. -/
structure Shallow {κ : Type} (var? : κ → Option Nat) (vars : Finset Nat) (call : κ)
    (chain : List κ) : Prop where
  head : chain.head? = some call
  decides : ∀ outer ∈ chain.dropLast, (var? outer).isSome
  ascends : (chain.filterMap var?).Pairwise (· < ·)
  within : ∀ var ∈ chain.filterMap var?, var ∈ vars
  length_le : chain.length ≤ vars.card + 1

/-- Only calls with a variable make others, which then come to later variables only. -/
structure Ordered {κ : Type} (makes : κ → κ → Prop) (var? : κ → Option Nat)
    (mentions : κ → Nat → Prop) : Prop where
  top {call : κ} {var : Nat} (found : var? call = some var) : mentions call var
  later {call next : κ} (made : makes call next) :
    ∃ var, var? call = some var ∧ ∀ other, mentions next other → var < other ∧ mentions call other

namespace Descends

variable {κ : Type} {makes : κ → κ → Prop} {call : κ} {chain : List κ}

theorem head?_eq (descends : Descends makes call chain) : chain.head? = some call := by
  cases descends <;> rfl

theorem ne_nil (descends : Descends makes call chain) : chain ≠ [] := by
  cases descends <;> exact List.cons_ne_nil _ _

variable {var? : κ → Option Nat} {mentions : κ → Nat → Prop}
  (ordered : Ordered makes var? mentions)
include ordered

theorem decides (descends : Descends makes call chain) :
    ∀ outer ∈ chain.dropLast, (var? outer).isSome := by
  induction descends with
  | last call => simp
  | nest made onward ih =>
      obtain ⟨var, found, _⟩ := ordered.later made
      rw [List.dropLast_cons_of_ne_nil onward.ne_nil, List.forall_mem_cons, found]
      exact ⟨rfl, ih⟩

theorem mentions_of_mem (descends : Descends makes call chain) :
    ∀ var ∈ chain.filterMap var?, mentions call var := by
  induction descends with
  | last call =>
      intro var inside
      obtain ⟨outer, same, found⟩ := List.mem_filterMap.mp inside
      exact ordered.top (List.mem_singleton.mp same ▸ found)
  | nest made onward ih =>
      obtain ⟨top, found, later⟩ := ordered.later made
      rw [List.filterMap_cons_some found, List.forall_mem_cons]
      exact ⟨ordered.top found, fun var inside => (later var (ih var inside)).2⟩

theorem ascends (descends : Descends makes call chain) :
    (chain.filterMap var?).Pairwise (· < ·) := by
  induction descends with
  | last call => cases found : var? call <;> simp [found]
  | nest made onward ih =>
      obtain ⟨top, found, later⟩ := ordered.later made
      rw [List.filterMap_cons_some found, List.pairwise_cons]
      exact ⟨fun var inside => (later var (onward.mentions_of_mem ordered var inside)).1, ih⟩

theorem length_le (descends : Descends makes call chain) :
    chain.length ≤ (chain.filterMap var?).length + 1 := by
  induction descends with
  | last call => exact Nat.le_add_left 1 _
  | nest made onward ih =>
      obtain ⟨top, found, _⟩ := ordered.later made
      rw [List.filterMap_cons_some found]
      exact Nat.succ_le_succ ih

theorem shallow (descends : Descends makes call chain) {vars : Finset Nat}
    (listed : ∀ var, mentions call var → var ∈ vars) : Shallow var? vars call chain := by
  have ascends := descends.ascends ordered
  have within (var : Nat) (inside : var ∈ chain.filterMap var?) : var ∈ vars :=
    listed var (descends.mentions_of_mem ordered var inside)
  refine ⟨descends.head?_eq, descends.decides ordered, ascends, within, ?_⟩
  -- Ascending variables are different, so there are no more of them than in the set.
  have distinct : (chain.filterMap var?).Nodup := ascends.imp Nat.ne_of_lt
  calc chain.length ≤ (chain.filterMap var?).length + 1 := descends.length_le ordered
    _ = (chain.filterMap var?).toFinset.card + 1 := by rw [List.toFinset_card_of_nodup distinct]
    _ ≤ vars.card + 1 := Nat.succ_le_succ
        (Finset.card_le_card fun var inside => within var (List.mem_toFinset.mp inside))

end Descends

end DecisionDiagram
