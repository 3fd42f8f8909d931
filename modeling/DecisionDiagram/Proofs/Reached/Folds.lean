import DecisionDiagram.Proofs.Reached.Ensures

/-!
# Folds in reached managers

The conjunction of a list of diagrams is true where all of them are, and the disjunction where some
of them is. So only the members of the list matter for the reference that a fold brings: not their
order, not their number, not whether parts of the list are folded first, and not what else is done
with the manager in between.
-/

namespace DecisionDiagram.Manager

/-- A history as a step of a program, which drops what the operations bring. -/
def meanwhile (history : List Operation) : ManagerM Unit :=
  fun m => .ok () (Operation.run history m).2

def foldPart (fold : List Ref → ManagerM Ref) (part : List Ref × List Operation) :
    ManagerM Ref := do
  let f ← fold part.1
  meanwhile part.2
  return f

/-- Fold each part by itself, with a history after it, and then fold the results. -/
def foldParts (fold : List Ref → ManagerM Ref) (parts : List (List Ref × List Operation)) :
    ManagerM Ref := do
  let folded ← parts.mapM (foldPart fold)
  fold folded

/--
Folding the list builds a diagram of the set, and lists of the same members are folded to the same
reference, at once or in parts.
-/
structure Folds (fold : List Ref → ManagerM Ref) (diagrams : List Ref) (m : Manager)
    (S : (Nat → Bool) → Prop) : Prop where
  builds : Builds (fold diagrams) m S
  members : ∀ others, (∀ f, f ∈ others ↔ f ∈ diagrams) →
    Coincide (fold diagrams) (fold others) m
  parts : ∀ parts : List (List Ref × List Operation),
    (∀ f, f ∈ (parts.map Prod.fst).flatten ↔ f ∈ diagrams) →
      Coincide (fold diagrams) (foldParts fold parts) m

section Sound

variable {m : Manager} (sound : m.Sound)
include sound

theorem ensures_meanwhile (history : List Operation) :
    Ensures (meanwhile history) m fun _ _ => True := by
  obtain ⟨soundLater, grown⟩ := Operation.run_kept sound history
  exact ⟨(), _, rfl, soundLater, grown, trivial⟩

omit sound in
theorem builds_foldPart {fold : List Ref → ManagerM Ref} {part : List Ref × List Operation}
    {S : (Nat → Bool) → Prop} (builds : Builds (fold part.1) m S) :
    Builds (foldPart fold part) m S := by
  refine builds.bind fun soundFold _ folded => ?_
  refine (ensures_meanwhile soundFold part.2).bind fun soundLater grown _ => ?_
  exact .pure soundLater (folded.extend soundFold grown)

/-- Parts are folded to diagrams of their sets, and those to a diagram of the whole. -/
theorem builds_foldParts {fold : List Ref → ManagerM Ref} {whole : List Ref → (Nat → Bool) → Prop}
    {parts : List (List Ref × List Operation)}
    (builds : ∀ {part later}, part ∈ parts → later.Sound → m.arena.Extends later.arena →
      Builds (fold part.1) later (whole part.1))
    (joins : ∀ {lists folded later}, later.Sound →
      List.Forall₂ (fun list f => later.Describes f (whole list)) lists folded →
        Builds (fold folded) later (whole lists.flatten)) :
    Builds (foldParts fold parts) m (whole (parts.map Prod.fst).flatten) := by
  have folded : Ensures (parts.mapM (foldPart fold)) m fun diagrams later =>
      List.Forall₂ (fun part f => later.Describes f (whole part.1)) parts diagrams :=
    Ensures.mapM
      (fun inside soundLater grown => builds_foldPart (builds inside soundLater grown))
      (fun soundMiddle grown describes => describes.extend soundMiddle grown) sound
  refine folded.bind fun soundLater _ described => ?_
  exact joins soundLater (List.forall₂_map_left_iff.mpr described)

/-- A fold is determined by the members of the list if the sets that it builds are. -/
theorem folds_of_builds {fold : List Ref → ManagerM Ref} {diagrams : List Ref}
    (whole : List Ref → (Nat → Bool) → Prop)
    (builds : ∀ {list later}, (∀ f ∈ list, f ∈ diagrams) → later.Sound →
      m.arena.Extends later.arena → Builds (fold list) later (whole list))
    (joins : ∀ {lists folded later}, later.Sound →
      List.Forall₂ (fun list f => later.Describes f (whole list)) lists folded →
        Builds (fold folded) later (whole lists.flatten))
    (congr : ∀ {list}, (∀ f, f ∈ list ↔ f ∈ diagrams) → ∀ a, whole list a ↔ whole diagrams a) :
    Folds fold diagrams m (whole diagrams) where
  builds := builds (fun _ => id) sound (.refl _)
  members others same := coincide_of_builds sound (builds fun _ => id) fun soundLater grown =>
    (builds (fun f => (same f).mp) soundLater grown).congr (congr same)
  parts parts same := by
    refine coincide_of_builds sound (builds fun _ => id) fun soundLater grown => ?_
    refine (builds_foldParts soundLater ?_ joins).congr (congr same)
    intro part last inside soundLast after
    refine builds (fun f member => (same f).mp ?_) soundLast (grown.trans after)
    exact List.mem_flatten_of_mem (List.mem_map_of_mem inside) member

/-- The diagrams of a list describe their sets from now on. -/
theorem described {list : List Ref} (inside : ∀ f ∈ list, m.Resident f) {later : Manager}
    (grown : m.arena.Extends later.arena) :
    List.Forall₂ (fun g f => later.Describes f fun a => m.evaluate g a = .ok true) list list :=
  List.forall₂_same.mpr fun f member => (sound.describes (inside f member)).extend sound grown

theorem folds_conjAll {diagrams : List Ref} (inside : ∀ f ∈ diagrams, m.Resident f) :
    Folds conjAll diagrams m fun a => ∀ f ∈ diagrams, m.evaluate f a = .ok true := by
  refine folds_of_builds sound (fun list a => ∀ f ∈ list, m.evaluate f a = .ok true) ?_ ?_ ?_
  · intro list later among soundLater grown
    have residents : ∀ f ∈ list, m.Resident f := fun f member => inside f (among f member)
    exact builds_conjAll soundLater (described sound residents grown)
  · intro lists folded later soundLater sets
    exact (builds_conjAll soundLater sets).congr fun a => List.forall_mem_flatten.symm
  · intro list same a
    simp only [same]

theorem folds_disjAll {diagrams : List Ref} (inside : ∀ f ∈ diagrams, m.Resident f) :
    Folds disjAll diagrams m fun a => ∃ f ∈ diagrams, m.evaluate f a = .ok true := by
  refine folds_of_builds sound (fun list a => ∃ f ∈ list, m.evaluate f a = .ok true) ?_ ?_ ?_
  · intro list later among soundLater grown
    have residents : ∀ f ∈ list, m.Resident f := fun f member => inside f (among f member)
    exact builds_disjAll soundLater (described sound residents grown)
  · intro lists folded later soundLater sets
    refine (builds_disjAll soundLater sets).congr fun a => ?_
    constructor
    · rintro ⟨list, inLists, f, inList, holds⟩
      exact ⟨f, List.mem_flatten_of_mem inLists inList, holds⟩
    · rintro ⟨f, member, holds⟩
      obtain ⟨list, inLists, inList⟩ := List.mem_flatten.mp member
      exact ⟨list, inLists, f, inList, holds⟩
  · intro list same a
    simp only [same]

end Sound

/--
A conjunction is true where all members of the list are, and a disjunction where some member is.
Lists with the same members, in any order and with any repetitions, bring the same reference, also
when they are folded in parts, whatever is done in between.
-/
theorem Reached.folding {m : Manager} (reached : m.Reached) {diagrams : List Ref}
    (inside : ∀ f ∈ diagrams, m.Resident f) :
    Folds conjAll diagrams m (fun a => ∀ f ∈ diagrams, m.evaluate f a = .ok true) ∧
      Folds disjAll diagrams m (fun a => ∃ f ∈ diagrams, m.evaluate f a = .ok true) :=
  ⟨folds_conjAll reached.sound inside, folds_disjAll reached.sound inside⟩

def threeParts : List (List Ref × List Operation) :=
  [([⟨3⟩, ⟨2⟩], [.apply .xor ⟨2⟩ ⟨3⟩]), ([], [.clearComputed]), ([⟨3⟩], [.conjAll [⟨2⟩, ⟨9⟩]])]

theorem folding_threeParts :
    (∀ f ∈ [⟨2⟩, ⟨3⟩], twoLiterals.Resident f) ∧
      Builds (disjAll [⟨2⟩, ⟨3⟩]) twoLiterals
        (fun a => ∃ f ∈ [⟨2⟩, ⟨3⟩], twoLiterals.evaluate f a = .ok true) ∧
      Coincide (conjAll [⟨2⟩, ⟨3⟩]) (conjAll [⟨3⟩, ⟨2⟩, ⟨3⟩]) twoLiterals ∧
      Coincide (conjAll [⟨2⟩, ⟨3⟩]) (foldParts conjAll threeParts) twoLiterals := by
  have inside : ∀ f ∈ [⟨2⟩, ⟨3⟩], twoLiterals.Resident f := by decide
  obtain ⟨conj, disj⟩ := reached_twoLiterals.folding inside
  refine ⟨inside, disj.builds, conj.members _ fun f => ?_, conj.parts _ fun f => ?_⟩
  · grind
  · grind [threeParts]

end DecisionDiagram.Manager
