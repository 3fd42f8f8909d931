import Mathlib.Data.List.Forall2
import DecisionDiagram.Proofs.Reached.Renaming

/-!
# Programs on sound managers

A program ensures a condition if it succeeds, keeps the manager sound and all of its nodes, and
meets the condition in the end. A diagram describes a set of assignments if it is true on those of
the set and false on all others. Operations build diagrams of sets from diagrams of sets, and a
program made of operations is followed step by step: what was described before a step still is
after it. Programs that build a diagram of one set bring one reference.
-/

namespace DecisionDiagram.Manager

/-- The program succeeds, keeps the manager sound with all its nodes, and meets the condition. -/
def Ensures {α : Type} (x : ManagerM α) (m : Manager) (post : α → Manager → Prop) : Prop :=
  ∃ a later, x m = .ok a later ∧ later.Sound ∧ m.arena.Extends later.arena ∧ post a later

/-- The diagram is true exactly on the assignments of the set. -/
def Describes (m : Manager) (f : Ref) (S : (Nat → Bool) → Prop) : Prop :=
  ∃ φ, m.Represents f φ ∧ ∀ a, φ a = true ↔ S a

def Builds (x : ManagerM Ref) (m : Manager) (S : (Nat → Bool) → Prop) : Prop :=
  Ensures x m fun f later => later.Describes f S

/-! ## Sequences -/

namespace Ensures

variable {α β : Type} {m : Manager}

theorem pure (sound : m.Sound) {a : α} {post : α → Manager → Prop} (met : post a m) :
    Ensures (Pure.pure a) m post :=
  ⟨a, m, rfl, sound, .refl _, met⟩

theorem bind {x : ManagerM α} {next : α → ManagerM β} {post : α → Manager → Prop}
    {goal : β → Manager → Prop} (first : Ensures x m post)
    (rest : ∀ {a later}, later.Sound → m.arena.Extends later.arena → post a later →
      Ensures (next a) later goal) : Ensures (x >>= next) m goal := by
  obtain ⟨a, middle, run, sound, grown, met⟩ := first
  obtain ⟨b, later, runRest, soundLater, grownLater, reached⟩ := rest sound grown met
  exact ⟨b, later, (bind_ok run).trans runRest, soundLater, grown.trans grownLater, reached⟩

theorem mono {x : ManagerM α} {post goal : α → Manager → Prop} (ensures : Ensures x m post)
    (implies : ∀ {a later}, later.Sound → post a later → goal a later) : Ensures x m goal := by
  obtain ⟨a, later, run, sound, grown, met⟩ := ensures
  exact ⟨a, later, run, sound, grown, implies sound met⟩

theorem foldlM_append {f : β → α → ManagerM β} {inv : List α → β → Manager → Prop} {list : List α}
    (step : ∀ {done b a later}, a ∈ list → later.Sound → inv done b later →
      Ensures (f b a) later (inv (done ++ [a])))
    {done : List α} {b : β} (sound : m.Sound) (start : inv done b m) :
    Ensures (list.foldlM f b) m (inv (done ++ list)) := by
  induction list generalizing m done b with
  | nil => exact .pure sound (by rwa [List.append_nil])
  | cons a rest ih =>
      rw [List.foldlM_cons, List.append_cons]
      refine (step List.mem_cons_self sound start).bind fun soundLater _ kept => ?_
      exact ih (fun inside => step (List.mem_cons_of_mem a inside)) soundLater kept

/-- A fold keeps an invariant of the members taken so far. -/
theorem foldlM {f : β → α → ManagerM β} (inv : List α → β → Manager → Prop) {list : List α}
    (step : ∀ {done b a later}, a ∈ list → later.Sound → inv done b later →
      Ensures (f b a) later (inv (done ++ [a])))
    {b : β} (sound : m.Sound) (start : inv [] b m) : Ensures (list.foldlM f b) m (inv list) :=
  foldlM_append step sound start

/-- What is ensured for each member of a list, and lasts, holds of all members in the end. -/
theorem mapM {f : α → ManagerM β} {post : α → β → Manager → Prop} {list : List α}
    (step : ∀ {a later}, a ∈ list → later.Sound → m.arena.Extends later.arena →
      Ensures (f a) later (post a))
    (lasts : ∀ {a b middle later}, middle.Sound → middle.arena.Extends later.arena →
      post a b middle → post a b later)
    (sound : m.Sound) :
    Ensures (list.mapM f) m fun bs later => List.Forall₂ (fun a b => post a b later) list bs := by
  induction list generalizing m with
  | nil => exact .pure sound .nil
  | cons a rest ih =>
      rw [List.mapM_cons]
      refine (step List.mem_cons_self sound (.refl _)).bind fun soundFirst grown first => ?_
      refine (ih (fun inside soundLater after =>
        step (List.mem_cons_of_mem a inside) soundLater (grown.trans after)) soundFirst).bind
        fun soundRest after others => ?_
      exact .pure soundRest (.cons (lasts soundFirst after first) others)

end Ensures

/-! ## Described sets -/

namespace Describes

variable {m : Manager} {f : Ref} {S T : (Nat → Bool) → Prop}

theorem congr (describes : m.Describes f S) (same : ∀ a, S a ↔ T a) : m.Describes f T := by
  obtain ⟨φ, represents, value⟩ := describes
  exact ⟨φ, represents, fun a => (value a).trans (same a)⟩

theorem extend {later : Manager} (describes : m.Describes f S) (sound : m.Sound)
    (grown : m.arena.Extends later.arena) : later.Describes f S := by
  obtain ⟨φ, represents, value⟩ := describes
  exact ⟨φ, represents.extend sound grown, value⟩

theorem resident (describes : m.Describes f S) : m.Resident f := by
  obtain ⟨_, represents, _⟩ := describes
  exact represents.1

/-- Canonicity: a set has one diagram. -/
theorem ref_eq_iff (sound : m.Sound) {g : Ref} (first : m.Describes f S)
    (second : m.Describes g T) : f = g ↔ ∀ a, S a ↔ T a := by
  obtain ⟨φ, representsF, valueF⟩ := first
  obtain ⟨ψ, representsG, valueG⟩ := second
  constructor
  · rintro rfl a
    have same : φ a = ψ a := Except.ok.inj ((representsF.2 a).symm.trans (representsG.2 a))
    rw [← valueF, ← valueG, same]
  · intro same
    refine sound.ref_eq representsF representsG fun a => ?_
    exact Bool.eq_iff_iff.mpr ((valueF a).trans ((same a).trans (valueG a).symm))

end Describes

theorem Represents.describes {m : Manager} {f : Ref} {φ : (Nat → Bool) → Bool}
    (represents : m.Represents f φ) : m.Describes f fun a => φ a = true :=
  ⟨φ, represents, fun _ => .rfl⟩

/-- A reference with a node describes the assignments under which it is found to be true. -/
theorem Sound.describes {m : Manager} (sound : m.Sound) {f : Ref} (inside : m.Resident f) :
    m.Describes f fun a => m.evaluate f a = .ok true := by
  obtain ⟨φ, represents⟩ := sound.exists_represents inside
  refine ⟨φ, represents, fun a => ?_⟩
  simp only [represents.2 a, Except.ok.injEq]

theorem describes_leaf {m : Manager} (sound : m.Sound) (value : Bool) :
    m.Describes (Ref.ofBool value) fun _ => value = true :=
  (represents_leaf sound value).describes

/-- A tautology is the true leaf. -/
theorem Describes.eq_trueLeaf_iff {m : Manager} {f : Ref} {S : (Nat → Bool) → Prop}
    (describes : m.Describes f S) (sound : m.Sound) : f = Ref.trueLeaf ↔ ∀ a, S a := by
  have always : m.Describes Ref.trueLeaf fun _ => true = true := describes_leaf sound true
  simp [describes.ref_eq_iff sound always]

/-- A contradiction is the false leaf. -/
theorem Describes.eq_falseLeaf_iff {m : Manager} {f : Ref} {S : (Nat → Bool) → Prop}
    (describes : m.Describes f S) (sound : m.Sound) : f = Ref.falseLeaf ↔ ∀ a, ¬ S a := by
  have never : m.Describes Ref.falseLeaf fun _ => false = true := describes_leaf sound false
  simp [describes.ref_eq_iff sound never]

theorem Builds.congr {x : ManagerM Ref} {m : Manager} {S T : (Nat → Bool) → Prop}
    (builds : Builds x m S) (same : ∀ a, S a ↔ T a) : Builds x m T :=
  builds.mono fun _ describes => describes.congr same

/-- What computes a function builds the diagram of the assignments on which it is true. -/
theorem Computes.builds {x : ManagerM Ref} {m : Manager} {φ : (Nat → Bool) → Bool}
    {S : (Nat → Bool) → Prop} (computes : Computes x m φ) (sound : m.Sound) (steady : Steady x)
    (same : ∀ a, φ a = true ↔ S a) : Builds x m S := by
  obtain ⟨ref, later, run, represents, _⟩ := computes
  obtain ⟨soundLater, grown⟩ := steady.kept sound run
  exact ⟨ref, later, run, soundLater, grown, φ, represents, same⟩

/-- What builds a diagram of the assignments on which a function is true computes the function. -/
theorem Builds.computes {x : ManagerM Ref} {m : Manager} {φ : (Nat → Bool) → Bool}
    (builds : Builds x m fun a => φ a = true) (sound : m.Sound) : Computes x m φ := by
  obtain ⟨ref, later, run, _, grown, ψ, represents, same⟩ := builds
  obtain rfl : ψ = φ := funext fun a => Bool.eq_iff_iff.mpr (same a)
  exact ⟨ref, later, run, represents, fun other χ before => before.extend sound grown⟩

/-! ## Lists of sets -/

section Lists

variable {ι : Type} {family : ι → (Nat → Bool) → Prop} {S : (Nat → Bool) → Prop} {a : Nat → Bool}

theorem foldl_and_iff {indices : List ι} :
    indices.foldl (fun T i a => T a ∧ family i a) S a ↔ S a ∧ ∀ i ∈ indices, family i a := by
  induction indices generalizing S with
  | nil => simp
  | cons i rest ih => rw [List.foldl_cons, ih, List.forall_mem_cons, and_assoc]

theorem foldl_or_iff {indices : List ι} :
    indices.foldl (fun T i a => T a ∨ family i a) S a ↔ S a ∨ ∃ i ∈ indices, family i a := by
  induction indices generalizing S with
  | nil => simp
  | cons i rest ih => rw [List.foldl_cons, ih, List.exists_mem_cons_iff, or_assoc]

end Lists

/-! ## Operations -/

section Operations

variable {m : Manager} (sound : m.Sound) {p q f : Ref} {S T : (Nat → Bool) → Prop}
include sound

theorem builds_literal {var : Nat} (ne : var ≠ 0) (positive : Bool) :
    Builds (literal var positive) m fun a => a var = positive := by
  have orders := sound.proper.orders_leaves ne positive !positive
  have computes :
      Computes (literal var positive) m fun a => if a var then positive else !positive := by
    refine (sound.literal ne positive).computes sound ?_ ?_
    · intro ref later made
      exact (Arena.decided sound.proper orders made).grown
    · intro ref later made
      exact (Arena.decided sound.proper orders made).denotes (.leaf (sound.proper.leaf positive))
        (.leaf (sound.proper.leaf !positive))
  refine computes.builds sound (.literal var positive) fun a => ?_
  cases positive <;> simp

theorem builds_apply (op : Connective) {φ ψ : (Nat → Bool) → Bool}
    (first : m.Represents p φ) (second : m.Represents q ψ)
    {U : (Nat → Bool) → Prop} (same : ∀ a, op.eval (φ a) (ψ a) = true ↔ U a) :
    Builds (apply op p q) m U :=
  (computes_apply sound op first second).builds sound (.apply op p q) same

theorem builds_conj (first : m.Describes p S) (second : m.Describes q T) :
    Builds (conj p q) m fun a => S a ∧ T a := by
  obtain ⟨φ, representsP, valueP⟩ := first
  obtain ⟨ψ, representsQ, valueQ⟩ := second
  refine builds_apply sound .and representsP representsQ fun a => ?_
  rw [Connective.eval_and, Bool.and_eq_true, valueP, valueQ]

theorem builds_disj (first : m.Describes p S) (second : m.Describes q T) :
    Builds (disj p q) m fun a => S a ∨ T a := by
  obtain ⟨φ, representsP, valueP⟩ := first
  obtain ⟨ψ, representsQ, valueQ⟩ := second
  refine builds_apply sound .or representsP representsQ fun a => ?_
  rw [Connective.eval_or, Bool.or_eq_true, valueP, valueQ]

theorem builds_imply (first : m.Describes p S) (second : m.Describes q T) :
    Builds (imply p q) m fun a => S a → T a := by
  obtain ⟨φ, representsP, valueP⟩ := first
  obtain ⟨ψ, representsQ, valueQ⟩ := second
  refine builds_apply sound .imply representsP representsQ fun a => ?_
  rw [Connective.eval_imply, ← valueP, ← valueQ]
  cases φ a <;> simp

theorem builds_eq (first : m.Describes p S) (second : m.Describes q T) :
    Builds (apply .eq p q) m fun a => S a ↔ T a := by
  obtain ⟨φ, representsP, valueP⟩ := first
  obtain ⟨ψ, representsQ, valueQ⟩ := second
  refine builds_apply sound .eq representsP representsQ fun a => ?_
  rw [Connective.eval_eq, beq_iff_eq, Bool.eq_iff_iff, valueP, valueQ]

theorem builds_xor (first : m.Describes p S) (second : m.Describes q T) :
    Builds (apply .xor p q) m fun a => ¬ (S a ↔ T a) := by
  obtain ⟨φ, representsP, valueP⟩ := first
  obtain ⟨ψ, representsQ, valueQ⟩ := second
  refine builds_apply sound .xor representsP representsQ fun a => ?_
  rw [Connective.eval_xor, ← valueP, ← valueQ, ← Bool.eq_iff_iff, bne_iff_ne]

theorem builds_neg (describes : m.Describes f S) : Builds (neg f) m fun a => ¬ S a :=
  (builds_imply sound describes (describes_leaf sound false)).congr fun a => by simp

theorem computes_restrict {φ : (Nat → Bool) → Bool} (represents : m.Represents f φ) {var : Nat}
    (ne : var ≠ 0) (value : Bool) :
    Computes (restrict f var value) m fun a => φ (Function.update a var value) := by
  obtain ⟨node, holds⟩ := resident_iff.mp represents.1
  refine (sound.restrict holds ne value).computes sound ?_ ?_
  · intro ref later restricts
    exact (restricts.yields sound.proper).grown
  · intro ref later restricts
    exact restricts.denotes sound.proper (sound.denotes_of_represents represents)

theorem builds_restrict (describes : m.Describes f S) {var : Nat} (ne : var ≠ 0) (value : Bool) :
    Builds (restrict f var value) m fun a => S (Function.update a var value) := by
  obtain ⟨φ, represents, same⟩ := describes
  exact (computes_restrict sound represents ne value).builds sound (.restrict f var value)
    fun a => same _

theorem builds_existsVar (describes : m.Describes f S) {var : Nat} (ne : var ≠ 0) :
    Builds (existsVar f var) m fun a => ∃ value, S (Function.update a var value) := by
  refine (builds_restrict sound describes ne true).bind fun soundTrue grown onTrue => ?_
  refine (builds_restrict soundTrue (describes.extend sound grown) ne false).bind
    fun soundFalse later onFalse => ?_
  refine (builds_disj soundFalse (onTrue.extend soundTrue later) onFalse).congr fun a => ?_
  rw [Bool.exists_bool, or_comm]

theorem builds_forallVar (describes : m.Describes f S) {var : Nat} (ne : var ≠ 0) :
    Builds (forallVar f var) m fun a => ∀ value, S (Function.update a var value) := by
  refine (builds_restrict sound describes ne true).bind fun soundTrue grown onTrue => ?_
  refine (builds_restrict soundTrue (describes.extend sound grown) ne false).bind
    fun soundFalse later onFalse => ?_
  refine (builds_conj soundFalse (onTrue.extend soundTrue later) onFalse).congr fun a => ?_
  rw [Bool.forall_bool, and_comm]

/-- Quantifying a list of variables frees all of them at once. -/
theorem builds_existsVars (describes : m.Describes f S) {vars : List Nat}
    (nonzero : ∀ var ∈ vars, var ≠ 0) :
    Builds (existsVars f vars) m fun a => ∃ b, (∀ var, var ∉ vars → b var = a var) ∧ S b := by
  let inv (done : List Nat) (g : Ref) (later : Manager) : Prop :=
    later.Describes g fun a => ∃ b, (∀ var, var ∉ done → b var = a var) ∧ S b
  refine Ensures.foldlM inv ?_ sound ?_
  · intro done g var later inside soundLater describesG
    refine (builds_existsVar soundLater describesG (nonzero var inside)).congr fun a => ?_
    constructor
    · rintro ⟨value, b, agree, holds⟩
      refine ⟨b, fun other outside => ?_, holds⟩
      rw [List.mem_append, not_or, List.mem_singleton] at outside
      rw [agree other outside.1, Function.update_of_ne outside.2]
    · rintro ⟨b, agree, holds⟩
      refine ⟨b var, b, fun other outside => ?_, holds⟩
      by_cases same : other = var
      · rw [same, Function.update_self]
      · rw [Function.update_of_ne same]
        exact agree other (by simp [outside, same])
  · refine describes.congr fun a => ?_
    constructor
    · exact fun holds => ⟨a, fun _ _ => rfl, holds⟩
    · rintro ⟨b, agree, holds⟩
      rwa [← funext fun var => agree var List.not_mem_nil]

/-- A fold joins the sets of a list of diagrams, one after another, to the set it starts with. -/
theorem builds_foldlM {ι : Type} {add : Ref → Ref → ManagerM Ref}
    {join : ((Nat → Bool) → Prop) → ((Nat → Bool) → Prop) → (Nat → Bool) → Prop}
    (adds : ∀ {later : Manager}, later.Sound → ∀ {p q : Ref} {S T : (Nat → Bool) → Prop},
      later.Describes p S → later.Describes q T → Builds (add p q) later (join S T))
    {family : ι → (Nat → Bool) → Prop} {indices : List ι} {diagrams : List Ref}
    (members : List.Forall₂ (fun i f => m.Describes f (family i)) indices diagrams)
    (start : m.Describes p S) :
    Builds (diagrams.foldlM add p) m (indices.foldl (fun T i => join T (family i)) S) := by
  induction indices generalizing m p S diagrams with
  | nil =>
      cases members
      exact .pure sound start
  | cons i rest ih =>
      cases members with
      | cons first members =>
          rw [List.foldlM_cons]
          refine (adds sound start first).bind fun soundLater grown joined => ?_
          exact ih soundLater (members.imp fun _ _ describes => describes.extend sound grown) joined

/-- The conjunction of a list of diagrams describes the intersection of their sets. -/
theorem builds_conjAll {ι : Type} {family : ι → (Nat → Bool) → Prop} {indices : List ι}
    {diagrams : List Ref}
    (members : List.Forall₂ (fun i f => m.Describes f (family i)) indices diagrams) :
    Builds (conjAll diagrams) m fun a => ∀ i ∈ indices, family i a := by
  refine (builds_foldlM sound builds_conj members (describes_leaf sound true)).congr fun a => ?_
  rw [foldl_and_iff]
  simp

/-- The disjunction of a list of diagrams describes the union of their sets. -/
theorem builds_disjAll {ι : Type} {family : ι → (Nat → Bool) → Prop} {indices : List ι}
    {diagrams : List Ref}
    (members : List.Forall₂ (fun i f => m.Describes f (family i)) indices diagrams) :
    Builds (disjAll diagrams) m fun a => ∃ i ∈ indices, family i a := by
  refine (builds_foldlM sound builds_disj members (describes_leaf sound false)).congr fun a => ?_
  rw [foldl_or_iff]
  simp

theorem builds_rename (describes : m.Describes f S) (copy : StateCopy) :
    Builds (rename copy f) m fun a => S fun var => a (copy.rename var) := by
  obtain ⟨φ, represents, same⟩ := describes
  exact (computes_rename sound copy represents).builds sound (.rename copy f) fun a => same _

/-! ## Decisions about sets -/

theorem ensures_contains (first : m.Describes p S) (second : m.Describes q T) :
    Ensures (contains p q) m fun answer _ => answer = true ↔ ∀ a, T a → S a := by
  refine (builds_imply sound second first).bind fun soundLater _ implication => ?_
  refine .pure soundLater ?_
  rw [decide_eq_true_iff, implication.eq_trueLeaf_iff soundLater]

theorem ensures_intersects (first : m.Describes p S) (second : m.Describes q T) :
    Ensures (intersects p q) m fun answer _ => answer = true ↔ ∃ a, S a ∧ T a := by
  refine (builds_conj sound second first).bind fun soundLater _ common => ?_
  refine .pure soundLater ?_
  rw [decide_eq_true_iff, ne_eq, common.eq_falseLeaf_iff soundLater]
  simp [and_comm]

/-! ## References -/

omit sound in
theorem repeats_of_builds {x y : ManagerM Ref} (buildsX : Builds x m S)
    (buildsY : ∀ {later}, later.Sound → m.arena.Extends later.arena → Builds y later S) :
    Repeats x y m := by
  intro history
  obtain ⟨ref, middle, run, soundMiddle, grown, describes⟩ := buildsX
  obtain ⟨soundNext, grownNext⟩ := Operation.run_kept soundMiddle history
  obtain ⟨other, later, runOther, soundLater, grownLater, describesOther⟩ :=
    buildsY soundNext (grown.trans grownNext)
  have still := describes.extend soundMiddle (grownNext.trans grownLater)
  obtain rfl : ref = other := (still.ref_eq_iff soundLater describesOther).mpr fun _ => .rfl
  exact ⟨ref, middle, later, run, runOther⟩

/-- Programs coincide that build the diagram of one set from now on. -/
theorem coincide_of_builds {x y : ManagerM Ref}
    (buildsX : ∀ {later}, later.Sound → m.arena.Extends later.arena → Builds x later S)
    (buildsY : ∀ {later}, later.Sound → m.arena.Extends later.arena → Builds y later S) :
    Coincide x y m :=
  ⟨repeats_of_builds (buildsX sound (.refl _)) buildsY,
    repeats_of_builds (buildsY sound (.refl _)) buildsX⟩

end Operations

end DecisionDiagram.Manager
