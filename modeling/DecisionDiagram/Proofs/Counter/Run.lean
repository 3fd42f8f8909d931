import DecisionDiagram.Counter.Run
import DecisionDiagram.Proofs.Counter.Reach
import DecisionDiagram.Proofs.Manager.Answers

/-!
# The counter command succeeds

For all widths, limits and initial sizes that are allowed, the loop ends after as many additions as
the limit says, with the diagram of the numbers up to the limit. The checks then ask about the first
numbers and get the answers they expect. The command runs the loop and the checks in turn, prints
what they come to, and ends with status zero.
-/

namespace DecisionDiagram.Counter

open Manager

/-! ## The parts of the command -/

theorem onManager_of_ok {α : Type} {act : ManagerM α} {m later : Manager} {a : α}
    (run : act m = .ok a later) (printed : String) :
    onManager act ⟨m, printed⟩ = .ok a ⟨later, printed⟩ := by
  rw [onManager, run]

theorem printLine_eq (line : String) (m : Manager) (printed : String) :
    printLine line ⟨m, printed⟩ = .ok () ⟨m, printed ++ line ++ "\n"⟩ := rfl

theorem printSummary_eq (m : Manager) (printed : String) :
    printSummary ⟨m, printed⟩ = .ok () ⟨m, printed ++ ("bdd = " ++ m.summary) ++ "\n"⟩ := rfl

theorem printSummary_first (m : Manager) :
    printSummary ⟨m, ""⟩ = .ok () ⟨m, "bdd = " ++ m.summary ++ "\n"⟩ := by
  rw [printSummary_eq, String.empty_append]

def Begins (opening text : String) : Prop :=
  ∃ rest, text = opening ++ rest

/-- The lines on the initial sizes, on the steps of the loop and on the numbers reached. -/
def report (m : Manager) (limit : Nat) : String :=
  "bdd = " ++ m.summary ++ "\n" ++ s!"fixpoint after {limit} steps" ++ "\n" ++
    s!"reachable = [0, {limit}]" ++ "\n"

/-- All lines: those, the diagram of the numbers if there are few bits, and how it ended. -/
def transcript (first last : Manager) (bits limit : Nat) (text : String) : String :=
  report first limit ++ (if bits ≤ shownBits then "reachable = " ++ text ++ "\n" else "") ++
    ("bdd = " ++ last.summary ++ "\n") ++
    (s!"cache: {last.computed.hits} hits, {last.computed.misses} misses" ++ "\n")

theorem begins_transcript (first last : Manager) (bits limit : Nat) (text : String) :
    Begins (report first limit) (transcript first last bits limit text) :=
  ⟨_, by rw [transcript, String.append_assoc, String.append_assoc]⟩

/-- The runs of the loop and of the checks, one after the other, and what they find. -/
structure Explored (m : Manager) (bits limit : Nat) (reached : Ref) (found last : Manager) :
    Prop where
  loop : reach bits limit m = .ok (reached, limit) found
  describes : found.Describes reached fun a => encoded bits a ≤ limit
  answers : (checkedValues bits limit).mapM (asked bits reached) found =
    .ok ((checkedValues bits limit).map (expected limit)) last
  checks : (checkedValues bits limit).forM (checkValue bits limit reached) found = .ok () last

theorem valueCount_eq (bits : Nat) : valueCount bits = 2 ^ bits :=
  Nat.one_shiftLeft bits

/-- The first values of the counter are checked, up to the first one past the limit. -/
theorem mem_checkedValues {bits limit number : Nat} :
    number ∈ checkedValues bits limit ↔
      number < 2 ^ bits ∧ number ≤ limit + 1 ∧ number < 4096 := by
  rw [checkedValues, List.mem_range, valueCount_eq]
  omega

section Programs

variable {m : Manager} (sound : m.Sound) {bits limit : Nat}
include sound

theorem ensures_reach (small : limit < 2 ^ bits) :
    Ensures (reach bits limit) m fun result later =>
      result.2 = limit ∧ later.Describes result.1 (AtMost bits limit) :=
  ensures_reachWithin sound small (Nat.lt_of_lt_of_eq small (valueCount_eq bits).symm)

theorem ensures_checks {reached : Ref} (describes : m.Describes reached (AtMost bits limit)) :
    Ensures ((checkedValues bits limit).forM (checkValue bits limit reached)) m fun _ later =>
      later.Describes reached (AtMost bits limit) := by
  have small (number : Nat) (tried : number ∈ checkedValues bits limit) : number < 2 ^ bits :=
    (mem_checkedValues.mp tried).1
  obtain ⟨answers, later, run, soundLater, grown, rfl⟩ := ensures_answers sound describes small
  exact ⟨(), later, checks_eq_ok_iff.mpr run, soundLater, grown, describes.extend sound grown⟩

/-- The diagram of the reached numbers can be written out. -/
theorem text_of_describes {f : Ref} {S : (Nat → Bool) → Prop} (describes : m.Describes f S) :
    ∃ text, ask (·.text f) m = .ok text m := by
  obtain ⟨tree, unfolds⟩ := sound.proper.exists_unfolds describes.resident
  obtain ⟨text, written⟩ := text_of_unfolds unfolds
  exact ⟨text, ask_eq_ok written⟩

theorem exists_explored (small : limit < 2 ^ bits) :
    ∃ reached found last text, Explored m bits limit reached found last ∧
      ask (·.text reached) last = .ok text last := by
  obtain ⟨⟨reached, _⟩, found, loop, soundFound, _, rfl, describes⟩ := ensures_reach sound small
  obtain ⟨_, last, checks, soundLast, _, still⟩ := ensures_checks soundFound describes
  obtain ⟨text, written⟩ := text_of_describes soundLast still
  exact ⟨reached, found, last, text,
    ⟨loop, describes, checks_eq_ok_iff.mp checks, checks⟩, written⟩

end Programs

/-- The command runs the loop, then the checks, and prints what they come to. -/
theorem explore_of_explored {m found last : Manager} {bits limit : Nat} {reached : Ref}
    {text : String} (explored : Explored m bits limit reached found last)
    (written : ask (·.text reached) last = .ok text last) :
    explore bits limit { manager := m } =
      .ok () ⟨last, transcript m last bits limit text⟩ := by
  rw [explore, bind_ok (printSummary_first m), bind_ok (onManager_of_ok explored.loop _)]
  dsimp only
  rw [bind_ok (printLine_eq _ _ _), bind_ok (onManager_of_ok explored.checks _),
    bind_ok (printLine_eq _ _ _), transcript]
  let ended (printed : String) : EStateM.Result Fault Console Unit := .ok () ⟨last, printed⟩
  by_cases shown : bits ≤ shownBits
  · rw [if_pos shown, if_pos shown, bind_ok (onManager_of_ok written _)]
    refine congrArg ended ?_
    simp only [report, String.append_assoc]
  · rw [if_neg shown, if_neg shown]
    refine congrArg ended ?_
    simp only [report, String.append_assoc, String.empty_append]

/-! ## The command -/

theorem checkedLimit_eq_ok {args : Arguments} {limit : Nat} (positive : 1 ≤ args.bits)
    (narrow : args.bits ≤ 32) (chosen : args.limit?.getD (2 ^ args.bits - 1) = limit)
    (small : limit < 2 ^ args.bits) : args.checkedLimit = .ok limit := by
  rw [Arguments.checkedLimit, if_neg (by omega)]
  cases given : args.limit? with
  | none =>
      rw [given] at chosen
      rw [← chosen, valueCount_eq]
      rfl
  | some number =>
      rw [given] at chosen
      cases chosen
      exact if_pos (Nat.lt_of_lt_of_eq small (valueCount_eq args.bits).symm)

/--
For all arguments that are allowed, the loop ends after as many additions as the limit says, even if
it were cut off later, and its result is the diagram of the numbers up to the limit. The checks of
the first numbers ask whether the diagram contains and meets each of them, and pass exactly if it
does so up to the limit; they do pass. The command ends with status zero, after it has printed what
the loop and the checks come to.
-/
theorem reachability {args : Arguments} {limit : Nat} (positive : 1 ≤ args.bits)
    (narrow : args.bits ≤ 32) (storage : args.storageBits ≤ 31)
    (chosen : args.limit?.getD (2 ^ args.bits - 1) = limit) (fits : limit ≤ 2 ^ args.bits - 1) :
    (∀ fuel, limit < fuel →
      Ensures (reachWithin fuel args.bits limit) (fresh args.storageBits) fun result later =>
        result.2 = limit ∧ later.Describes result.1 fun a => encoded args.bits a ≤ limit) ∧
      Ensures (reach args.bits limit) (fresh args.storageBits) (fun result later =>
        result.2 = limit ∧ (later.Describes result.1 fun a => encoded args.bits a ≤ limit) ∧
          Ensures ((checkedValues args.bits limit).forM (checkValue args.bits limit result.1)) later
            fun _ _ => True) ∧
      (∀ number, number ∈ checkedValues args.bits limit ↔
        number < 2 ^ args.bits ∧ number ≤ limit + 1 ∧ number < 4096) ∧
      (∀ (states : Ref) (m later : Manager),
        (checkedValues args.bits limit).forM (checkValue args.bits limit states) m = .ok () later ↔
          (checkedValues args.bits limit).mapM (asked args.bits states) m =
            .ok ((checkedValues args.bits limit).map (expected limit)) later) ∧
      (∃ reached found last text,
        Explored (fresh args.storageBits) args.bits limit reached found last ∧
          ask (·.text reached) last = .ok text last ∧
          runWith args =
            ⟨0, transcript (fresh args.storageBits) last args.bits limit text, none⟩) ∧
      (runWith args).status = 0 ∧ (runWith args).message? = none ∧
      Begins (report (fresh args.storageBits) limit) (runWith args).printed := by
  have small : limit < 2 ^ args.bits := by
    have nonempty := Nat.two_pow_pos args.bits
    omega
  have sound := sound_fresh args.storageBits
  obtain ⟨reached, found, last, text, explored, written⟩ := exists_explored sound small
  have ran : runWith args =
      ⟨0, transcript (fresh args.storageBits) last args.bits limit text, none⟩ := by
    rw [runWith, checkedLimit_eq_ok positive narrow chosen small]
    dsimp only
    rw [create_ofBits storage]
    dsimp only
    rw [explore_of_explored explored written]
  refine ⟨fun fuel enough => ensures_reachWithin sound small enough, ?_,
    fun number => mem_checkedValues, fun states m later => checks_eq_ok_iff,
    ⟨reached, found, last, text, explored, written, ran⟩, ?_⟩
  · refine (ensures_reach sound small).mono fun soundLater reached => ⟨reached.1, reached.2, ?_⟩
    exact (ensures_checks soundLater reached.2).mono fun _ _ => trivial
  · rw [ran]
    exact ⟨rfl, rfl, begins_transcript _ _ _ _ _⟩

def upToFive : Arguments where
  bits := 3
  limit? := some 5
  storageBits := 4

theorem reachability_upToFive :
    (1 ≤ upToFive.bits ∧ upToFive.bits ≤ 32 ∧ upToFive.storageBits ≤ 31) ∧
      (∃ reached found last text, Explored (fresh 4) 3 5 reached found last ∧
        runWith upToFive = ⟨0, transcript (fresh 4) last 3 5 text, none⟩) ∧
      (runWith upToFive).status = 0 ∧
      Begins ("bdd = " ++ (fresh 4).summary ++ "\nfixpoint after 5 steps\nreachable = [0, 5]\n")
        (runWith upToFive).printed := by
  have allowed : 1 ≤ upToFive.bits ∧ upToFive.bits ≤ 32 ∧ upToFive.storageBits ≤ 31 := by decide
  have chosen : upToFive.limit?.getD (2 ^ upToFive.bits - 1) = 5 := rfl
  obtain ⟨_, _, _, _, ⟨reached, found, last, text, explored, _, ran⟩, status, _, begins⟩ :=
    reachability allowed.1 allowed.2.1 allowed.2.2 chosen (by decide)
  exact ⟨allowed, ⟨reached, found, last, text, explored, ran⟩, status, begins⟩

end DecisionDiagram.Counter
