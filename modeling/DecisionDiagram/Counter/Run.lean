import DecisionDiagram.Counter.Arguments
import DecisionDiagram.Counter.Model
import DecisionDiagram.Manager.Query

/-!
# The counter command

The command computes the states that a wrapping counter reaches, checks them
against the limit, and reports how it went. Its outcome is a value: the exit
status, the lines printed, and a message if the command failed.
-/

namespace DecisionDiagram.Counter

structure Outcome where
  /-- Zero for success; otherwise the cause is a refusal, a malformed command line or a fault. -/
  status : Nat
  /-- All that was printed. -/
  printed : String
  /-- Why the command failed, if it did. -/
  message? : Option String
  deriving Repr

def refusedStatus : Nat := 1

def malformedStatus : Nat := 2

def faultStatus : Nat := 101

inductive Refusal where
  /-- The counter has at least one and at most 32 bits. -/
  | bits (given : Nat)
  /-- The limit is a value of the counter. -/
  | limit (given width : Nat)
  deriving DecidableEq, Repr

def Refusal.message : Refusal → String
  | bits given => s!"--bits must be in 1..=32, got {given}"
  | limit given width => s!"--limit {given} does not fit into {width} bits"

/-- The limit asked for, or the largest value of the counter. -/
def Arguments.checkedLimit (args : Arguments) : Except Refusal Nat :=
  if args.bits = 0 ∨ 32 < args.bits then .error (.bits args.bits)
  else
    match args.limit? with
    | none => .ok (valueCount args.bits - 1)
    | some limit =>
        if limit < valueCount args.bits then .ok limit else .error (.limit limit args.bits)

/-! ## The command on a manager -/

structure Console where
  manager : Manager
  printed : String := ""

abbrev ConsoleM := EStateM Fault Console

def onManager {α : Type} (act : ManagerM α) : ConsoleM α := fun ⟨manager, printed⟩ =>
  match act manager with
  | .ok result manager => .ok result ⟨manager, printed⟩
  | .error fault manager => .error fault ⟨manager, printed⟩

def printLine (line : String) : ConsoleM Unit := fun console =>
  .ok () { console with printed := console.printed ++ line ++ "\n" }

def printSummary : ConsoleM Unit := do
  let console ← get
  printLine ("bdd = " ++ console.manager.summary)

def shownBits : Nat := 3

def explore (bits limit : Nat) : ConsoleM Unit := do
  printSummary
  let ⟨reached, steps⟩ ← onManager (reach bits limit)
  printLine s!"fixpoint after {steps} steps"
  onManager ((checkedValues bits limit).forM (checkValue bits limit reached))
  printLine s!"reachable = [0, {limit}]"
  if bits ≤ shownBits then
    let text ← onManager (Manager.ask (·.text reached))
    printLine ("reachable = " ++ text)
  printSummary
  let computed := (← get).manager.computed
  printLine s!"cache: {computed.hits} hits, {computed.misses} misses"

/-! ## The whole command -/

def runWith (args : Arguments) : Outcome :=
  match args.checkedLimit with
  | .error refusal => ⟨refusedStatus, "", some refusal.message⟩
  | .ok limit =>
      match Manager.create (Config.ofBits args.storageBits) with
      | .error fault => ⟨faultStatus, "", some fault.message⟩
      | .ok manager =>
          match explore args.bits limit { manager } with
          | .ok () console => ⟨0, console.printed, none⟩
          | .error fault console => ⟨faultStatus, console.printed, some fault.message⟩

def usage : String :=
  "usage: counter [--bits BITS] [--limit LIMIT] [--storage-bits STORAGE_BITS]"

def run (words : List String) : Outcome :=
  match Arguments.parse? words with
  | none => ⟨malformedStatus, "", some usage⟩
  | some args => runWith args

end DecisionDiagram.Counter
