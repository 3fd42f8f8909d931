/-!
# Arguments of the counter command

The number of bits, the limit and the initial size of the arena are given as
options with a value, each at most once. A long option is followed by its value
or joined to it by an equals sign; a short one may also be written without
anything between. A lone double hyphen ends the options, and then nothing may
follow. Values are decimal numbers, with an optional plus sign, that fit into a
word of the option's width. The number of bits is read as a signed number, which
adds no value but lets zero be written with a minus sign where the value is
joined to its option; a value that is a word of its own starts with no hyphen.

The switches `--verbose`, `--help` and `--version` are left out: the parser is for
options with a value and takes a switch for a malformed command line.
-/

namespace DecisionDiagram.Counter

structure Arguments where
  /-- The width of the counter. -/
  bits : Nat := 4
  /-- The value from which the counter goes back to zero; the largest one if absent. -/
  limit? : Option Nat := none
  /-- The initial size of the arena. -/
  storageBits : Nat := 16
  deriving Repr

namespace Arguments

inductive Key where
  | bits
  | limit
  | storageBits
  deriving DecidableEq, Repr

def Key.width : Key → Nat
  | bits => 32
  | limit => 64
  | storageBits => 64

def Key.signed : Key → Bool
  | bits => true
  | limit => false
  | storageBits => false

def longKey? : String → Option Key
  | "bits" => some .bits
  | "limit" => some .limit
  | "storage-bits" => some .storageBits
  | _ => none

def shortKey? : Char → Option Key
  | 'b' => some .bits
  | 'l' => some .limit
  | _ => none

def decimal? (digits : List Char) : Option Nat :=
  if digits ≠ [] ∧ digits.all Char.isDigit then
    some (digits.foldl (fun number digit => 10 * number + (digit.toNat - '0'.toNat)) 0)
  else none

/-- The value of an option; of the negative numbers only zero is one. -/
def Key.parse? (key : Key) (text : List Char) : Option Nat := do
  let number ←
    match text with
    | '+' :: digits => decimal? digits
    | '-' :: digits =>
        if key.signed then (decimal? digits).filter (· = 0) else none
    | digits => decimal? digits
  if number < 1 <<< key.width then some number else none

def set (args : Arguments) (key : Key) (number : Nat) : Arguments :=
  match key with
  | .bits => { args with bits := number }
  | .limit => { args with limit? := some number }
  | .storageBits => { args with storageBits := number }

/-- An option as written: its key, and its value if that is part of the same word. -/
def split? : List Char → Option (Key × Option (List Char))
  | '-' :: '-' :: rest => do
      let key ← longKey? (String.ofList (rest.takeWhile (· ≠ '=')))
      match rest.dropWhile (· ≠ '=') with
      | [] => some (key, none)
      | _ :: value => some (key, some value)
  | '-' :: letter :: rest => do
      let key ← shortKey? letter
      match rest with
      | [] => some (key, none)
      | '=' :: value => some (key, some value)
      | value => some (key, some value)
  | _ => none

def options? : List (List Char) → Option (List (Key × Nat))
  | [] => some []
  | [['-', '-']] => some []
  | word :: words =>
      match split? word, words with
      | none, _ => none
      | some (key, some text), words => do
          let number ← key.parse? text
          let rest ← options? words
          some ((key, number) :: rest)
      | some (_, none), [] => none
      | some (_, none), ('-' :: _) :: _ => none
      | some (key, none), text :: words => do
          let number ← key.parse? text
          let rest ← options? words
          some ((key, number) :: rest)

/-- The arguments of a command line, if it is well formed and gives no option twice. -/
def parse? (words : List String) : Option Arguments := do
  let options ← options? (words.map String.toList)
  if (options.map Prod.fst).Nodup then
    some (options.foldl (fun args option => args.set option.1 option.2) {})
  else none

end Arguments

end DecisionDiagram.Counter
