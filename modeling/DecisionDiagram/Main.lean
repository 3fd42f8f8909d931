import DecisionDiagram.Counter.Run

/-!
# The counter as a program

The program prints what the counter command prints, reports its message on the
error stream and ends with its status.
-/

def main (words : List String) : IO UInt32 := do
  let outcome := DecisionDiagram.Counter.run words
  IO.print outcome.printed
  if let some message := outcome.message? then
    IO.eprintln message
  return outcome.status.toUInt32
