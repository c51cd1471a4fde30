import TensorTyping.Command.Run

/-!
# The program
-/

/-- Run the command, print what it has to say, and exit with its status. -/
def main (args : List String) : IO UInt32 := do
  let result := TensorTyping.Command.run args
  (← IO.getStdout).putStr result.out
  (← IO.getStderr).putStr result.err
  return (result.status.getD 0).toUInt32
