import MeteredTree.CommandLine

/-! The entry point of the command line program. -/

def main (args : List String) : IO UInt32 := do
  let output := MeteredTree.CommandLine.execute args
  (← IO.getStderr).putStr output.stderr
  (← IO.getStdout).putStr output.stdout
  return output.code
