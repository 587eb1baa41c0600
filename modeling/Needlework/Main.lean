import Needlework.Bold

/-!
# The demonstration program

Prints what the bold markup grammar makes of a few texts.
-/

/-- Print the demonstration. -/
def main : IO UInt32 := do
  IO.print (Needlework.Bold.demonstration.toString)
  return 0
