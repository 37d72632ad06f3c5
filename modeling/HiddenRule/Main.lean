import HiddenRule.CommandLine.Run

/-
  The program: runs its command line once, with entropy from the system.
-/

/-- The number that bytes write in base 256. -/
def HiddenRule.CommandLine.entropyOf (bytes : ByteArray) : Nat :=
  bytes.toList.foldl (fun n b => 256 * n + b.toNat) 0

/-- Runs the command line and prints what it says. -/
def main (arguments : List String) : IO UInt32 := do
  let entropy := HiddenRule.CommandLine.entropyOf (← IO.getRandomBytes 8)
  match HiddenRule.CommandLine.run entropy arguments with
  | none =>
    IO.eprintln "error: the random source gave no usable words"
    return 1
  | some output =>
    IO.print output.out
    IO.eprint output.err
    return UInt32.ofNat output.code
