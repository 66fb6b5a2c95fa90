import Mila.CommandLine

/-! # The program

Runs the command line on the files of the system.
-/

namespace Mila

/-- The cause of a failed file operation. -/
def FileError.ofIOError : IO.Error → FileError
  | .noFileOrDirectory _ code details => system details code.toNat
  | .permissionDenied _ code details => system details code.toNat
  | .inappropriateType _ code details => system details code.toNat
  | .alreadyExists _ code details => system details code.toNat
  | .invalidArgument _ code details => system details code.toNat
  | .resourceExhausted _ code details => system details code.toNat
  | .noSuchThing _ code details => system details code.toNat
  | .otherError code details => system details code.toNat
  | e => other e.toString

/-- The system as a host. -/
def systemHost : Host IO where
  readStdin := do
    try return textOfBytes (← (← IO.getStdin).readBinToEnd)
    catch e => return .error (.ofIOError e)
  readFile path := do
    try return textOfBytes (← (← IO.FS.Handle.mk path .read).readBinToEnd)
    catch e => return .error (.ofIOError e)
  writeFile path text := do
    try
      IO.FS.writeFile path text
      return .ok ()
    catch e => return .error (.ofIOError e)

end Mila

def main (arguments : List String) : IO UInt32 := do
  let report ← Mila.command Mila.systemHost arguments
  IO.print report.stdout
  IO.eprint report.stderr
  return report.exitCode
