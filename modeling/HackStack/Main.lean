import HackStack.CommandLine.Run

set_option autoImplicit false

/-! # The executable

Runs the command line program on the files of the system: opens and writes them, prints the report,
and passes on its exit code. Failures of the system are turned into values, under the numbers and
in the words that the system has for them.
-/

namespace HackStack.CommandLine

/-- The failure of the system as a value. -/
def ioErrorOf (error : IO.Error) : IoError :=
  match error with
  | .noFileOrDirectory _ code details => ⟨.notFound, describe code details⟩
  | .permissionDenied _ code details => ⟨.permissionDenied, describe code details⟩
  | .inappropriateType _ code details =>
      ⟨if code = 21 then .isADirectory else .notADirectory, describe code details⟩
  | .invalidArgument _ code details =>
      ⟨if code = 36 then .invalidName else .other, describe code details⟩
  | .resourceExhausted _ code details => ⟨.other, describe code details⟩
  | other => ⟨.other, other.toString⟩
where
  describe (code : UInt32) (details : String) : String :=
    details ++ " (os error " ++ toString code ++ ")"

/-- Opens a file. What can be read before a failure counts. -/
def readFile (path : String) : IO (Except IoError ByteSource) := do
  match ← (IO.FS.Handle.mk path .read).toBaseIO with
  | .error error => return .error (ioErrorOf error)
  | .ok handle =>
      match ← handle.readBinToEnd.toBaseIO with
      | .error error => return .ok ⟨.empty, some (ioErrorOf error)⟩
      | .ok data => return .ok ⟨data, none⟩

/-- Writes a whole file. -/
def writeFile (path : String) (content : ByteArray) : IO (Except IoError Unit) := do
  match ← (IO.FS.writeBinFile path content).toBaseIO with
  | .error error => return .error (ioErrorOf error)
  | .ok () => return .ok ()

def systemAccess : FileAccess IO := ⟨readFile, writeFile⟩

end HackStack.CommandLine

def main (arguments : List String) : IO UInt32 := do
  let report ← HackStack.CommandLine.run HackStack.CommandLine.systemAccess arguments
  IO.print report.output
  for line in report.log do
    IO.eprintln line
  IO.eprint report.errors
  return report.code
