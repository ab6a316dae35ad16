import HackStack.Compilation
import HackStack.Text.Control

set_option autoImplicit false

/-! # Log lines

What the command line program writes about its work, one line for each entry: level, origin,
message, and fields as `name=value`. How much is written depends on how verbose it is told to be.
A message may quote the input, so control characters in it are escaped; fields are written as they
are.
-/

namespace HackStack.CommandLine

inductive Level
  | warn
  | info
  | debug
  deriving DecidableEq, Repr

namespace Level

def text : Level → String
  | .warn => "WARN"
  | .info => "INFO"
  | .debug => "DEBUG"

/-- Whether entries of a level are written at a verbosity: warnings always, information from 1
on, the rest from 2 on. -/
def isWritten (verbosity : Nat) : Level → Bool
  | .warn => true
  | .info => decide (1 ≤ verbosity)
  | .debug => decide (2 ≤ verbosity)

end Level

structure LogEntry where
  level : Level
  origin : String
  message : String
  fields : List (String × String)
  deriving DecidableEq, Repr

namespace LogEntry

def text (entry : LogEntry) : String :=
  entry.level.text ++ " " ++ entry.origin ++ ": " ++ Text.escapeControls entry.message
    ++ String.join (entry.fields.map fun field => " " ++ field.1 ++ "=" ++ field.2)

/-- The entry for what a compilation reports. -/
def ofDiagnostic : Diagnostic → LogEntry
  | .compiled line command instructions =>
      ⟨.debug, "vm_translator::driver", "translated",
        [("line", toString line), ("command", command.text),
          ("instructions", toString instructions)]⟩
  | .aborted line error =>
      ⟨.warn, "vm_translator::driver", "translation aborted: " ++ error.message,
        [("line", toString line)]⟩

/-- The lines that are written at a verbosity. -/
def lines (verbosity : Nat) (entries : List LogEntry) : List String :=
  (entries.filter fun entry => entry.level.isWritten verbosity).map text

end LogEntry

end HackStack.CommandLine
