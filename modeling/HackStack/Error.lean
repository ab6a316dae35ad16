import HackStack.Command

set_option autoImplicit false

/-! # Errors

Why a unit does not compile: a line that is no command, a command for which there is no code, or
a failure of the source or the destination of a stream.
-/

namespace HackStack

/-- The kinds of input and output failures that are told apart. -/
inductive IoErrorKind
  | notFound
  | permissionDenied
  | isADirectory
  | notADirectory
  | invalidName
  | invalidData
  | unexpectedEof
  | writeZero
  | other
  deriving DecidableEq, Repr

structure IoError where
  kind : IoErrorKind
  message : String
  deriving DecidableEq, Repr

namespace IoError

/-- Bytes that are not text. -/
def notText : IoError := ⟨.invalidData, "stream did not contain valid UTF-8"⟩

/-- A destination that takes no more bytes. -/
def full : IoError := ⟨.writeZero, "failed to write whole buffer"⟩

def noSuchFile : IoError := ⟨.notFound, "No such file or directory (os error 2)"⟩

def notADirectory : IoError := ⟨.notADirectory, "Not a directory (os error 20)"⟩

def isADirectory : IoError := ⟨.isADirectory, "Is a directory (os error 21)"⟩

def nameTooLong : IoError := ⟨.invalidName, "File name too long (os error 36)"⟩

end IoError

inductive CompileError
  /-- the line is not a command; `text` is the whole line, trimmed -/
  | malformed (line : Nat) (text : String)
  /-- there is no code for the command -/
  | unsupported (line : Nat) (command : Command)
  | io (error : IoError)
  deriving DecidableEq, Repr

namespace CompileError

def message : CompileError → String
  | .malformed line text => "syntax error at line " ++ toString line ++ ": \"" ++ text ++ "\""
  | .unsupported line command =>
      "internal error at line " ++ toString line ++ ": no code generation rule for `"
        ++ command.text ++ "`"
  | .io error => "i/o error: " ++ error.message

/-- The source line that is at fault, if it is a line. -/
def line? : CompileError → Option Nat
  | .malformed line _ => some line
  | .unsupported line _ => some line
  | .io _ => none

end CompileError

end HackStack
