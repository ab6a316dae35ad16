import HackStack.Assembly.Instruction
import HackStack.Command
import HackStack.Text.Lines

set_option autoImplicit false

/-! # Fragments

A fragment is the code of one source line. Its text is one instruction per line and a blank line
at the end, so the texts of several fragments can be put one after the other.
-/

namespace HackStack

/-- The code of the command on one source line. -/
structure Fragment where
  line : Nat
  command : Command
  code : List Instruction
  deriving DecidableEq, Repr

namespace Fragment

def isEmpty (fragment : Fragment) : Bool := fragment.code.isEmpty

/-- The lines of the assembly text. `annotate` puts the command before its code, as a comment. A
fragment without code has no text. -/
def lines (annotate : Bool) (fragment : Fragment) : List String :=
  if fragment.isEmpty then []
  else
    (if annotate then ["// " ++ fragment.command.text] else [])
      ++ fragment.code.map Instruction.text ++ [""]

/-- The assembly text. -/
def text (annotate : Bool) (fragment : Fragment) : String :=
  Text.ofLines (fragment.lines annotate)

end Fragment

end HackStack
