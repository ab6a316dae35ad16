import HackStack.Symbol
import HackStack.Segment

set_option autoImplicit false

/-! # Commands

The commands of the stack machine, one per source line, and their canonical source text.
-/

namespace HackStack

/-- What a push reads and a pop writes. -/
inductive Operand
  | cell (segment : Segment) (index : Word)
  | pointer (slot : PointerSlot)
  deriving DecidableEq, Repr

inductive Command
  | push (operand : Operand)
  | pop (operand : Operand)
  | arithmetic (operator : Operator)
  | label (name : String)
  | goto (name : String)
  | ifGoto (name : String)
  /-- a line without a command -/
  | comment
  deriving DecidableEq, Repr

namespace Operand

/-- The two words of the operand in a program. -/
def text : Operand → String
  | .cell segment index => segment.name ++ " " ++ toString index.toNat
  | .pointer slot => "pointer " ++ slot.digit

end Operand

namespace Command

/-- The command as a source line: its words, one space between them. -/
def text : Command → String
  | .push operand => "push " ++ operand.text
  | .pop operand => "pop " ++ operand.text
  | .arithmetic operator => operator.keyword
  | .label name => "label " ++ name
  | .goto name => "goto " ++ name
  | .ifGoto name => "if-goto " ++ name
  | .comment => "//"

end Command

end HackStack
