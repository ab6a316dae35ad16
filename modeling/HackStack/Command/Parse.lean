import HackStack.Error
import HackStack.Text.Blank
import HackStack.Text.Comment
import HackStack.Text.Words

set_option autoImplicit false

/-! # Reading a command from a line

A line is cut at the first `//`, trimmed, and split into words; the words must be one of

    operator
    push operand        pop operand        (no pop to `constant`)
    label symbol        goto symbol        if-goto symbol

where an operand is a segment and a decimal index, or `pointer` and `0` or `1`. An index must
leave the cell within reach of generated code, and a symbol must not be a reserved label.
A line without words is a comment.
-/

namespace HackStack

namespace Operand

/-- Whether generated code can load every number that it needs to reach the cell. -/
def isReachable (segment : Segment) (index : Word) : Bool :=
  match segment.base with
  | .direct base => (directAddress base index).isSome
  | .indirect _ => decide (index.toNat ≤ Word.maxLoadable)
  | .absent => decide (index.toNat ≤ Word.maxLoadable)

/-- The index that a numeral names. -/
def index? (word : String) : Option Word :=
  (Text.decimal? word.toList).bind Word.ofNat?

/-- The operand that two words name. -/
def ofWords? (place index : String) : Option Operand :=
  if place = "pointer" then
    (PointerSlot.ofDigit? index).map .pointer
  else
    match Segment.ofName? place, index? index with
    | some segment, some i => if isReachable segment i then some (.cell segment i) else none
    | _, _ => none

/-- Whether a pop can write to the operand. -/
def isWritable : Operand → Bool
  | .cell .constant _ => false
  | _ => true

end Operand

namespace Command

/-- The command that jumps to or declares a label, by its first word. -/
def ofLabelWord? (word name : String) : Option Command :=
  if word = "label" then some (.label name)
  else if word = "goto" then some (.goto name)
  else if word = "if-goto" then some (.ifGoto name)
  else none

/-- The command that moves a word to or from the stack, by its first word. -/
def ofMoveWord? (word : String) (operand : Operand) : Option Command :=
  if word = "push" then some (.push operand)
  else if word = "pop" ∧ operand.isWritable then some (.pop operand)
  else none

/-- Whether a program may use a name as a label. -/
def isLabelName (name : String) : Bool := Symbol.isSymbol name && !Symbol.isReserved name

/-- The command that the words of a line name. -/
def ofWords? : List String → Option Command
  | [word] => (Operator.ofKeyword? word).map .arithmetic
  | [word, name] => if isLabelName name then ofLabelWord? word name else none
  | [word, place, index] => (Operand.ofWords? place index).bind (ofMoveWord? word)
  | _ => none

/-- The words of a line, without its comment. -/
def wordsOf (text : String) : List String :=
  (Text.words (Text.trim (Text.beforeComment text.toList))).map String.ofList

/-- Reads the command on a line; `line` is the number that an error reports. -/
def parse (line : Nat) (text : String) : Except CompileError Command :=
  if (Text.trim (Text.beforeComment text.toList)).isEmpty then
    .ok .comment
  else
    match ofWords? (wordsOf text) with
    | some command => .ok command
    | none => .error (.malformed line (String.ofList (Text.trim text.toList)))

example : parse 1 "\u00a0 push local \t 032 // x" = .ok (.push (.cell .locals 32)) := rfl

example : parse 7 " label EQ_3 // x " = .error (.malformed 7 "label EQ_3 // x") := rfl

end Command

end HackStack
