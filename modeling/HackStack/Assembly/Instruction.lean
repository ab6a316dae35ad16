import HackStack.Word

set_option autoImplicit false

/-! # Instructions

The instructions of the Hack machine and their assembly text. An address instruction loads a
constant or the value of a symbol into the register A. A compute instruction sends the result of
the arithmetic unit to some of A, D and M, and may jump; M is the memory cell that A points to.
The unit's inputs are D and, chosen by the instruction, either A or M. A label is declared in the
code, but it is not executed and has no address of its own.
-/

namespace HackStack

/-- The second input of the arithmetic unit. -/
inductive UnitInput
  | a
  | m
  deriving DecidableEq, Repr

/-- The computations that the arithmetic unit can be told to do. -/
inductive Comp
  | zero
  | one
  | minusOne
  | d
  | notD
  | negD
  | succD
  | predD
  | input (x : UnitInput)
  | notInput (x : UnitInput)
  | negInput (x : UnitInput)
  | succInput (x : UnitInput)
  | predInput (x : UnitInput)
  | dPlus (x : UnitInput)
  | dMinus (x : UnitInput)
  | minusD (x : UnitInput)
  | dAnd (x : UnitInput)
  | dOr (x : UnitInput)
  deriving DecidableEq, Repr

/-- Where the result of a computation is stored. -/
structure Dest where
  a : Bool := false
  m : Bool := false
  d : Bool := false
  deriving DecidableEq, Repr

/-- When a compute instruction jumps, by the sign of its result. -/
inductive Jump
  | greater
  | equal
  | greaterEqual
  | less
  | notEqual
  | lessEqual
  | always
  deriving DecidableEq, Repr

/-- What the machine executes. -/
inductive Operation
  | constant (value : Word)
  | symbol (name : String)
  | compute (dest : Dest) (comp : Comp) (jump : Option Jump)
  deriving DecidableEq, Repr

/-- A line of code: an operation, or the declaration of a label. -/
inductive Instruction
  | operation (op : Operation)
  | label (name : String)
  deriving DecidableEq, Repr

namespace UnitInput

def text : UnitInput → String
  | .a => "A"
  | .m => "M"

end UnitInput

namespace Comp

/-- The computation in canonical spelling. -/
def text : Comp → String
  | .zero => "0"
  | .one => "1"
  | .minusOne => "-1"
  | .d => "D"
  | .notD => "!D"
  | .negD => "-D"
  | .succD => "D+1"
  | .predD => "D-1"
  | .input x => x.text
  | .notInput x => "!" ++ x.text
  | .negInput x => "-" ++ x.text
  | .succInput x => x.text ++ "+1"
  | .predInput x => x.text ++ "-1"
  | .dPlus x => "D+" ++ x.text
  | .dMinus x => "D-" ++ x.text
  | .minusD x => x.text ++ "-D"
  | .dAnd x => "D&" ++ x.text
  | .dOr x => "D|" ++ x.text

end Comp

namespace Dest

/-- The result is not stored. -/
def nowhere : Dest := {}

def toA : Dest := { a := true }

def toM : Dest := { m := true }

def toD : Dest := { d := true }

def toAM : Dest := { a := true, m := true }

def isEmpty (dest : Dest) : Bool := !(dest.a || dest.m || dest.d)

/-- The destinations in the order A, M, D. -/
def text (dest : Dest) : String :=
  (if dest.a then "A" else "") ++ (if dest.m then "M" else "") ++ (if dest.d then "D" else "")

theorem isEmpty_iff {dest : Dest} : dest.isEmpty = true ↔ dest = Dest.nowhere := by
  obtain ⟨a, m, d⟩ := dest
  cases a <;> cases m <;> cases d <;> decide

end Dest

namespace Jump

def text : Jump → String
  | .greater => "JGT"
  | .equal => "JEQ"
  | .greaterEqual => "JGE"
  | .less => "JLT"
  | .notEqual => "JNE"
  | .lessEqual => "JLE"
  | .always => "JMP"

end Jump

namespace Operation

/-- The operation as a line of assembly text; a compute instruction is `dest=comp;jump`, where a
part that is absent takes its separator with it. -/
def text : Operation → String
  | .constant value => "@" ++ toString value.toNat
  | .symbol name => "@" ++ name
  | .compute dest comp jump =>
      (if dest.isEmpty then "" else dest.text ++ "=") ++ comp.text
        ++ (match jump with
          | some jump => ";" ++ jump.text
          | none => "")

end Operation

namespace Instruction

def text : Instruction → String
  | .operation op => op.text
  | .label name => "(" ++ name ++ ")"

/-- The instruction that loads the value of a symbol. -/
def load (name : String) : Instruction := .operation (.symbol name)

/-- The instruction that loads a number. -/
def loadConstant (value : Word) : Instruction := .operation (.constant value)

/-- The instruction that stores the result of a computation. -/
def store (dest : Dest) (comp : Comp) : Instruction := .operation (.compute dest comp none)

/-- The instruction that jumps to the address in A if the result of a computation says so. -/
def branch (comp : Comp) (jump : Jump) : Instruction :=
  .operation (.compute Dest.nowhere comp (some jump))

/-- The operation of an instruction; a label has none. -/
def operation? : Instruction → Option Operation
  | .operation op => some op
  | .label _ => none

/-- The label that an instruction declares. -/
def label? : Instruction → Option String
  | .operation _ => none
  | .label name => some name

end Instruction

end HackStack
