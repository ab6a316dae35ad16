import HackStack.Error
import HackStack.Assembly.Fragment

set_option autoImplicit false

/-! # The code of a command

Each command has a fixed template. The register SP holds the address of the cell above the top of
the stack. Between commands nothing is kept in A and D, so a template may use both; a pop to a
segment with a base register also parks the address of its target in R13, because popping
needs A and D.

A template depends on the command alone, except that the code of a comparison declares labels,
which the number of the source line tells apart from those of other comparisons.
-/

namespace HackStack

namespace Code

open Instruction

/-- The register that holds the target address of a pop. -/
def scratch : String := "R13"

/-- Puts D on the stack: `*SP = D; SP++`. -/
def pushD : List Instruction :=
  [load "SP", store .toM (.succInput .m), store .toA (.predInput .m), store .toM .d]

/-- Takes the top of the stack into D: `SP--; D = *SP`. -/
def popD : List Instruction :=
  [load "SP", store .toAM (.predInput .m), store .toD (.input .m)]

/-- Puts the value of an operand into D. -/
def fetch? : Operand → Option (List Instruction)
  | .pointer slot => some [load slot.register, store .toD (.input .m)]
  | .cell segment index =>
      match segment.base with
      | .absent => some [loadConstant index, store .toD (.input .a)]
      | .indirect register =>
          some [load register.symbol, store .toD (.input .m), loadConstant index,
            store .toA (.dPlus .a), store .toD (.input .m)]
      | .direct base =>
          (directAddress base index).map fun address =>
            [loadConstant address, store .toD (.input .m)]

def push? (operand : Operand) : Option (List Instruction) :=
  (fetch? operand).map (· ++ pushD)

/-- Takes the top of the stack into an operand; a constant cannot be written to. -/
def pop? : Operand → Option (List Instruction)
  | .pointer slot => some (popD ++ [load slot.register, store .toM .d])
  | .cell segment index =>
      match segment.base with
      | .absent => none
      | .indirect register =>
          some ([load register.symbol, store .toD (.input .m), loadConstant index,
              store .toD (.dPlus .a), load scratch, store .toM .d]
            ++ popD ++ [load scratch, store .toA (.input .m), store .toM .d])
      | .direct base =>
          (directAddress base index).map fun address =>
            popD ++ [loadConstant address, store .toM .d]

/-- What a unary operator computes from the top of the stack in M. -/
def unaryComp : UnaryOperator → Comp
  | .neg => .negInput .m
  | .not => .notInput .m

/-- What a binary operator computes from its first operand in M and its second one in D. -/
def binaryComp : BinaryOperator → Comp
  | .add => .dPlus .m
  | .sub => .minusD .m
  | .and => .dAnd .m
  | .or => .dOr .m

/-- The jump that is taken if a comparison holds, by the sign of the operands' difference. -/
def comparisonJump : Comparison → Jump
  | .eq => .equal
  | .gt => .greater
  | .lt => .less

def unary (operator : UnaryOperator) : List Instruction :=
  [load "SP", store .toA (.predInput .m), store .toM (unaryComp operator)]

def binary (operator : BinaryOperator) : List Instruction :=
  [load "SP", store .toAM (.predInput .m), store .toD (.input .m), store .toA (.predInput .a),
    store .toM (binaryComp operator)]

/-- Replaces the top of the stack by a truth value. -/
def setTop (value : Comp) : List Instruction :=
  [load "SP", store .toA (.predInput .m), store .toM value]

/-- Compares by the sign of the wrapped difference of the two operands. -/
def comparison (operator : Comparison) (line : Nat) : List Instruction :=
  let taken := (LabelStem.holds operator).label line
  let notTaken := (LabelStem.fails operator).label line
  let done := LabelStem.done.label line
  [load "SP", store .toAM (.predInput .m), store .toD (.input .m), store .toA (.predInput .a),
      store .toD (.minusD .m), load taken, branch .d (comparisonJump operator), load notTaken,
      branch .zero .always]
    ++ .label taken :: setTop .minusOne ++ [load done, branch .zero .always]
    ++ .label notTaken :: setTop .zero ++ [.label done]

end Code

namespace Command

open Instruction in
/-- The code of a command on a source line, if there is any rule for it. -/
def code? (line : Nat) : Command → Option (List Instruction)
  | .push operand => Code.push? operand
  | .pop operand => Code.pop? operand
  | .arithmetic (.unary operator) => some (Code.unary operator)
  | .arithmetic (.binary operator) => some (Code.binary operator)
  | .arithmetic (.comparison operator) => some (Code.comparison operator line)
  | .label name => some [.label name]
  | .goto name => some [load name, branch .zero .always]
  | .ifGoto name => some (Code.popD ++ [load name, branch .d .notEqual])
  | .comment => some []

/-- The fragment of a command on a source line. -/
def compile (line : Nat) (command : Command) : Except CompileError Fragment :=
  match command.code? line with
  | some code => .ok ⟨line, command, code⟩
  | none => .error (.unsupported line command)

end Command

end HackStack
