import HackStack.Assembly.Instruction
import HackStack.Machine.SymbolTable

set_option autoImplicit false

/-! # Loaded programs

Loading code separates operations from labels: a label stands for the number of the operations
before it, reduced to a word. A name can be declared once, and names of registers not at all.
-/

namespace HackStack

/-- What can go wrong when code is loaded and run. -/
inductive Fault
  | duplicateLabel (name : String)
  | undefinedSymbol (name : String)
  | stepLimit
  deriving DecidableEq, Repr

namespace Fault

def message : Fault → String
  | .duplicateLabel name => "duplicate label (" ++ name ++ ")"
  | .undefinedSymbol name => "undefined symbol " ++ name
  | .stepLimit => "program did not terminate"

end Fault

structure Program where
  code : Array Operation
  symbols : SymbolTable

namespace Program

/-- The program without code. -/
def empty : Program := ⟨#[], .predefined⟩

/-- The address that the next operation will have. -/
def nextAddress (p : Program) : Word := BitVec.ofNat 16 p.code.size

/-- The program with one more instruction. -/
def append (p : Program) : Instruction → Except Fault Program
  | .operation op => .ok { p with code := p.code.push op }
  | .label name =>
      match p.symbols.find? name with
      | some _ => .error (.duplicateLabel name)
      | none => .ok { p with symbols := p.symbols.insert name p.nextAddress }

/-- Appends instructions, as far as they can be. -/
def appendAll (p : Program) : List Instruction → Except Fault Program
  | [] => .ok p
  | instruction :: rest =>
      match p.append instruction with
      | .ok p' => p'.appendAll rest
      | .error fault => .error fault

/-- The program that code is loaded as. -/
def load (code : List Instruction) : Except Fault Program := empty.appendAll code

end Program

end HackStack
