import HackStack.Machine.Memory
import HackStack.Machine.Program

set_option autoImplicit false

/-! # The processor

The processor has the registers A and D, the number of the next operation, and memory. A compute
operation stores its result in memory under the old content of A, then in A and D; if it jumps, it
jumps to the new content of A. A symbol is looked up when the operation that loads it is executed.
A run ends when there is no operation to execute next.
-/

namespace HackStack

namespace Comp

/-- The result of a computation, for given contents of D and of the second input. -/
def eval (comp : Comp) (d : Word) (input : UnitInput → Word) : Word :=
  match comp with
  | .zero => 0
  | .one => 1
  | .minusOne => -1
  | .d => d
  | .notD => ~~~d
  | .negD => -d
  | .succD => d + 1
  | .predD => d - 1
  | .input x => input x
  | .notInput x => ~~~(input x)
  | .negInput x => -(input x)
  | .succInput x => input x + 1
  | .predInput x => input x - 1
  | .dPlus x => d + input x
  | .dMinus x => d - input x
  | .minusD x => input x - d
  | .dAnd x => d &&& input x
  | .dOr x => d ||| input x

end Comp

namespace Jump

/-- Whether a jump is taken on a result. -/
def isTaken (jump : Jump) (value : Word) : Bool :=
  match jump with
  | .greater => decide (0 < value.toInt)
  | .equal => decide (value.toInt = 0)
  | .greaterEqual => decide (0 ≤ value.toInt)
  | .less => decide (value.toInt < 0)
  | .notEqual => decide (value.toInt ≠ 0)
  | .lessEqual => decide (value.toInt ≤ 0)
  | .always => true

end Jump

structure Processor where
  a : Word
  d : Word
  pc : Nat
  memory : Memory

namespace Processor

/-- The processor before a run. -/
def start (memory : Memory) : Processor := ⟨0, 0, 0, memory⟩

/-- The content of an input of the arithmetic unit. -/
def input (s : Processor) : UnitInput → Word
  | .a => s.a
  | .m => s.memory.read s.a

/-- Executes a compute operation. -/
def compute (s : Processor) (dest : Dest) (comp : Comp) (jump : Option Jump) : Processor :=
  let value := comp.eval s.d s.input
  let a := if dest.a then value else s.a
  { a := a
    d := if dest.d then value else s.d
    pc := if jump.any (·.isTaken value) then a.toNat else s.pc + 1
    memory := if dest.m then s.memory.write s.a value else s.memory }

/-- Executes an operation. -/
def execute (s : Processor) (symbols : SymbolTable) : Operation → Except Fault Processor
  | .constant value => .ok { s with a := value, pc := s.pc + 1 }
  | .symbol name =>
      match symbols.find? name with
      | some value => .ok { s with a := value, pc := s.pc + 1 }
      | none => .error (.undefinedSymbol name)
  | .compute dest comp jump => .ok (s.compute dest comp jump)

/-- Executes the next operation; there is none at and past the end of the program. -/
def step (s : Processor) (program : Program) : Option (Except Fault Processor) :=
  program.code[s.pc]?.map (s.execute program.symbols)

/-- Runs a program until there is no operation to execute next, and fails once `limit` operations
have been executed, even if the last one would have ended the run. -/
def run (program : Program) : Nat → Processor → Except Fault Processor
  | 0, _ => .error .stepLimit
  | limit + 1, s =>
      match s.step program with
      | none => .ok s
      | some (.ok s') => run program limit s'
      | some (.error fault) => .error fault

/-- Programs that take the same steps have the same runs. -/
theorem run_congr {program other : Program} (h : ∀ s : Processor, s.step other = s.step program)
    (limit : Nat) (s : Processor) : run other limit s = run program limit s := by
  induction limit generalizing s with
  | zero => rfl
  | succ limit ih =>
      rw [run, run, h]
      cases s.step program with
      | none => rfl
      | some result =>
          cases result with
          | error fault => rfl
          | ok t => exact ih t

/-- The number of operations after which a run is given up. -/
def stepLimit : Nat := 100000

end Processor

end HackStack
