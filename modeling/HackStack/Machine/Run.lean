import HackStack.Machine.Processor
import HackStack.Source

set_option autoImplicit false

/-! # Running code

Code is run on a memory in which the stack is empty and the base registers point to places of
their own, changed as the caller wishes. The report of a run says where the stack ends, what is on
it, and which cells have changed.
-/

namespace HackStack.Machine

/-- The address of the lowest cell of the stack. -/
def stackBase : Word := 256

/-- The memory that runs start from. -/
def initialMemory : Memory :=
  (Memory.fill 0).writeAll [(0, stackBase), (1, 300), (2, 400), (3, 3000), (4, 3010)]

/-- What is seen after a run. -/
structure Report where
  sp : Word
  /-- the stack from its lowest cell on; none if it ends below its base -/
  stack : Option (List Word)
  /-- the cells that the run has changed, by address, with their content -/
  changed : List (Word × Word)
  deriving DecidableEq, Repr

/-- The words on the stack: the cells from its base up to where SP points, if SP as a signed
number does not lie below the base. -/
def stackOf (memory : Memory) : Option (List Word) :=
  let sp := memory.read 0
  if sp.toInt < stackBase.toInt then none
  else
    some ((List.range (sp.toNat - stackBase.toNat)).map fun i =>
      memory.read (stackBase + BitVec.ofNat 16 i))

def Report.ofRun (before after : Memory) : Report :=
  ⟨after.read 0, stackOf after, after.changedSince before⟩

/-- Runs a program on a memory. -/
def runOn (program : Program) (memory : Memory) : Except Fault Report :=
  (Processor.run program Processor.stepLimit (Processor.start memory)).map fun final =>
    Report.ofRun memory final.memory

theorem runOn_congr {program other : Program}
    (h : ∀ s : Processor, s.step other = s.step program) (memory : Memory) :
    runOn other memory = runOn program memory := by
  rw [runOn, runOn, Processor.run_congr h]

/-- Loads and runs code, on the initial memory with the given cells changed. -/
def runCode (code : List Instruction) (cells : List (Word × Word)) : Except Fault Report :=
  match Program.load code with
  | .ok program => runOn program (initialMemory.writeAll cells)
  | .error fault => .error fault

theorem runCode_of_load {code : List Instruction} {program : Program}
    (h : Program.load code = .ok program) (cells : List (Word × Word)) :
    runCode code cells = runOn program (initialMemory.writeAll cells) := by
  rw [runCode, h]

/-- Compiles and runs a source text. -/
def runSource (source : String) (cells : List (Word × Word)) :
    Except CompileError (Except Fault Report) :=
  (Source.code source).map fun code => runCode code cells

end HackStack.Machine
