import HackStack.Command
import HackStack.Machine.Memory

set_option autoImplicit false

/-! # The stack machine

What the commands mean, without any code: a command changes the memory, which also holds the stack
and its pointer, and names the command to go on with. All arithmetic wraps.

Taking words off the stack lowers SP, and popping to an indirect segment also parks the target
address in cell 13. As SP and that cell are memory cells, the words that are taken off the stack
may lie in them, and then it matters from which memory they are read: the one before the command,
or the one in which this bookkeeping is done (`Command.settled`). The machine is defined for either
(`StackMachine.step`); `step_settled_eq` says that they agree while the words are clear of both.
-/

namespace HackStack

namespace UnaryOperator

def apply : UnaryOperator → Word → Word
  | .neg, x => -x
  | .not, x => ~~~x

end UnaryOperator

namespace BinaryOperator

def apply : BinaryOperator → Word → Word → Word
  | .add, x, y => x + y
  | .sub, x, y => x - y
  | .and, x, y => x &&& y
  | .or, x, y => x ||| y

end BinaryOperator

namespace Comparison

/-- Whether a comparison holds, by the difference of its operands read as a signed number. -/
def holds (operator : Comparison) (difference : Word) : Bool :=
  match operator with
  | .eq => decide (difference.toInt = 0)
  | .gt => decide (0 < difference.toInt)
  | .lt => decide (difference.toInt < 0)

end Comparison

namespace Memory

/-- The stack pointer. -/
def sp (memory : Memory) : Word := memory.read 0

/-- The memory in which the stack is one word lower. -/
def lowered (memory : Memory) : Memory := memory.write 0 (memory.sp - 1)

end Memory

namespace Operand

/-- The cell that an operand stands for; a constant has none. -/
def address? (memory : Memory) : Operand → Option Word
  | .pointer slot => some slot.address
  | .cell segment index =>
      match segment.base with
      | .absent => none
      | .indirect register => some (memory.read register.address + index)
      | .direct base => some (base + index)

/-- The word that an operand stands for. -/
def value (memory : Memory) : Operand → Word
  | .pointer slot => memory.read slot.address
  | .cell segment index =>
      match segment.base with
      | .absent => index
      | .indirect register => memory.read (memory.read register.address + index)
      | .direct base => memory.read (base + index)

/-- The address that is parked while a word is popped to an indirect segment. -/
def parked? (memory : Memory) : Operand → Option Word
  | .pointer _ => none
  | .cell segment index =>
      match segment.base with
      | .indirect register => some (memory.read register.address + index)
      | _ => none

/-- **The layout of memory in numbers.** The cells 1 to 4 hold the addresses at which four of the
segments begin; `temp` and `static` begin at 5 and at 16, and `pointer` is the cells 3 and 4. An
operand that has a cell stands for the word in it, and a constant for its own number. Addresses are
parked for the segments that begin where a register says. -/
theorem layout (memory : Memory) (operand : Operand) :
    operand.address? memory =
        (match operand with
        | .cell .constant _ => none
        | .cell .locals index => some (memory.read 1 + index)
        | .cell .argument index => some (memory.read 2 + index)
        | .cell .this index => some (memory.read 3 + index)
        | .cell .that index => some (memory.read 4 + index)
        | .cell .temp index => some (5 + index)
        | .cell .static index => some (16 + index)
        | .pointer .this => some 3
        | .pointer .that => some 4)
      ∧ (∀ cell, operand.address? memory = some cell → operand.value memory = memory.read cell)
      ∧ (∀ index, operand = .cell .constant index → operand.value memory = index)
      ∧ operand.parked? memory =
        (match operand with
        | .cell .locals _ => operand.address? memory
        | .cell .argument _ => operand.address? memory
        | .cell .this _ => operand.address? memory
        | .cell .that _ => operand.address? memory
        | _ => none) := by
  cases operand with
  | pointer slot =>
      refine ⟨by cases slot <;> rfl, fun cell hcell => ?_, fun index hindex => ?_, rfl⟩
      · cases hcell
        rfl
      · cases hindex
  | cell segment index =>
      refine ⟨by cases segment <;> rfl, fun cell hcell => ?_, fun number hnumber => ?_,
        by cases segment <;> rfl⟩
      · cases segment <;> cases hcell <;> rfl
      · cases hnumber
        rfl

end Operand

namespace Command

/-- The memory in which the bookkeeping of a command is done: SP is lowered for a word that the
command takes off the stack, and the target of an indirect pop is parked. -/
def settled (memory : Memory) : Command → Memory
  | .pop operand =>
      match operand.parked? memory with
      | some address => memory.lowered.write 13 address
      | none => memory.lowered
  | .arithmetic (.binary _) => memory.lowered
  | .arithmetic (.comparison _) => memory.lowered
  | .ifGoto _ => memory.lowered
  | _ => memory

/-- The memory after a command, if the words on the stack are read from `seen`. -/
def result (memory seen : Memory) : Command → Memory
  | .push operand =>
      (memory.write 0 (memory.sp + 1)).write memory.sp (operand.value memory)
  | .pop operand =>
      match operand.address? memory with
      | some address =>
          (settled memory (.pop operand)).write address (seen.read (memory.sp - 1))
      | none => memory.lowered
  | .arithmetic (.unary operator) =>
      memory.write (memory.sp - 1) (operator.apply (seen.read (memory.sp - 1)))
  | .arithmetic (.binary operator) =>
      memory.lowered.write (memory.sp - 2)
        (operator.apply (seen.read (memory.sp - 2)) (seen.read (memory.sp - 1)))
  | .arithmetic (.comparison operator) =>
      memory.lowered.write (memory.sp - 2)
        (Word.ofBool
          (operator.holds (seen.read (memory.sp - 2) - seen.read (memory.sp - 1))))
  | .ifGoto _ => memory.lowered
  | .label _ => memory
  | .goto _ => memory
  | .comment => memory

/-- The label that a command jumps to, if the words on the stack are read from `seen`. -/
def jump? (memory seen : Memory) : Command → Option String
  | .goto name => some name
  | .ifGoto name => if seen.read (memory.sp - 1) = 0 then none else some name
  | _ => none

end Command

namespace StackMachine

/-- The number of the command to execute next, and the memory. -/
structure State where
  position : Nat
  memory : Memory

/-- Where the words on the stack are read from when a command is executed. -/
abbrev View := Command → Memory → Memory

/-- The words are read before the command changes anything. -/
def before : View := fun _ memory => memory

/-- The words are read once the bookkeeping of the command is done. -/
def settled : View := fun command memory => command.settled memory

/-- Where the machine goes on: at the first declaration of the label that it jumps to, if it jumps,
and at the next command otherwise. -/
def goOn (commands : List Command) (position : Nat) : Option String → Nat
  | some name => commands.idxOf (.label name)
  | none => position + 1

/-- Executes the next command; past the last one nothing happens. -/
def step (view : View) (commands : List Command) (s : State) : State :=
  match commands[s.position]? with
  | none => s
  | some command =>
      { position := goOn commands s.position (command.jump? s.memory (view command s.memory))
        memory := command.result s.memory (view command s.memory) }

/-- The state after so many commands, from the first one on. -/
def after (view : View) (commands : List Command) (memory : Memory) : Nat → State
  | 0 => ⟨0, memory⟩
  | n + 1 => step view commands (after view commands memory n)

end StackMachine

/-! ## The two ways to read the stack -/

namespace Command

/-- The words that a command takes off the stack lie neither in SP nor, if it parks an address, in
the cell for it. -/
def IsUndisturbed (memory : Memory) : Command → Prop
  | .pop operand => memory.sp ≠ 1 ∧ (operand.parked? memory ≠ none → memory.sp ≠ 14)
  | .ifGoto _ => memory.sp ≠ 1
  | .arithmetic (.binary _) => memory.sp ≠ 1 ∧ memory.sp ≠ 2
  | .arithmetic (.comparison _) => memory.sp ≠ 1 ∧ memory.sp ≠ 2
  | _ => True

end Command

namespace Memory

variable {memory : Memory}

theorem read_lowered_of_ne {address : Word} (h : address ≠ 0) :
    memory.lowered.read address = memory.read address :=
  read_write_of_ne h

@[simp] theorem sp_lowered : memory.lowered.sp = memory.sp - 1 :=
  read_write_self _ _ _

theorem read_lowered_top (h : memory.sp ≠ 1) :
    memory.lowered.read (memory.sp - 1) = memory.read (memory.sp - 1) := by
  apply read_lowered_of_ne
  bv_omega

theorem read_lowered_second (h : memory.sp ≠ 2) :
    memory.lowered.read (memory.sp - 2) = memory.read (memory.sp - 2) := by
  apply read_lowered_of_ne
  bv_omega

end Memory

namespace Command

/-- A word that is popped is the old one, unless it is SP or was overwritten by the target. -/
theorem read_settled_pop {operand : Operand} {memory : Memory}
    (h : IsUndisturbed memory (.pop operand)) :
    (settled memory (.pop operand)).read (memory.sp - 1) = memory.read (memory.sp - 1) := by
  obtain ⟨hsp, hpark⟩ := h
  simp only [settled]
  split
  · rename_i address haddress
    -- the word is neither SP nor the parked address
    have hne : memory.sp - 1 ≠ 13 := by
      have hfourteen : memory.sp ≠ 14 := hpark (by simp [haddress])
      bv_omega
    rw [Memory.read_write_of_ne hne, Memory.read_lowered_top hsp]
  · exact Memory.read_lowered_top hsp

theorem result_settled {command : Command} {memory : Memory}
    (h : command.IsUndisturbed memory) :
    command.result memory (command.settled memory) = command.result memory memory := by
  cases command with
  | pop operand => simp only [result, read_settled_pop h]
  | arithmetic operator =>
      cases operator with
      | unary operator => rfl
      | binary operator =>
          simp only [result, settled, Memory.read_lowered_top h.1, Memory.read_lowered_second h.2]
      | comparison operator =>
          simp only [result, settled, Memory.read_lowered_top h.1, Memory.read_lowered_second h.2]
  | _ => rfl

theorem jump?_settled {command : Command} {memory : Memory}
    (h : command.IsUndisturbed memory) :
    command.jump? memory (command.settled memory) = command.jump? memory memory := by
  cases command with
  | ifGoto name => simp only [jump?, settled, Memory.read_lowered_top h]
  | _ => rfl

end Command

namespace StackMachine

/-- Both ways to read the stack give the same next state as long as the words on it are clear of
SP and of the parked address. -/
theorem step_settled_eq {commands : List Command} {s : State}
    (h : ∀ command, commands[s.position]? = some command → command.IsUndisturbed s.memory) :
    step settled commands s = step before commands s := by
  unfold step
  split
  · rfl
  · rename_i command hcommand
    simp only [settled, before, Command.result_settled (h command hcommand),
      Command.jump?_settled (h command hcommand)]

end StackMachine

end HackStack
