import HackStack.Machine.Run
import HackStack.Proofs.SingleCommand

set_option autoImplicit false

/-! # Compiled code does what the stack machine does

The processor executes the code of a source command by command: whenever the stack machine is about
to execute a command, the processor is about to execute the code of it, with the same memory
(`steps_after`). Each command takes a number of operations that does not depend on data
(`Fragment.cost`), so the outcome of a run with a limit is known as well
(`Source.simulates_stackMachine`).

The words on the stack are read after SP is lowered. Where they lie in SP itself this matters, and
reading them before would be wrong (`Source.popped_word_is_read_after_sp`).
-/

namespace HackStack

open Source Processor StackMachine

namespace StackMachine

theorem step_of_length_le {view : View} {commands : List Command} {s : State}
    (h : commands.length ≤ s.position) : step view commands s = s := by
  rw [step, List.getElem?_eq_none h]

/-- The position never exceeds the end. -/
theorem position_step_le {view : View} {commands : List Command} {s : State}
    (h : s.position ≤ commands.length) :
    (step view commands s).position ≤ commands.length := by
  cases hcommand : commands[s.position]? with
  | none => rwa [step, hcommand]
  | some command =>
      obtain ⟨hlt, -⟩ := List.getElem?_eq_some_iff.1 hcommand
      rw [step_of_getElem? hcommand]
      cases command.jump? s.memory (view command s.memory) with
      | some name => exact List.idxOf_le_length
      | none => exact hlt

theorem position_after_le (view : View) (commands : List Command) (memory : Memory) (n : Nat) :
    (after view commands memory n).position ≤ commands.length := by
  induction n with
  | zero => exact Nat.zero_le _
  | succ n ih => exact position_step_le ih

end StackMachine

/-! ## Runs -/

/-- The stack machine after so many commands of a source, with the words on the stack read as
compiled code reads them. -/
abbrev machineAfter (fragments : List Fragment) (memory : Memory) (n : Nat) : State :=
  after settled (fragments.map Fragment.command) memory n

/-- The number of operations executed for the first commands of a run. -/
def clock (fragments : List Fragment) (memory : Memory) : Nat → Nat
  | 0 => 0
  | n + 1 =>
      match fragments[(machineAfter fragments memory n).position]? with
      | some fragment => clock fragments memory n + fragment.cost
      | none => clock fragments memory n

section Run

variable {fragments : List Fragment} {program : Program} {memory : Memory} {fragment : Fragment}
  {n : Nat}

theorem clock_succ
    (h : fragments[(machineAfter fragments memory n).position]? = some fragment) :
    clock fragments memory (n + 1) = clock fragments memory n + fragment.cost := by
  rw [clock, h]

theorem machineAfter_succ
    (h : fragments[(machineAfter fragments memory n).position]? = some fragment) :
    (machineAfter fragments memory (n + 1)).position =
      goOn (fragments.map Fragment.command) (machineAfter fragments memory n).position
        (fragment.command.jump? (machineAfter fragments memory n).memory
          (settled fragment.command (machineAfter fragments memory n).memory)) := by
  have hcommand : (fragments.map Fragment.command)[(machineAfter fragments memory n).position]?
      = some fragment.command := by
    rw [List.getElem?_map, h, Option.map_some]
  rw [machineAfter, after, step_of_getElem? hcommand]

/-- **A run, command by command.** -/
theorem steps_after (hunit : IsRunnable fragments)
    (hload : LoadedFrom (instructions fragments) program) (memory : Memory) (n : Nat) :
    ∃ t, Steps program (clock fragments memory n) (Processor.start memory) t
      ∧ t.pc = address fragments (machineAfter fragments memory n).position
      ∧ t.memory = (machineAfter fragments memory n).memory := by
  induction n with
  | zero => exact ⟨_, .refl _, rfl, rfl⟩
  | succ n ih =>
      obtain ⟨t, hsteps, hpc, hmemory⟩ := ih
      cases hfragment : fragments[(machineAfter fragments memory n).position]? with
      | none =>
          -- past the last command neither of the two moves on
          have hend : (fragments.map Fragment.command).length
              ≤ (machineAfter fragments memory n).position := by
            rw [List.length_map]
            exact List.getElem?_eq_none_iff.1 hfragment
          rw [clock, hfragment, machineAfter, after, step_of_length_le hend]
          exact ⟨t, hsteps, hpc, hmemory⟩
      | some fragment =>
          obtain ⟨u, hnext, hupc, humemory⟩ := steps_command hunit hload hfragment hpc
          rw [hmemory] at hupc humemory
          rw [clock_succ hfragment]
          exact ⟨u, hsteps.trans hnext, hupc, humemory⟩

/-- A command for which nothing is executed goes on to the next one. -/
theorem jump?_eq_none_of_cost (hcompiled : IsCompiled fragments) (hmem : fragment ∈ fragments)
    (hcost : fragment.cost = 0) (seen : Memory) :
    fragment.command.jump? memory seen = none := by
  have hcode := hcompiled.code fragment hmem
  obtain ⟨line, command, code⟩ := fragment
  cases command with
  | goto name =>
      cases hcode
      cases hcost
  | ifGoto name =>
      cases hcode
      cases hcost
  | _ => rfl

/-- As long as the last command is not passed, commands for which nothing is executed run out. -/
theorem exists_clock_lt (hcompiled : IsCompiled fragments) (memory : Memory)
    (hopen : ∀ n, (machineAfter fragments memory n).position < fragments.length) (n : Nat) :
    ∃ k, clock fragments memory n < clock fragments memory k := by
  by_contra hnone
  rw [not_exists] at hnone
  -- otherwise the position would grow by one with each command, and past the last one
  have hstill : ∀ k, clock fragments memory (n + k) = clock fragments memory n
      ∧ (machineAfter fragments memory (n + k)).position
        = (machineAfter fragments memory n).position + k := by
    intro k
    induction k with
    | zero => exact ⟨rfl, rfl⟩
    | succ k ih =>
        obtain ⟨hclock, hposition⟩ := ih
        have hlt := hopen (n + k)
        obtain ⟨fragment, hfragment⟩ : ∃ fragment,
            fragments[(machineAfter fragments memory (n + k)).position]? = some fragment :=
          ⟨_, List.getElem?_eq_getElem hlt⟩
        have hsucc := clock_succ hfragment
        have hle := hnone (n + k + 1)
        have hcost : fragment.cost = 0 := by omega
        have hmem := List.mem_of_getElem? hfragment
        rw [← Nat.add_assoc, machineAfter_succ hfragment,
          jump?_eq_none_of_cost hcompiled hmem hcost, goOn, hposition]
        exact ⟨by omega, by omega⟩
  have hend := (hstill fragments.length).2
  have hlt := hopen (n + fragments.length)
  omega

/-- A run that never passes the last command executes any number of operations. -/
theorem exists_le_clock (hcompiled : IsCompiled fragments) (memory : Memory)
    (hopen : ∀ n, (machineAfter fragments memory n).position < fragments.length) (limit : Nat) :
    ∃ n, limit ≤ clock fragments memory n := by
  induction limit with
  | zero => exact ⟨0, Nat.zero_le _⟩
  | succ limit ih =>
      obtain ⟨n, hn⟩ := ih
      obtain ⟨k, hk⟩ := exists_clock_lt hcompiled memory hopen n
      exact ⟨k, by omega⟩

end Run

/-! ## The main result -/

/-- What it means for a program to do on a memory what a source does on the stack machine. -/
structure Simulates (program : Program) (fragments : List Fragment) (memory : Memory) : Prop where
  /-- after the operations for the first commands, the processor is about to execute the code of
  the command that the stack machine is about to execute, with the same memory -/
  steps : ∀ n, ∃ s, Steps program (clock fragments memory n) (Processor.start memory) s
    ∧ s.pc = address fragments (machineAfter fragments memory n).position
    ∧ s.memory = (machineAfter fragments memory n).memory
  /-- if the stack machine passes the last command within the limit, the run ends with its memory -/
  ends : ∀ n limit, (machineAfter fragments memory n).position = fragments.length →
    clock fragments memory n < limit →
    ∃ s, Processor.run program limit (Processor.start memory) = .ok s
      ∧ s.memory = (machineAfter fragments memory n).memory
  /-- and if it does not, the run is given up -/
  exceeds : ∀ limit, (∀ n, (machineAfter fragments memory n).position = fragments.length →
      limit ≤ clock fragments memory n) →
    Processor.run program limit (Processor.start memory) = .error .stepLimit

/-- The words that are taken off the stack by the first commands of a run are clear of SP and of
the parked address. -/
def IsUndisturbedFor (fragments : List Fragment) (memory : Memory) (n : Nat) : Prop :=
  ∀ k < n, ∀ command,
    (fragments.map Fragment.command)[(machineAfter fragments memory k).position]? = some command →
      command.IsUndisturbed (machineAfter fragments memory k).memory

/-- For such a run it does not matter when the words on the stack are read. -/
theorem machineAfter_eq_before {fragments : List Fragment} {memory : Memory} {n : Nat}
    (h : IsUndisturbedFor fragments memory n) :
    machineAfter fragments memory n = after before (fragments.map Fragment.command) memory n := by
  induction n with
  | zero => rfl
  | succ n ih =>
      have hearlier : IsUndisturbedFor fragments memory n :=
        fun k hk => h k (Nat.lt_succ_of_lt hk)
      have hlast := h n (Nat.lt_succ_self n)
      calc machineAfter fragments memory (n + 1)
          = step settled (fragments.map Fragment.command) (machineAfter fragments memory n) := rfl
        _ = step before (fragments.map Fragment.command) (machineAfter fragments memory n) :=
            step_settled_eq hlast
        _ = after before (fragments.map Fragment.command) memory (n + 1) := by
            rw [ih hearlier, after]

theorem simulates_of_isRunnable {fragments : List Fragment} {program : Program}
    (hunit : IsRunnable fragments) (hload : LoadedFrom (instructions fragments) program)
    (memory : Memory) : Simulates program fragments memory := by
  refine ⟨steps_after hunit hload memory, ?_, ?_⟩
  · intro n limit hend hlimit
    obtain ⟨s, hsteps, hpc, hmemory⟩ := steps_after hunit hload memory n
    have hsize : program.code.size = s.pc := by rw [hpc, hend, address_length, hload.size]
    exact ⟨s, run_eq_ok hsteps (Nat.le_of_eq hsize) hlimit, hmemory⟩
  · intro limit hlate
    obtain ⟨n, hn⟩ : ∃ n, limit ≤ clock fragments memory n := by
      -- either no command is the last one, or the one that is comes too late
      by_cases hopen : ∀ n, (machineAfter fragments memory n).position < fragments.length
      · exact exists_le_clock hunit.compiled memory hopen limit
      · rw [not_forall] at hopen
        obtain ⟨n, hn⟩ := hopen
        have hle : (machineAfter fragments memory n).position
            ≤ (fragments.map Fragment.command).length := position_after_le settled _ memory n
        rw [List.length_map] at hle
        exact ⟨n, hlate n (by omega)⟩
    obtain ⟨s, hsteps, -, -⟩ := steps_after hunit hload memory n
    exact run_eq_stepLimit hsteps hn

namespace Source

/-- **Compiled code does what its source says.** A source whose code fits into words, whose labels
can be declared, and whose jumps all have a target can be loaded; and on every memory the program
does what the stack machine does, reading the words on the stack once SP is lowered. While they are
clear of SP and of the parked address, this is reading them before. -/
theorem simulates_stackMachine {source : String} {fragments : List Fragment}
    (h : compile source = .ok fragments)
    (hfits : (Code.operations (instructions fragments)).length ≤ 65535)
    (hlabels : Declarable (declaredLabels fragments))
    (htargets : ∀ fragment ∈ fragments, ∀ name, fragment.command.target? = some name →
      name ∈ declaredLabels fragments) :
    ∃ program, Program.load (instructions fragments) = .ok program
      ∧ ∀ memory, Simulates program fragments memory
        ∧ ∀ n, IsUndisturbedFor fragments memory n →
          machineAfter fragments memory n
            = after before (fragments.map Fragment.command) memory n := by
  have hcompiled := isCompiled_of_compile h
  obtain ⟨program, hprogram, hload⟩ :=
    Program.exists_load_of_declarable (hcompiled.declarable_labels hlabels)
  have hunit : IsRunnable fragments := ⟨hcompiled, hfits, hlabels, htargets⟩
  exact ⟨program, hprogram, fun memory =>
    ⟨simulates_of_isRunnable hunit hload memory, fun n => machineAfter_eq_before⟩⟩

/-- A source with a jump over a command; the program ends, on every memory. -/
theorem simulates_stackMachine_goto :
    ∃ fragments program, compile "push constant 7\ngoto END\nneg\nlabel END" = .ok fragments
      ∧ Program.load (instructions fragments) = .ok program
      ∧ ∀ memory : Memory, ∃ s, Processor.run program 9 (Processor.start memory) = .ok s
          ∧ s.memory = (memory.write 0 (memory.sp + 1)).write memory.sp 7 := by
  have h : compile "push constant 7\ngoto END\nneg\nlabel END" = .ok
      [⟨1, .push (.cell .constant 7), [.loadConstant 7, .store .toD (.input .a)] ++ Code.pushD⟩,
        ⟨2, .goto "END", Code.jumpTo "END"⟩,
        ⟨3, .arithmetic (.unary .neg), Code.unary .neg⟩,
        ⟨4, .label "END", [.label "END"]⟩] := by
    rw [compile_eq_yields]
    rfl
  obtain ⟨program, hprogram, hrun⟩ := simulates_stackMachine h (by decide)
    ⟨by decide, by decide⟩ (by simp [Command.target?, declaredLabels, Command.declared?])
  refine ⟨_, program, h, hprogram, fun memory => ?_⟩
  obtain ⟨s, hs, hmemory⟩ := (hrun memory).1.ends 3 9 rfl (show 8 < 9 by decide)
  exact ⟨s, hs, hmemory⟩

/-- With SP at 1 the word that is popped is SP itself, and it is read after it is lowered. -/
theorem popped_word_is_read_after_sp :
    ∃ fragments program s, compile "pop temp 0" = .ok fragments
      ∧ Program.load (instructions fragments) = .ok program
      ∧ Processor.run program Processor.stepLimit
          (Processor.start (Machine.initialMemory.writeAll [(0, 1)])) = .ok s
      ∧ s.memory.read 5 = 0
      ∧ (after before (fragments.map Fragment.command)
          (Machine.initialMemory.writeAll [(0, 1)]) 1).memory.read 5 = 1 := by
  have h : compile "pop temp 0" = .ok
      [⟨1, .pop (.cell .temp 0), Code.popD ++ [.loadConstant 5, .store .toM .d]⟩] := by
    rw [compile_eq_yields]
    rfl
  have hcompiled := isCompiled_of_compile h
  obtain ⟨program, hprogram, hload⟩ :=
    Program.exists_load_of_declarable (hcompiled.declarable_labels ⟨by decide, by decide⟩)
  have hunit : IsRunnable _ :=
    ⟨hcompiled, by decide, ⟨by decide, by decide⟩, by simp [Command.target?]⟩
  obtain ⟨initial, hinitial⟩ :
      ∃ initial : Memory, Machine.initialMemory.writeAll [(0, 1)] = initial := ⟨_, rfl⟩
  have hsp : initial.sp = 1 := by
    rw [← hinitial]
    exact Memory.read_write_self _ _ _
  obtain ⟨s, hs, hmemory⟩ :=
    (simulates_of_isRunnable hunit hload initial).ends 1 Processor.stepLimit rfl
      (show 5 < 100000 by decide)
  rw [hinitial]
  refine ⟨_, program, s, h, hprogram, hs, ?_, ?_⟩
  · have hafter : s.memory = initial.lowered.write 5 (initial.lowered.read (initial.sp - 1)) :=
      hmemory
    have hpopped : initial.lowered.sp = 0 := by
      rw [Memory.sp_lowered, hsp]
      rfl
    rw [hafter, Memory.read_write_self, hsp]
    exact hpopped
  · have hbefore : initial.read (initial.sp - 1) = 1 := by
      rw [hsp]
      exact hsp
    exact (Memory.read_write_self _ _ _).trans hbefore

end Source

end HackStack
