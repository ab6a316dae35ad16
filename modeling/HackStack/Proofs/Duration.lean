import Mathlib.Algebra.GroupWithZero.Nat
import Mathlib.Algebra.Order.BigOperators.Group.List
import Mathlib.Algebra.Order.Group.Nat
import HackStack.Proofs.Simulation

set_option autoImplicit false

/-! # How long programs without jumps run

The commands of a source without jump commands are executed in order, each of them once. As the
number of operations for a command does not depend on data, neither does that for all of them, which
is the sum (`Source.duration`). From every memory the run leaves the program after just so many
operations (`Source.ends_after_duration`).
-/

namespace HackStack

open Source Processor StackMachine

/-! ## The duration of a source -/

namespace Source

/-- The number of operations that are executed if each command is executed once. -/
def duration (fragments : List Fragment) : Nat := (fragments.map Fragment.cost).sum

variable {fragments : List Fragment} {fragment : Fragment} {i : Nat}

theorem duration_take_succ (h : fragments[i]? = some fragment) :
    duration (fragments.take (i + 1)) = duration (fragments.take i) + fragment.cost := by
  rw [duration, duration, List.take_add_one, h, Option.toList_some, List.map_append,
    List.sum_append, List.map_singleton, List.sum_singleton]

theorem length_operations_instructions (fragments : List Fragment) :
    (Code.operations (instructions fragments)).length = (fragments.map Fragment.size).sum := by
  induction fragments with
  | nil => rfl
  | cons fragment rest ih =>
      have hcode : instructions (fragment :: rest) = fragment.code ++ instructions rest := rfl
      rw [hcode, Code.operations_append, List.length_append, ih, List.map_cons, List.sum_cons,
        Fragment.size]

end Source

namespace IsCompiled

variable {fragments : List Fragment} {fragment : Fragment}

theorem size_of_comparison (h : IsCompiled fragments) (hmem : fragment ∈ fragments)
    {operator : Comparison} (hcommand : fragment.command = .arithmetic (.comparison operator)) :
    fragment.size = 17 := by
  have hcode := h.code fragment hmem
  rw [hcommand] at hcode
  rw [Fragment.size, ← Option.some.inj hcode]
  rfl

theorem cost_le_size (h : IsCompiled fragments) (hmem : fragment ∈ fragments) :
    fragment.cost ≤ fragment.size := by
  unfold Fragment.cost
  split
  · rename_i operator hcommand
    rw [h.size_of_comparison hmem hcommand]
    decide
  · exact Nat.le_refl _

/-- Without jumps back, no more operations are executed than there are. -/
theorem duration_le (h : IsCompiled fragments) :
    duration fragments ≤ (Code.operations (instructions fragments)).length := by
  rw [length_operations_instructions]
  exact List.sum_le_sum fun _ hmem => h.cost_le_size hmem

end IsCompiled

/-! ## One command after the other -/

theorem Command.jump?_eq_none_of_target? {command : Command} (h : command.target? = none)
    (memory seen : Memory) : command.jump? memory seen = none := by
  cases command with
  | goto name => cases h
  | ifGoto name => cases h
  | _ => rfl

theorem Processor.pc_lt_of_step {program : Program} {s : Processor}
    {result : Except Fault Processor} (h : s.step program = some result) :
    s.pc < program.code.size := by
  obtain ⟨op, hop, -⟩ := Option.map_eq_some_iff.1 h
  exact (Array.getElem?_eq_some_iff.1 hop).1

/-- Before each operation of a counted run the processor is within the program. -/
theorem Processor.Steps.exists_within {program : Program} {n k : Nat} {s u : Processor}
    (h : Steps program n s u) (hlt : k < n) :
    ∃ t, Steps program k s t ∧ t.pc < program.code.size := by
  obtain ⟨m, rfl⟩ : ∃ m, n = k + (m + 1) := ⟨n - k - 1, by omega⟩
  obtain ⟨t, ht, hrest⟩ := h.split
  cases hrest with
  | head hstep _ => exact ⟨t, ht, pc_lt_of_step hstep⟩

section InOrder

variable {fragments : List Fragment} {i : Nat}

/-- Without jumps the stack machine takes the commands in order. -/
theorem position_machineAfter
    (hjumps : ∀ fragment ∈ fragments, fragment.command.target? = none) (memory : Memory)
    (h : i ≤ fragments.length) : (machineAfter fragments memory i).position = i := by
  induction i with
  | zero => rfl
  | succ i ih =>
      have hposition := ih (Nat.le_of_succ_le h)
      have hfragment : fragments[(machineAfter fragments memory i).position]?
          = some fragments[i] := by
        rw [hposition]
        exact List.getElem?_eq_getElem h
      have htarget := hjumps _ (List.getElem_mem h)
      rw [machineAfter_succ hfragment, Command.jump?_eq_none_of_target? htarget, goOn, hposition]

theorem clock_eq_duration
    (hjumps : ∀ fragment ∈ fragments, fragment.command.target? = none) (memory : Memory)
    (h : i ≤ fragments.length) : clock fragments memory i = duration (fragments.take i) := by
  induction i with
  | zero => rfl
  | succ i ih =>
      have hle := Nat.le_of_succ_le h
      have hfragment : fragments[i]? = some fragments[i] := List.getElem?_eq_getElem h
      have hnext : fragments[(machineAfter fragments memory i).position]? = some fragments[i] := by
        rw [position_machineAfter hjumps memory hle]
        exact hfragment
      rw [clock_succ hnext, ih hle, duration_take_succ hfragment]

end InOrder

/-! ## The main result -/

/-- The commands of a source are executed in order on a memory, and then the program is left. -/
structure RunsThrough (program : Program) (fragments : List Fragment) (memory : Memory) :
    Prop where
  /-- what the first commands cost leads to the code of the next one -/
  commands : ∀ i ≤ fragments.length, ∃ s,
    Steps program (duration (fragments.take i)) (Processor.start memory) s
      ∧ s.pc = address fragments i
  /-- as long as not all of it is executed, there is an operation to execute -/
  within : ∀ n < duration fragments, ∃ s,
    Steps program n (Processor.start memory) s ∧ s.pc < program.code.size
  /-- then there is none, and a run ends there unless it reaches its limit before -/
  ends : ∃ s, Steps program (duration fragments) (Processor.start memory) s
    ∧ s.pc = program.code.size
    ∧ ∀ limit, Processor.run program limit (Processor.start memory)
        = if duration fragments < limit then .ok s else .error .stepLimit
  report : (∃ report, Machine.runOn program memory = .ok report) ↔ duration fragments < stepLimit
  givenUp : stepLimit ≤ duration fragments → ∃ fault, Machine.runOn program memory = .error fault
    ∧ fault.message = "program did not terminate"

theorem runsThrough_of_isRunnable {fragments : List Fragment} {program : Program}
    (hunit : IsRunnable fragments) (hload : LoadedFrom (instructions fragments) program)
    (hjumps : ∀ fragment ∈ fragments, fragment.command.target? = none) (memory : Memory) :
    RunsThrough program fragments memory := by
  have hcommands : ∀ i ≤ fragments.length, ∃ s,
      Steps program (duration (fragments.take i)) (Processor.start memory) s
        ∧ s.pc = address fragments i := by
    intro i hi
    obtain ⟨s, hsteps, hpc, -⟩ := steps_after hunit hload memory i
    rw [clock_eq_duration hjumps memory hi] at hsteps
    rw [position_machineAfter hjumps memory hi] at hpc
    exact ⟨s, hsteps, hpc⟩
  obtain ⟨s, hsteps, hpc⟩ := hcommands fragments.length (Nat.le_refl _)
  rw [List.take_length] at hsteps
  rw [address_length, ← hload.size] at hpc
  have hrun : ∀ limit, Processor.run program limit (Processor.start memory)
      = if duration fragments < limit then .ok s else .error .stepLimit := by
    intro limit
    split
    · rename_i hlt
      exact run_eq_ok hsteps (Nat.le_of_eq hpc.symm) hlt
    · rename_i hge
      exact run_eq_stepLimit hsteps (Nat.le_of_not_lt hge)
  refine ⟨hcommands, fun n hn => hsteps.exists_within hn, ⟨s, hsteps, hpc, hrun⟩, ?_, ?_⟩
  · rw [Machine.runOn, hrun]
    split
    · rename_i hlt
      exact ⟨fun _ => hlt, fun _ => ⟨_, rfl⟩⟩
    · rename_i hge
      refine ⟨?_, fun hlt => absurd hlt hge⟩
      rintro ⟨report, hreport⟩
      cases hreport
  · intro hlate
    rw [Machine.runOn, hrun, if_neg (Nat.not_lt_of_le hlate)]
    exact ⟨_, rfl, rfl⟩

namespace Source

/-- **Programs without jumps end.** Let a source have no jump commands, let its code fit into words
and its labels be distinct and no names of registers. Its duration counts all operations of each
command, but twelve of the seventeen of a comparison. Whatever memory the program is started on, it
is left after so many operations, no more and no less; so a run ends if this is below the limit, and
is given up otherwise. As code that fits into words has fewer operations than the limit, it always
ends. -/
theorem ends_after_duration {source : String} {fragments : List Fragment}
    (h : compile source = .ok fragments)
    (hfits : (Code.operations (instructions fragments)).length ≤ 65535)
    (hlabels : Declarable (declaredLabels fragments))
    (hjumps : ∀ fragment ∈ fragments, fragment.command.target? = none) :
    (∀ fragment ∈ fragments,
        (∃ operator, fragment.command = .arithmetic (.comparison operator))
            ∧ fragment.size = 17 ∧ fragment.cost = 12
          ∨ (∀ operator, fragment.command ≠ .arithmetic (.comparison operator))
            ∧ fragment.cost = fragment.size)
      ∧ ∃ program, Program.load (instructions fragments) = .ok program
        ∧ ∀ memory, RunsThrough program fragments memory
          ∧ ∃ report, Machine.runOn program memory = .ok report := by
  have hcompiled := isCompiled_of_compile h
  obtain ⟨program, hprogram, hload⟩ :=
    Program.exists_load_of_declarable (hcompiled.declarable_labels hlabels)
  have htargets : ∀ fragment ∈ fragments, ∀ name, fragment.command.target? = some name →
      name ∈ declaredLabels fragments := by
    intro fragment hmem name htarget
    rw [hjumps fragment hmem] at htarget
    cases htarget
  refine ⟨fun fragment hmem => ?_, program, hprogram, fun memory => ?_⟩
  · unfold Fragment.cost
    split
    · rename_i operator hcommand
      exact Or.inl ⟨⟨operator, hcommand⟩, hcompiled.size_of_comparison hmem hcommand, rfl⟩
    · rename_i hother
      exact Or.inr ⟨hother, rfl⟩
  · have hruns := runsThrough_of_isRunnable ⟨hcompiled, hfits, hlabels, htargets⟩ hload hjumps memory
    have hlimit : duration fragments < stepLimit := by
      have hle := hcompiled.duration_le
      have hstep : stepLimit = 100000 := rfl
      omega
    exact ⟨hruns, hruns.report.2 hlimit⟩

/-- A source with a comparison: 24 of the 29 operations are executed, on every memory. -/
theorem ends_after_duration_comparison :
    ∃ fragments program,
      compile "push constant 1\npush constant 2\nlt\nlabel A" = .ok fragments
        ∧ Program.load (instructions fragments) = .ok program
        ∧ program.code.size = 29
        ∧ ∀ memory,
          Processor.run program 24 (Processor.start memory) = .error .stepLimit
            ∧ ∃ s, Processor.run program 25 (Processor.start memory) = .ok s := by
  have h : compile "push constant 1\npush constant 2\nlt\nlabel A" = .ok
      [⟨1, .push (.cell .constant 1), [.loadConstant 1, .store .toD (.input .a)] ++ Code.pushD⟩,
        ⟨2, .push (.cell .constant 2), [.loadConstant 2, .store .toD (.input .a)] ++ Code.pushD⟩,
        ⟨3, .arithmetic (.comparison .lt), Code.comparison .lt 3⟩,
        ⟨4, .label "A", [.label "A"]⟩] := by
    rw [compile_eq_yields]
    rfl
  obtain ⟨-, program, hprogram, hruns⟩ :=
    ends_after_duration h (by decide) ⟨by decide, by decide⟩ (by simp [Command.target?])
  refine ⟨_, program, h, hprogram, (Program.loadedFrom_of_load hprogram).size, fun memory => ?_⟩
  obtain ⟨s, -, -, hrun⟩ := (hruns memory).1.ends
  exact ⟨hrun 24, s, hrun 25⟩

end Source

end HackStack
