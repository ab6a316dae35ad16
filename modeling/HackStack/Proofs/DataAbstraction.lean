import HackStack.Proofs.ListMachine
import HackStack.Proofs.Simulation

set_option autoImplicit false

/-! # Compiled code and the list machine

A source that leaves the base registers alone runs like the machine with a list for a stack and
independent variables (`Source.abstracts_stack`): whatever memory holds at first besides the stack
pointer, the run ends with the list on the stack, the variables in their cells, and everything else
as it was.

That the stack does not run into the end of memory, or around it, follows from the limit on the
number of operations: a word on the stack has cost six of them (`Follows.height`).
-/

namespace HackStack

open Source Processor StackMachine

namespace Code

/-- Putting a word on the stack takes six operations or more. -/
theorem six_le_push {operand : Operand} {code : List Instruction} (h : push? operand = some code) :
    6 ≤ (operations code).length := by
  obtain ⟨fetched, hfetch, rfl⟩ := Option.map_eq_some_iff.1 h
  have hfetched : 2 ≤ (operations fetched).length := by
    cases operand with
    | pointer slot =>
        cases hfetch
        exact Nat.le_refl 2
    | cell segment index =>
        unfold fetch? at hfetch
        dsimp only at hfetch
        split at hfetch
        · cases hfetch
          exact Nat.le_refl 2
        · cases hfetch
          exact (by decide : 2 ≤ 5)
        · obtain ⟨address, -, rfl⟩ := Option.map_eq_some_iff.1 hfetch
          exact Nat.le_refl 2
  have hpush : (operations pushD).length = 4 := rfl
  rw [operations_append, List.length_append]
  omega

end Code

namespace ListMachine

variable {fragments : List Fragment} {actions : List Action} {memory : Memory} {s t : State}
  {n : Nat}

/-- Only a push makes the stack higher, and by one word. -/
theorem length_next? {action : Action} (h : next? actions s action = some t) :
    t.stack.length ≤ s.stack.length
      ∨ t.stack.length = s.stack.length + 1 ∧ ∃ operand, action.command = .push operand := by
  obtain ⟨position, stack, values⟩ := s
  cases action with
  | constant value =>
      cases h
      exact Or.inr ⟨rfl, _, rfl⟩
  | push v =>
      cases h
      exact Or.inr ⟨rfl, _, rfl⟩
  | pop v =>
      cases stack with
      | nil => cases h
      | cons x rest =>
          cases h
          exact Or.inl (Nat.le_succ _)
  | arithmetic operator =>
      obtain ⟨stack', happly, rfl⟩ := Option.map_eq_some_iff.1 h
      refine Or.inl ?_
      match operator, stack, happly with
      | .unary operator, x :: rest, rfl => exact Nat.le_refl _
      | .binary operator, y :: x :: rest, rfl => exact Nat.le_succ _
      | .comparison operator, y :: x :: rest, rfl => exact Nat.le_succ _
  | ifGoto name =>
      cases stack with
      | nil => cases h
      | cons x rest =>
          cases h
          exact Or.inl (Nat.le_succ _)
  | label name =>
      cases h
      exact Or.inl (Nat.le_refl _)
  | goto name =>
      cases h
      exact Or.inl (Nat.le_refl _)

/-- The stack machine, after so many commands on a memory, is where the list machine is. -/
structure Follows (fragments : List Fragment) (actions : List Action) (memory : Memory) (n : Nat)
    (s : State) : Prop where
  position : (machineAfter fragments memory n).position = s.position
  represents : Represents (machineAfter fragments memory n).memory s.stack s.values
  /-- a word on the stack has taken six operations -/
  height : 6 * s.stack.length ≤ clock fragments memory n
  /-- a cell that has been free all the time is as before the run -/
  unchanged : ∀ address,
    (∀ k ≤ n, ∀ u, run? actions (start memory) k = some u → IsFree u.stack.length address) →
      (machineAfter fragments memory n).memory.read address = memory.read address

theorem follows_start (hsp : memory.sp = Machine.stackBase) :
    Follows fragments actions memory 0 (start memory) where
  position := rfl
  represents := ⟨hsp, (by decide : 256 + 0 < 65536), trivial, fun _ => rfl⟩
  height := Nat.le_refl 0
  unchanged _ _ := rfl

theorem clock_le_succ (fragments : List Fragment) (memory : Memory) (n : Nat) :
    clock fragments memory n ≤ clock fragments memory (n + 1) := by
  rw [clock]
  split
  · exact Nat.le_add_right _ _
  · exact Nat.le_refl _

namespace Follows

variable {action : Action}

theorem getElem?_command (h : Follows fragments actions memory n s)
    (hactions : fragments.map Fragment.command = actions.map Action.command) :
    (fragments.map Fragment.command)[(machineAfter fragments memory n).position]?
      = (actions[s.position]?).map Action.command := by
  rw [h.position, hactions, List.getElem?_map]

theorem machineAfter_succ_of_past (h : Follows fragments actions memory n s)
    (hactions : fragments.map Fragment.command = actions.map Action.command)
    (hpast : actions[s.position]? = none) :
    machineAfter fragments memory (n + 1) = machineAfter fragments memory n := by
  have hcommand := h.getElem?_command hactions
  rw [hpast, Option.map_none] at hcommand
  show StackMachine.step settled _ (machineAfter fragments memory n) = _
  rw [StackMachine.step, hcommand]

/-- The words that a command takes off the stack can be read before or after SP is moved. -/
theorem machineAfter_succ (h : Follows fragments actions memory n s)
    (hactions : fragments.map Fragment.command = actions.map Action.command)
    (haction : actions[s.position]? = some action) :
    machineAfter fragments memory (n + 1) =
      { position := goOn (actions.map Action.command) s.position
          (action.command.jump? (machineAfter fragments memory n).memory
            (machineAfter fragments memory n).memory)
        memory := action.command.result (machineAfter fragments memory n).memory
          (machineAfter fragments memory n).memory } := by
  have hcommand := h.getElem?_command hactions
  rw [haction, Option.map_some] at hcommand
  have hundisturbed : ∀ command,
      (fragments.map Fragment.command)[(machineAfter fragments memory n).position]?
        = some command →
      command.IsUndisturbed (machineAfter fragments memory n).memory := by
    intro command hfound
    rw [hcommand] at hfound
    cases hfound
    exact h.represents.isUndisturbed action
  calc machineAfter fragments memory (n + 1)
      = StackMachine.step settled (fragments.map Fragment.command)
          (machineAfter fragments memory n) := rfl
    _ = StackMachine.step before (fragments.map Fragment.command)
          (machineAfter fragments memory n) := step_settled_eq hundisturbed
    _ = _ := by
          rw [step_of_getElem? hcommand, hactions, h.position]
          rfl

theorem height_succ (h : Follows fragments actions memory n s) (hcompiled : IsCompiled fragments)
    (hactions : fragments.map Fragment.command = actions.map Action.command)
    (haction : actions[s.position]? = some action) (hnext : next? actions s action = some t) :
    6 * t.stack.length ≤ clock fragments memory (n + 1) := by
  obtain ⟨fragment, hfragment, hcommand⟩ :
      ∃ fragment, fragments[(machineAfter fragments memory n).position]? = some fragment
        ∧ fragment.command = action.command := by
    have hfound := h.getElem?_command hactions
    rwa [haction, Option.map_some, List.getElem?_map, Option.map_eq_some_iff] at hfound
  have hbefore := h.height
  rw [clock_succ hfragment]
  rcases length_next? hnext with hle | ⟨hraised, operand, hpush⟩
  · omega
  · -- the command has made the stack higher, so it is a push and all of its code is executed
    have hcode := hcompiled.code fragment (List.mem_of_getElem? hfragment)
    rw [hcommand, hpush] at hcode
    have hcost : fragment.cost = fragment.size := by rw [Fragment.cost, hcommand, hpush]
    have hsize : 6 ≤ fragment.size := Code.six_le_push hcode
    omega

/-- **One command** of a run. -/
theorem step (h : Follows fragments actions memory n s) (hcompiled : IsCompiled fragments)
    (hactions : fragments.map Fragment.command = actions.map Action.command)
    (hrun : run? actions (start memory) n = some s) (hstep : step? actions s = some t)
    (hclock : clock fragments memory (n + 1) < stepLimit) :
    Follows fragments actions memory (n + 1) t := by
  have hrun' : run? actions (start memory) (n + 1) = some t := by
    rw [run?, hrun, Option.bind_some, hstep]
  cases haction : actions[s.position]? with
  | none =>
      rw [step?, haction, Option.some.injEq] at hstep
      have hstay := h.machineAfter_succ_of_past hactions haction
      subst hstep
      refine ⟨?_, ?_, Nat.le_trans h.height (clock_le_succ _ _ _), fun address hfree => ?_⟩
      · rw [hstay, h.position]
      · rw [hstay]
        exact h.represents
      · rw [hstay]
        exact h.unchanged address fun k hk => hfree k (Nat.le_succ_of_le hk)
  | some action =>
      rw [step?, haction] at hstep
      have hnext := h.machineAfter_succ hactions haction
      have hheight := h.height_succ hcompiled hactions haction hstep
      have hfits : 256 + t.stack.length < 65536 := by
        have hlimit : stepLimit = 100000 := rfl
        omega
      refine ⟨?_, ?_, hheight, fun address hfree => ?_⟩
      · rw [hnext]
        exact h.represents.position_next hstep
      · rw [hnext]
        exact h.represents.next hstep hfits
      · rw [hnext]
        have hbefore := hfree n (Nat.le_succ n) s hrun
        have hafter := hfree (n + 1) (Nat.le_refl _) t hrun'
        exact (h.represents.read_next hstep hbefore hafter).trans
          (h.unchanged address fun k hk => hfree k (Nat.le_succ_of_le hk))

end Follows

/-- **A run**, as long as it stays within the limit. -/
theorem follows_run (hcompiled : IsCompiled fragments)
    (hactions : fragments.map Fragment.command = actions.map Action.command)
    (hsp : memory.sp = Machine.stackBase) (hrun : run? actions (start memory) n = some s)
    (hclock : clock fragments memory n < stepLimit) :
    Follows fragments actions memory n s := by
  induction n generalizing s with
  | zero =>
      cases hrun
      exact follows_start hsp
  | succ n ih =>
      obtain ⟨u, hu, hstep⟩ := Option.bind_eq_some_iff.1 hrun
      have hearlier := Nat.lt_of_le_of_lt (clock_le_succ fragments memory n) hclock
      exact (ih hu hearlier).step hcompiled hactions hu hstep hclock

/-- The report of a run that ends with a stack in memory. -/
theorem Represents.runOn_eq {program : Program} {final : Processor} {stack : List Word}
    {values : Variable → Word} (h : Represents final.memory stack values)
    (hheight : stack.length ≤ 32511)
    (hrun : Processor.run program stepLimit (Processor.start memory) = .ok final) :
    Machine.runOn program memory =
      .ok ⟨BitVec.ofNat 16 (256 + stack.length), some stack.reverse,
        final.memory.changedSince memory⟩ := by
  have hsp := h.toNat_sp
  have hbase : Machine.stackBase.toNat = 256 := rfl
  have hsigned : ¬ final.memory.sp.toInt < Machine.stackBase.toInt := by
    rw [BitVec.toInt_eq_toNat_of_lt (by omega), BitVec.toInt_eq_toNat_of_lt (by decide), hsp, hbase]
    omega
  have hstack : Machine.stackOf final.memory = some stack.reverse := by
    show (if final.memory.sp.toInt < Machine.stackBase.toInt then none else some _) = _
    rw [if_neg hsigned, ← h.words.map_read]
    show some ((List.range (final.memory.sp.toNat - Machine.stackBase.toNat)).map _) = _
    rw [hsp, hbase, Nat.add_sub_cancel_left]
  rw [Machine.runOn, hrun]
  show Except.ok (Machine.Report.mk final.memory.sp (Machine.stackOf final.memory) _) = _
  rw [hstack, h.sp]

end ListMachine

/-! ## The main result -/

/-- A run of a program on a memory ends as the list machine does after so many commands. -/
structure EndsLike (program : Program) (actions : List ListMachine.Action) (memory : Memory)
    (n : Nat) (final : ListMachine.State) (t : Processor) : Prop where
  past : program.code.size ≤ t.pc
  run : Processor.run program stepLimit (Processor.start memory) = .ok t
  fits : 256 + final.stack.length < 32768
  /-- SP points above the stack, which is reported from the bottom up -/
  report : Machine.runOn program memory =
    .ok ⟨BitVec.ofNat 16 (256 + final.stack.length), some final.stack.reverse,
      t.memory.changedSince memory⟩
  values : ∀ v : Variable, t.memory.read v.address = final.values v
  /-- a cell keeps its content if it is neither SP nor a variable and the stack never covers it -/
  unchanged : ∀ address,
    (∀ k ≤ n, ∀ s, ListMachine.run? actions (ListMachine.start memory) k = some s →
      ListMachine.IsFree s.stack.length address) →
      t.memory.read address = memory.read address

namespace Source

open ListMachine

/-- **Data abstraction.** Let a source consist of commands of the list machine, let its code fit
into words, its labels be distinct and no names of registers, and its jumps have a target. If the
list machine passes the last command, on the values that a memory with an empty stack has in the
variables, then the program executes a certain number of operations on that memory. If the number
is below the limit, the run ends, and its outcome is that of the list machine; otherwise the run is
given up. -/
theorem abstracts_stack {source : String} {fragments : List Fragment} {actions : List Action}
    (h : compile source = .ok fragments)
    (hfits : (Code.operations (instructions fragments)).length ≤ 65535)
    (hlabels : Declarable (declaredLabels fragments))
    (htargets : ∀ fragment ∈ fragments, ∀ name, fragment.command.target? = some name →
      name ∈ declaredLabels fragments)
    (hactions : fragments.map Fragment.command = actions.map Action.command) :
    ∃ program, Program.load (instructions fragments) = .ok program
      ∧ ∀ memory : Memory, memory.read 0 = 256 → ∀ n final,
        run? actions (ListMachine.start memory) n = some final →
          final.position = actions.length →
            ∃ t, Steps program (clock fragments memory n) (Processor.start memory) t
              ∧ (clock fragments memory n < stepLimit →
                  EndsLike program actions memory n final t)
              ∧ (stepLimit ≤ clock fragments memory n →
                  Machine.runOn program memory = .error .stepLimit) := by
  have hcompiled := isCompiled_of_compile h
  obtain ⟨program, hprogram, hload⟩ :=
    Program.exists_load_of_declarable (hcompiled.declarable_labels hlabels)
  have hunit : IsRunnable fragments := ⟨hcompiled, hfits, hlabels, htargets⟩
  refine ⟨program, hprogram, fun memory hsp n final hrun hposition => ?_⟩
  obtain ⟨t, hsteps, hpc, hmemory⟩ := steps_after hunit hload memory n
  refine ⟨t, hsteps, fun hclock => ?_, fun hlate => ?_⟩
  · -- the list machine is past its last command, so the processor is past the end of the code
    have hfollows := follows_run hcompiled hactions hsp hrun hclock
    have hlength : actions.length = fragments.length := by
      rw [← List.length_map (f := Action.command), ← hactions, List.length_map]
    have hend : t.pc = program.code.size := by
      rw [hpc, hfollows.position, hposition, hlength, address_length, hload.size]
    have hpast : program.code.size ≤ t.pc := Nat.le_of_eq hend.symm
    have hok : Processor.run program stepLimit (Processor.start memory) = .ok t :=
      run_eq_ok hsteps hpast hclock
    have hheight : 6 * final.stack.length < 100000 := Nat.lt_of_le_of_lt hfollows.height hclock
    have hrepresents := hfollows.represents
    rw [← hmemory] at hrepresents
    refine ⟨hpast, hok, by omega, hrepresents.runOn_eq (by omega) hok, hrepresents.values,
      fun address hfree => ?_⟩
    rw [hmemory]
    exact hfollows.unchanged address hfree
  · rw [Machine.runOn, run_eq_stepLimit hsteps hlate]
    rfl

/-- A program with a jump over a command. It ends on every memory with an empty stack, and does not
touch the cells that it does not name. -/
theorem abstracts_stack_goto :
    ∃ fragments program,
      compile "push constant 7\npop temp 2\ngoto A\nnot\nlabel A\npush temp 2\nneg" = .ok fragments
        ∧ Program.load (instructions fragments) = .ok program
        ∧ ∀ memory : Memory, memory.read 0 = 256 →
          ∃ t, Processor.run program stepLimit (Processor.start memory) = .ok t
            ∧ Machine.runOn program memory
              = .ok ⟨257, some [-7], t.memory.changedSince memory⟩
            ∧ t.memory.read 7 = 7 ∧ t.memory.read 8 = memory.read 8
            ∧ t.memory.read 1 = memory.read 1 := by
  have h : compile "push constant 7\npop temp 2\ngoto A\nnot\nlabel A\npush temp 2\nneg" = .ok
      [⟨1, .push (.cell .constant 7), [.loadConstant 7, .store .toD (.input .a)] ++ Code.pushD⟩,
        ⟨2, .pop (.cell .temp 2), Code.popD ++ [.loadConstant 7, .store .toM .d]⟩,
        ⟨3, .goto "A", Code.jumpTo "A"⟩,
        ⟨4, .arithmetic (.unary .not), Code.unary .not⟩,
        ⟨5, .label "A", [.label "A"]⟩,
        ⟨6, .push (.cell .temp 2), [.loadConstant 7, .store .toD (.input .m)] ++ Code.pushD⟩,
        ⟨7, .arithmetic (.unary .neg), Code.unary .neg⟩] := by
    rw [compile_eq_yields]
    rfl
  obtain ⟨program, hprogram, hrun⟩ := abstracts_stack h (by decide) ⟨by decide, by decide⟩
    (by simp [Command.target?, declaredLabels, Command.declared?])
    (show _ = List.map Action.command [.constant 7, .pop (.temp 2), .goto "A",
      .arithmetic (.unary .not), .label "A", .push (.temp 2), .arithmetic (.unary .neg)] from rfl)
  refine ⟨_, program, h, hprogram, fun memory hsp => ?_⟩
  obtain ⟨t, -, hends, -⟩ := hrun memory hsp 6
    ⟨7, [-7], Function.update (ListMachine.start memory).values (.temp 2) 7⟩ rfl rfl
  have hend := hends (show 22 < 100000 by decide)
  exact ⟨t, hend.run, hend.report, hend.values (.temp 2), hend.values (.temp 3),
    hend.unchanged 1 fun k _ s _ => isFree_iff.2 (Or.inl rfl)⟩

end Source

end HackStack
