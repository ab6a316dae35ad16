import HackStack.Proofs.Layout

set_option autoImplicit false

/-! # The code of one command

The processor executes the code of a command from its first operation on and arrives at the code of
the command that the stack machine executes next, with the memory that the stack machine then has
(`steps_command`). Code without jumps does so wherever it stands (`steps_straight`). The code of a
comparison needs addresses that fit into words (`steps_of_comparison`), and that of a jump needs a
target as well.

What is said about single commands is said about states in which the processor is about to execute
one of a loaded source (`AtFragment`).
-/

namespace HackStack

namespace Fragment

/-- The number of operations that are executed for a fragment; a comparison skips five of its
seventeen. -/
def cost (fragment : Fragment) : Nat :=
  match fragment.command with
  | .arithmetic (.comparison _) => 12
  | _ => fragment.size

end Fragment

open Source Processor StackMachine

theorem StackMachine.step_of_getElem? {view : View} {commands : List Command} {s : State}
    {command : Command} (h : commands[s.position]? = some command) :
    step view commands s =
      { position := goOn commands s.position (command.jump? s.memory (view command s.memory))
        memory := command.result s.memory (view command s.memory) } := by
  rw [step, h]

/-- A compiled source whose addresses fit into words, whose labels can be declared, and whose jumps
all have a target. -/
structure IsRunnable (fragments : List Fragment) : Prop where
  compiled : IsCompiled fragments
  fits : (Code.operations (instructions fragments)).length ≤ 65535
  labels : Declarable (declaredLabels fragments)
  targets : ∀ fragment ∈ fragments, ∀ name, fragment.command.target? = some name →
    name ∈ declaredLabels fragments

variable {fragments : List Fragment} {program : Program} {fragment : Fragment} {i : Nat}

/-! ## From one command to the next -/

/-- A label of the program stands for the address of the first command that declares it. -/
theorem find?_target (hcompiled : IsCompiled fragments)
    (hload : LoadedFrom (instructions fragments) program) {name : String}
    (h : name ∈ declaredLabels fragments) :
    program.symbols.find? name = some (BitVec.ofNat 16
      (address fragments ((fragments.map Fragment.command).idxOf (.label name)))) := by
  obtain ⟨declaring, hdeclaring, hcommand⟩ := exists_declaring h
  exact find?_declared hcompiled hload hdeclaring hcommand

/-- Code without jumps leads from the address of its command to that of the next one. -/
theorem steps_straight (hcompiled : IsCompiled fragments)
    (hload : LoadedFrom (instructions fragments) program) (h : fragments[i]? = some fragment)
    (hstraight : fragment.code.all Instruction.isStraight = true) {s : Processor}
    (hpc : s.pc = address fragments i) :
    ∃ t, Steps program fragment.size s t ∧ t.pc = address fragments (i + 1)
      ∧ t.memory = fragment.command.result s.memory (fragment.command.settled s.memory) := by
  have hinstalled : Installed program s.pc fragment.code := by
    rw [hpc]
    exact installed_fragment hload h
  have hcode := hcompiled.code fragment (List.mem_of_getElem? h)
  obtain ⟨t, hexecute, hmemory⟩ :=
    Code.executeAll_straight hload.knowsRegisters hcode hstraight s
  obtain ⟨hsteps, hend⟩ := steps_of_executeAll hinstalled hstraight hexecute
  refine ⟨t, hsteps, ?_, hmemory⟩
  calc t.pc = s.pc + (Code.operations fragment.code).length := hend
    _ = address fragments i + fragment.size := by rw [hpc, Fragment.size]
    _ = address fragments (i + 1) := (address_succ h).symm

/-- So does the code of a comparison, if the addresses of its labels are words. -/
theorem steps_of_comparison (hcompiled : IsCompiled fragments)
    (hload : LoadedFrom (instructions fragments) program)
    (hfits : (Code.operations (instructions fragments)).length ≤ 65535)
    (h : fragments[i]? = some fragment) {operator : Comparison}
    (hcommand : fragment.command = .arithmetic (.comparison operator)) {s : Processor}
    (hpc : s.pc = address fragments i) :
    ∃ t, Steps program 12 s t ∧ t.pc = address fragments (i + 1)
      ∧ t.memory = fragment.command.result s.memory (fragment.command.settled s.memory) := by
  have hinstalled : Installed program s.pc fragment.code := by
    rw [hpc]
    exact installed_fragment hload h
  have hcode := hcompiled.code fragment (List.mem_of_getElem? h)
  obtain ⟨line, command, code⟩ := fragment
  dsimp only at hcommand hcode hinstalled
  cases hcommand
  cases hcode
  have hnext : address fragments (i + 1) = s.pc + 17 := by
    rw [address_succ h, hpc]
    rfl
  have hfit : s.pc + 17 < 65536 := by
    have hle := address_le fragments (i + 1)
    omega
  obtain ⟨t, hsteps, hend, hmemory⟩ :=
    Code.steps_comparison hload.knowsRegisters hinstalled hfit
  exact ⟨t, hsteps, hend.trans hnext.symm, hmemory⟩

/-- **One command.** From the address of a command the processor gets to the address of the command
that the stack machine executes next, with the memory that it then has. -/
theorem steps_command (hunit : IsRunnable fragments)
    (hload : LoadedFrom (instructions fragments) program) (h : fragments[i]? = some fragment)
    {s : Processor} (hpc : s.pc = address fragments i) :
    ∃ t, Steps program fragment.cost s t
      ∧ t.pc = address fragments
          (step settled (fragments.map Fragment.command) ⟨i, s.memory⟩).position
      ∧ t.memory = (step settled (fragments.map Fragment.command) ⟨i, s.memory⟩).memory := by
  have hcommand : (fragments.map Fragment.command)[i]? = some fragment.command := by
    rw [List.getElem?_map, h, Option.map_some]
  have hcode := hunit.compiled.code fragment (List.mem_of_getElem? h)
  have hinstalled : Installed program s.pc fragment.code := by
    rw [hpc]
    exact installed_fragment hload h
  have htarget : ∀ name, fragment.command.target? = some name →
      program.symbols.find? name = some (BitVec.ofNat 16
        (address fragments ((fragments.map Fragment.command).idxOf (.label name)))) :=
    fun name hname => find?_target hunit.compiled hload
      (hunit.targets fragment (List.mem_of_getElem? h) name hname)
  have hnat : ∀ k, (BitVec.ofNat 16 (address fragments k)).toNat = address fragments k :=
    fun k => toNat_address hunit.fits (address_le fragments k)
  rw [step_of_getElem? hcommand]
  obtain ⟨line, command, code⟩ := fragment
  dsimp only at hcode hinstalled htarget ⊢
  cases command with
  | push operand => exact steps_straight hunit.compiled hload h (Code.straight_push hcode) hpc
  | pop operand => exact steps_straight hunit.compiled hload h (Code.straight_pop hcode) hpc
  | arithmetic operator =>
      cases operator with
      | unary operator =>
          cases hcode
          exact steps_straight hunit.compiled hload h rfl hpc
      | binary operator =>
          cases hcode
          exact steps_straight hunit.compiled hload h rfl hpc
      | comparison operator =>
          exact steps_of_comparison hunit.compiled hload hunit.fits h rfl hpc
  | label name =>
      cases hcode
      have hnext : address fragments (i + 1) = s.pc := by
        rw [address_succ h, hpc]
        rfl
      exact ⟨s, .refl s, hnext.symm, rfl⟩
  | goto name =>
      cases hcode
      exact ⟨_, Code.steps_jumpTo hinstalled (htarget name rfl), hnat _, rfl⟩
  | ifGoto name =>
      cases hcode
      -- the processor and the stack machine decide on the same word, the one below the old SP
      obtain ⟨t, hsteps, hmemory, hend⟩ :=
        Code.steps_ifGoto hload.knowsRegisters hinstalled (htarget name rfl)
      refine ⟨t, hsteps, ?_, hmemory⟩
      have hnext : address fragments (i + 1) = s.pc + 5 := by
        rw [address_succ h, hpc]
        rfl
      by_cases hpopped : s.memory.lowered.read (s.memory.sp - 1) = 0
      · have hjump : (Command.ifGoto name).jump? s.memory (settled (.ifGoto name) s.memory)
            = none := if_pos hpopped
        rw [hjump, hend, if_pos hpopped, goOn, hnext]
      · have hjump : (Command.ifGoto name).jump? s.memory (settled (.ifGoto name) s.memory)
            = some name := if_neg hpopped
        rw [hjump, hend, if_neg hpopped, hnat, goOn]
  | comment =>
      cases hcode
      exact absurd rfl (hunit.compiled.nonempty _ (List.mem_of_getElem? h))

/-! ## States before a command -/

/-- The processor is about to execute the code of a command of a source, in the program that the
source is loaded as. -/
structure AtFragment (source : String) (fragments : List Fragment) (program : Program) (i : Nat)
    (fragment : Fragment) (s : Processor) : Prop where
  compiles : compile source = .ok fragments
  loads : Program.load (instructions fragments) = .ok program
  getElem? : fragments[i]? = some fragment
  pc : s.pc = address fragments i

/-- A source that declares no labels can be loaded. -/
theorem Source.exists_load_of_compile {source : String} (h : compile source = .ok fragments)
    (hlabels : declaredLabels fragments = []) :
    ∃ program, Program.load (instructions fragments) = .ok program := by
  have hdeclarable : Declarable (declaredLabels fragments) := by
    rw [hlabels]
    exact declarable_nil
  obtain ⟨program, hprogram, -⟩ := Program.exists_load_of_declarable
    ((isCompiled_of_compile h).declarable_labels hdeclarable)
  exact ⟨program, hprogram⟩

namespace AtFragment

variable {source : String} {s : Processor} {operand : Operand}

theorem code (h : AtFragment source fragments program i fragment s) :
    fragment.command.code? fragment.line = some fragment.code :=
  (isCompiled_of_compile h.compiles).code fragment (List.mem_of_getElem? h.getElem?)

theorem steps_push (h : AtFragment source fragments program i fragment s)
    (hcommand : fragment.command = .push operand) :
    ∃ t, Steps program fragment.size s t ∧ t.pc = address fragments (i + 1)
      ∧ t.memory = (Command.push operand).result s.memory
          ((Command.push operand).settled s.memory) := by
  have hcode := h.code
  rw [hcommand] at hcode
  rw [← hcommand]
  exact steps_straight (isCompiled_of_compile h.compiles) (Program.loadedFrom_of_load h.loads)
    h.getElem? (Code.straight_push hcode) h.pc

theorem steps_pop (h : AtFragment source fragments program i fragment s)
    (hcommand : fragment.command = .pop operand) :
    ∃ t, Steps program fragment.size s t ∧ t.pc = address fragments (i + 1)
      ∧ t.memory = (Command.pop operand).result s.memory
          ((Command.pop operand).settled s.memory) := by
  have hcode := h.code
  rw [hcommand] at hcode
  rw [← hcommand]
  exact steps_straight (isCompiled_of_compile h.compiles) (Program.loadedFrom_of_load h.loads)
    h.getElem? (Code.straight_pop hcode) h.pc

theorem steps_comparison (h : AtFragment source fragments program i fragment s)
    (hfits : (Code.operations (instructions fragments)).length ≤ 65535)
    {operator : Comparison} (hcommand : fragment.command = .arithmetic (.comparison operator)) :
    ∃ t, Steps program 12 s t ∧ t.pc = address fragments (i + 1)
      ∧ t.memory = (Command.arithmetic (.comparison operator)).result s.memory
          ((Command.arithmetic (.comparison operator)).settled s.memory) := by
  rw [← hcommand]
  exact steps_of_comparison (isCompiled_of_compile h.compiles)
    (Program.loadedFrom_of_load h.loads) hfits h.getElem? hcommand h.pc

end AtFragment

end HackStack
