import HackStack.Machine.Run
import HackStack.Proofs.ControlFlow
import HackStack.Proofs.Encodable

set_option autoImplicit false

/-! # Code does not depend on line numbers

A line number gets into the code of a comparison, as part of its labels, and nowhere else
(`Command.code?_relabel`). Programs cannot use such labels, so what a label stands for does not
depend on the lines either, and two sources with the same commands run alike, whatever lines the
commands are on (`Source.runCode_eq_of_commands`).
-/

namespace HackStack

/-! ## Renaming labels -/

/-- The name that a label of a line gets on another line. Other names are kept. -/
def LabelStem.renumber (old new : Nat) (name : String) : String :=
  match all.find? fun stem => stem.label old == name with
  | some stem => stem.label new
  | none => name

def Operation.mapName (f : String → String) : Operation → Operation
  | .symbol name => .symbol (f name)
  | op => op

def Instruction.mapName (f : String → String) : Instruction → Instruction
  | .operation op => .operation (op.mapName f)
  | .label name => .label (f name)

/-- The code with the labels of a line renamed to those of another line. -/
def Code.relabel (old new : Nat) (code : List Instruction) : List Instruction :=
  code.map (Instruction.mapName (LabelStem.renumber old new))

namespace LabelStem

variable {old new : Nat} {name other : String}

theorem renumber_label (stem : LabelStem) (old new : Nat) :
    renumber old new (stem.label old) = stem.label new := by
  unfold renumber
  split
  · rename_i found hfound
    have hlabel := List.find?_some hfound
    rw [(label_injective (beq_iff_eq.1 hlabel)).1]
  · rename_i hnone
    exact absurd (beq_self_eq_true _) (List.find?_eq_none.1 hnone stem (mem_all stem))

theorem renumber_of_not_reserved (h : Symbol.isReserved name = false) :
    renumber old new name = name := by
  have hnone : all.find? (fun stem => stem.label old == name) = none := by
    rw [List.find?_eq_none]
    rintro stem - heq
    rw [← beq_iff_eq.1 heq, Symbol.isReserved_label] at h
    cases h
  rw [renumber, hnone]

/-- A label is renamed to a label of the same form. -/
theorem isReserved_renumber (h : Symbol.isReserved name = true) :
    Symbol.isReserved (renumber old new name) = true := by
  unfold renumber
  split
  · exact Symbol.isReserved_label _ new
  · exact h

theorem renumber_eq_iff (h : Symbol.isReserved name = false) :
    renumber old new other = name ↔ other = name := by
  cases hother : Symbol.isReserved other with
  | false => rw [renumber_of_not_reserved hother]
  | true =>
      have hrenamed : Symbol.isReserved (renumber old new other) = true :=
        isReserved_renumber hother
      constructor
      · rintro rfl
        rw [hrenamed] at h
        cases h
      · rintro rfl
        rw [hother] at h
        cases h

end LabelStem

namespace Code

variable {old new : Nat} {code more : List Instruction}

theorem operations_relabel (old new : Nat) (code : List Instruction) :
    operations (relabel old new code)
      = (operations code).map (Operation.mapName (LabelStem.renumber old new)) := by
  rw [operations, relabel, List.filterMap_map, operations, List.map_filterMap]
  apply List.filterMap_congr
  intro instruction _
  cases instruction with
  | operation op => rfl
  | label name => rfl

/-- Code in which no name is reserved has no label to rename. -/
theorem relabel_eq_self (h : ∀ name ∈ names code, Symbol.isReserved name = false) :
    relabel old new code = code := by
  have hkeep : ∀ instruction ∈ code,
      instruction.mapName (LabelStem.renumber old new) = instruction := by
    intro instruction hmem
    have hname : ∀ name, instruction.name? = some name →
        LabelStem.renumber old new name = name := by
      intro name hname
      exact LabelStem.renumber_of_not_reserved (h name (List.mem_filterMap.2 ⟨_, hmem, hname⟩))
    cases instruction with
    | label name => rw [Instruction.mapName, hname name rfl]
    | operation op =>
        cases op with
        | symbol name => rw [Instruction.mapName, Operation.mapName, hname name rfl]
        | constant value => rfl
        | compute dest comp jump => rfl
  exact (List.map_congr_left hkeep).trans (List.map_id' code)

/-- Renaming labels does not move the other ones. -/
theorem address?_relabel {name : String} (h : Symbol.isReserved name = false) (old new : Nat)
    (code : List Instruction) : address? name (relabel old new code) = address? name code := by
  induction code with
  | nil => rfl
  | cons instruction rest ih =>
      cases instruction with
      | operation op =>
          show (address? name (relabel old new rest)).map (· + 1) = _
          rw [ih, address?]
      | label other =>
          show (if LabelStem.renumber old new other = name then some 0
            else address? name (relabel old new rest)) = _
          rw [ih, address?]
          simp only [LabelStem.renumber_eq_iff h]

theorem relabel_comparison (operator : Comparison) (old new : Nat) :
    relabel old new (comparison operator old) = comparison operator new := by
  have hsp : LabelStem.renumber old new "SP" = "SP" :=
    LabelStem.renumber_of_not_reserved (by decide)
  simp only [comparison, setTop, relabel, Instruction.load, Instruction.store, Instruction.branch,
    List.map_cons, List.map_nil, List.map_append, Instruction.mapName, Operation.mapName, hsp,
    LabelStem.renumber_label]

end Code

namespace Command

variable {old new : Nat} {command : Command} {code : List Instruction} {name : String}

/-- The line gets into the code of a comparison only. -/
theorem code?_eq_of_not_comparison (h : ∀ operator, command ≠ .arithmetic (.comparison operator))
    (old new : Nat) : command.code? new = command.code? old := by
  cases command with
  | arithmetic operator =>
      cases operator with
      | comparison operator => exact absurd rfl (h operator)
      | _ => rfl
  | _ => rfl

/-- The names in code that is not that of a comparison are no labels of comparisons. -/
theorem isReserved_of_mem_names (h : command.code? old = some code)
    (hcomparison : ∀ operator, command ≠ .arithmetic (.comparison operator))
    (hown : ∀ name, command.name? = some name → isLabelName name = true)
    (hname : name ∈ Code.names code) : Symbol.isReserved name = false := by
  rcases names_code h hname with hregister | hgenerated | hused
  · exact Symbol.not_isReserved_of_isRegister hregister
  · unfold ownLabels at hgenerated
    split at hgenerated
    · rename_i operator
      exact absurd rfl (hcomparison operator)
    · cases hgenerated
  · exact Symbol.not_isReserved_of_isLabelName (hown name hused)

/-- **The code of a command on another line** has the labels of that line, and is the same apart
from them. -/
theorem code?_relabel (hown : ∀ name, command.name? = some name → isLabelName name = true)
    (old new : Nat) :
    command.code? new = (command.code? old).map (Code.relabel old new) := by
  by_cases hcomparison : ∃ operator, command = .arithmetic (.comparison operator)
  · obtain ⟨operator, rfl⟩ := hcomparison
    exact congrArg some (Code.relabel_comparison operator old new).symm
  · rw [not_exists] at hcomparison
    rw [code?_eq_of_not_comparison hcomparison old new]
    cases hcode : command.code? old with
    | none => rfl
    | some code =>
        have hnames : ∀ name ∈ Code.names code, Symbol.isReserved name = false :=
          fun name => isReserved_of_mem_names hcode hcomparison hown
        rw [Option.map_some, Code.relabel_eq_self hnames]

end Command

/-! ## Sources with the same commands -/

open Source Processor

/-- Two compiled sources with the same commands, each of them on lines of its own. -/
structure HaveSameCommands (fragments others : List Fragment) : Prop where
  left : IsCompiled fragments
  right : IsCompiled others
  commands : fragments.map Fragment.command = others.map Fragment.command

namespace HaveSameCommands

variable {fragments others : List Fragment} {program otherProgram : Program} {i : Nat}
  {fragment other : Fragment}

theorem length_eq (h : HaveSameCommands fragments others) : fragments.length = others.length := by
  have hlength := congrArg List.length h.commands
  rwa [List.length_map, List.length_map] at hlength

theorem declaredLabels_eq (h : HaveSameCommands fragments others) :
    declaredLabels fragments = declaredLabels others := by
  have hmap : ∀ list : List Fragment,
      declaredLabels list = (list.map Fragment.command).filterMap Command.declared? := by
    intro list
    rw [List.filterMap_map]
    rfl
  rw [hmap, hmap, h.commands]

/-- The code of a command in the other source. -/
theorem code_eq (h : HaveSameCommands fragments others) (hfragment : fragments[i]? = some fragment)
    (hother : others[i]? = some other) :
    other.command = fragment.command
      ∧ other.code = Code.relabel fragment.line other.line fragment.code := by
  have hcommand : other.command = fragment.command := by
    have hget := congrArg (·[i]?) h.commands
    simp only [List.getElem?_map, hfragment, hother, Option.map_some, Option.some.injEq] at hget
    exact hget.symm
  have hmem := List.mem_of_getElem? hfragment
  have hcode := h.right.code other (List.mem_of_getElem? hother)
  rw [hcommand, Command.code?_relabel (h.left.names fragment hmem) fragment.line,
    h.left.code fragment hmem, Option.map_some, Option.some.injEq] at hcode
  exact ⟨hcommand, hcode.symm⟩

theorem exists_other (h : HaveSameCommands fragments others)
    (hfragment : fragments[i]? = some fragment) : ∃ other, others[i]? = some other := by
  obtain ⟨hlt, -⟩ := List.getElem?_eq_some_iff.1 hfragment
  exact ⟨_, List.getElem?_eq_getElem (h.length_eq ▸ hlt)⟩

theorem eq_none (h : HaveSameCommands fragments others) (hfragment : fragments[i]? = none) :
    others[i]? = none := by
  rw [List.getElem?_eq_none_iff] at hfragment ⊢
  rwa [← h.length_eq]

/-- A command begins at the same address in both. -/
theorem address_eq (h : HaveSameCommands fragments others) (i : Nat) :
    address others i = address fragments i := by
  induction i with
  | zero => rfl
  | succ i ih =>
      cases hfragment : fragments[i]? with
      | none => rw [address_succ_of_none hfragment, address_succ_of_none (h.eq_none hfragment), ih]
      | some fragment =>
          obtain ⟨other, hother⟩ := h.exists_other hfragment
          have hsize : other.size = fragment.size := by
            rw [Fragment.size, Fragment.size, (h.code_eq hfragment hother).2,
              Code.operations_relabel, List.length_map]
          rw [address_succ hfragment, address_succ hother, ih, hsize]

/-- A name that is no label of a comparison is declared at the same place in both. -/
theorem address?_eq (h : HaveSameCommands fragments others) {name : String}
    (hname : Symbol.isReserved name = false) :
    Code.address? name (instructions others) = Code.address? name (instructions fragments) := by
  -- up to every command, from the first one on
  have htake : ∀ n, Code.address? name (instructions (others.take n))
      = Code.address? name (instructions (fragments.take n)) := by
    intro n
    induction n with
    | zero => rfl
    | succ n ih =>
        cases hfragment : fragments[n]? with
        | none =>
            rw [List.take_add_one, List.take_add_one, hfragment, h.eq_none hfragment,
              Option.toList_none, List.append_nil, List.append_nil, ih]
        | some fragment =>
            obtain ⟨other, hother⟩ := h.exists_other hfragment
            have hcode : Code.address? name (instructions [other])
                = Code.address? name (instructions [fragment]) := by
              simp only [instructions, List.flatMap_cons, List.flatMap_nil, List.append_nil]
              rw [(h.code_eq hfragment hother).2, Code.address?_relabel hname]
            have haddress := h.address_eq n
            rw [address, address] at haddress
            rw [List.take_add_one, List.take_add_one, hfragment, hother, Option.toList_some,
              Option.toList_some, instructions_append, instructions_append,
              Code.address?_append, Code.address?_append, ih, haddress, hcode]
  have hall := htake fragments.length
  rwa [List.take_length, h.length_eq, List.take_length] at hall

/-! ## Loading -/

/-- What one of the two programs fails to load with, the other one does too. -/
theorem load_eq_error (h : HaveSameCommands fragments others) {fault : Fault}
    (hfault : Program.load (instructions fragments) = .error fault) :
    Program.load (instructions others) = .error fault := by
  rw [load_eq_error_iff h.left, h.declaredLabels_eq] at hfault
  exact (load_eq_error_iff h.right).2 hfault

theorem exists_load (h : HaveSameCommands fragments others)
    (hload : LoadedFrom (instructions fragments) program) :
    ∃ otherProgram, Program.load (instructions others) = .ok otherProgram
      ∧ LoadedFrom (instructions others) otherProgram := by
  rcases Program.load_cases (instructions others) with hok | ⟨name, -, hclash⟩
  · exact hok
  · -- a clash would be one of labels that the program declares, and these are the same
    rw [h.right.firstClash_labels_iff, ← h.declaredLabels_eq,
      ← h.left.firstClash_labels_iff] at hclash
    exact absurd hload.declarable hclash.not_declarable

section Symbols

variable (hload : LoadedFrom (instructions fragments) program)
  (hload' : LoadedFrom (instructions others) otherProgram)

include hload hload'

theorem find?_eq (h : HaveSameCommands fragments others) {name : String}
    (hname : Symbol.isReserved name = false) :
    otherProgram.symbols.find? name = program.symbols.find? name := by
  rw [hload'.find?, hload.find?, h.address?_eq hname]

/-- A label of a comparison stands for the place that it has in the code of that comparison. -/
theorem find?_ownLabel (h : HaveSameCommands fragments others)
    (hfragment : fragments[i]? = some fragment) (hother : others[i]? = some other) {name : String}
    (hname : name ∈ fragment.command.ownLabels fragment.line) :
    ∃ value, program.symbols.find? name = some value
      ∧ otherProgram.symbols.find? (LabelStem.renumber fragment.line other.line name)
        = some value := by
  obtain ⟨operator, hcommand⟩ :
      ∃ operator, fragment.command = .arithmetic (.comparison operator) := by
    unfold Command.ownLabels at hname
    split at hname
    · rename_i operator hcommand
      exact ⟨operator, hcommand⟩
    · cases hname
  have hat : Code.ComparisonAt program (address fragments i) operator fragment.line := by
    have hcode := h.left.code fragment (List.mem_of_getElem? hfragment)
    have hinstalled := installed_fragment hload hfragment
    rw [hcommand] at hcode
    rw [← Option.some.inj hcode] at hinstalled
    exact Code.comparisonAt_of_installed hinstalled
  have hat' : Code.ComparisonAt otherProgram (address fragments i) operator other.line := by
    have hcode := h.right.code other (List.mem_of_getElem? hother)
    have hinstalled := installed_fragment hload' hother
    rw [(h.code_eq hfragment hother).1, hcommand] at hcode
    rw [← Option.some.inj hcode, h.address_eq] at hinstalled
    exact Code.comparisonAt_of_installed hinstalled
  rw [hcommand] at hname
  simp only [Command.ownLabels, Code.comparisonLabels, List.mem_cons, List.not_mem_nil,
    or_false] at hname
  rcases hname with rfl | rfl | rfl
  · exact ⟨_, hat.holds, by rw [LabelStem.renumber_label, hat'.holds]⟩
  · exact ⟨_, hat.fails, by rw [LabelStem.renumber_label, hat'.fails]⟩
  · exact ⟨_, hat.done, by rw [LabelStem.renumber_label, hat'.done]⟩

/-- A name in the code of a command stands for the same after renaming, and one that stands for
nothing is not renamed. -/
theorem find?_renumber (h : HaveSameCommands fragments others)
    (hfragment : fragments[i]? = some fragment) (hother : others[i]? = some other) {name : String}
    (hname : name ∈ Code.names fragment.code) :
    otherProgram.symbols.find? (LabelStem.renumber fragment.line other.line name)
        = program.symbols.find? name
      ∧ (program.symbols.find? name = none →
          LabelStem.renumber fragment.line other.line name = name) := by
  have hmem := List.mem_of_getElem? hfragment
  have hopen : Symbol.isReserved name = false →
      otherProgram.symbols.find? (LabelStem.renumber fragment.line other.line name)
          = program.symbols.find? name
        ∧ (program.symbols.find? name = none →
            LabelStem.renumber fragment.line other.line name = name) := by
    intro hreserved
    have hkeep : LabelStem.renumber fragment.line other.line name = name :=
      LabelStem.renumber_of_not_reserved hreserved
    exact ⟨by rw [hkeep, h.find?_eq hload hload' hreserved], fun _ => hkeep⟩
  rcases Command.names_code (h.left.code fragment hmem) hname with hregister | hown | hused
  · exact hopen (Symbol.not_isReserved_of_isRegister hregister)
  · obtain ⟨value, hvalue, hvalue'⟩ := h.find?_ownLabel hload hload' hfragment hother hown
    exact ⟨hvalue'.trans hvalue.symm, fun hnone => by rw [hvalue] at hnone; cases hnone⟩
  · exact hopen (Symbol.not_isReserved_of_isLabelName (h.left.names fragment hmem name hused))

/-! ## Running -/

/-- **One step.** The two programs take the same step from every state of the processor. -/
theorem step_eq (h : HaveSameCommands fragments others) (s : Processor) :
    s.step otherProgram = s.step program := by
  have hsize : otherProgram.code.size = program.code.size := by
    rw [hload'.size, hload.size, ← address_length, ← address_length, ← h.length_eq, h.address_eq]
  rcases Nat.lt_or_ge s.pc program.code.size with hlt | hge
  · rw [hload.size] at hlt
    obtain ⟨i, fragment, hfragment, hle, hlt⟩ := exists_fragment hlt
    obtain ⟨other, hother⟩ := h.exists_other hfragment
    obtain ⟨k, hk⟩ := Nat.exists_eq_add_of_le hle
    rw [hk] at hlt
    have hop : program.code[s.pc]? = (Code.operations fragment.code)[k]? := by
      rw [hk]
      exact IsLoadable.getElem?_code hload hfragment hlt
    have hop' : otherProgram.code[s.pc]?
        = (program.code[s.pc]?).map
            (Operation.mapName (LabelStem.renumber fragment.line other.line)) := by
      rw [← h.address_eq, ← h.address_eq] at hlt
      rw [hop, hk, ← h.address_eq, IsLoadable.getElem?_code hload' hother hlt,
        (h.code_eq hfragment hother).2, Code.operations_relabel, List.getElem?_map]
    rw [step, step, hop']
    cases hfetched : program.code[s.pc]? with
    | none => rfl
    | some op =>
        rw [Option.map_some, Option.map_some, Option.map_some]
        congr 1
        cases op with
        | constant value => rfl
        | compute dest comp jump => rfl
        | symbol name =>
            -- the name of the operation is one in the code of the command
            have hname : name ∈ Code.names fragment.code := by
              rw [hop] at hfetched
              obtain ⟨instruction, hmem, hinstruction⟩ :=
                List.mem_filterMap.1 (List.mem_of_getElem? hfetched)
              refine List.mem_filterMap.2 ⟨instruction, hmem, ?_⟩
              cases instruction with
              | label other => cases hinstruction
              | operation op =>
                  cases hinstruction
                  rfl
            obtain ⟨hfind, hkeep⟩ := h.find?_renumber hload hload' hfragment hother hname
            rw [Operation.mapName, execute, execute, hfind]
            cases hvalue : program.symbols.find? name with
            | none => simp only [hkeep hvalue]
            | some value => rfl
  · rw [step, step, Array.getElem?_eq_none hge, Array.getElem?_eq_none (hsize ▸ hge)]
    rfl

end Symbols

end HaveSameCommands

/-- **Runs do not depend on line numbers.** Sources with the same commands have the same outcome,
from every memory. -/
theorem Source.runCode_eq_of_commands {fragments others : List Fragment}
    (h : HaveSameCommands fragments others) (cells : List (Word × Word)) :
    Machine.runCode (instructions others) cells
      = Machine.runCode (instructions fragments) cells := by
  rcases Program.load_cases (instructions fragments) with ⟨program, hprogram, hload⟩ |
    ⟨name, hname, -⟩
  · obtain ⟨otherProgram, hother, hload'⟩ := h.exists_load hload
    rw [Machine.runCode_of_load hother, Machine.runCode_of_load hprogram]
    exact Machine.runOn_congr (h.step_eq hload hload') _
  · rw [Machine.runCode, Machine.runCode, hname, h.load_eq_error hname]

/-- Sources that compile to the same commands run alike. -/
theorem Source.runSource_eq_of_commands {source other : String} {fragments others : List Fragment}
    (h : compile source = .ok fragments) (h' : compile other = .ok others)
    (hcommands : fragments.map Fragment.command = others.map Fragment.command)
    (cells : List (Word × Word)) :
    Machine.runSource other cells = Machine.runSource source cells := by
  have hrun := runCode_eq_of_commands
    ⟨isCompiled_of_compile h, isCompiled_of_compile h', hcommands⟩ cells
  rw [Machine.runSource, Machine.runSource, code, code, h, h']
  exact congrArg Except.ok hrun

end HackStack
