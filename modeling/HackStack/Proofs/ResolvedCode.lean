import HackStack.Machine.Run
import HackStack.Proofs.Execution

set_option autoImplicit false

/-! # Code without symbols

A symbol is looked up each time it is loaded. The look-up can as well be done once and for all:
without its labels, and with numbers in the place of the symbols that stand for one (`Code.resolve`),
code has the same operations at the same addresses, and each of them takes the same step
(`step_resolve`). So it has the same runs, on every memory (`Machine.resolve_keeps_runs`). A symbol
that stands for nothing is kept, as it only fails when it is loaded.
-/

namespace HackStack

open Processor

/-! ## Resolving symbols -/

/-- What a symbol stands for in code: a register, or the number of operations before the label. -/
def Code.value? (code : List Instruction) (name : String) : Option Word :=
  (SymbolTable.registers.lookup name).or ((address? name code).map (BitVec.ofNat 16))

/-- The operation with a number in the place of a symbol that stands for one. -/
def Operation.resolve (value? : String → Option Word) : Operation → Operation
  | .symbol name =>
      match value? name with
      | some value => .constant value
      | none => .symbol name
  | op => op

/-- The code without its labels, and without the symbols that stand for something. -/
def Code.resolve (code : List Instruction) : List Instruction :=
  (operations code).map fun op => .operation (op.resolve (value? code))

namespace Code

theorem operations_resolve (code : List Instruction) :
    operations (resolve code) = (operations code).map (Operation.resolve (value? code)) := by
  rw [operations, resolve, List.filterMap_map]
  exact congrFun List.filterMap_eq_map' _

theorem labels_resolve (code : List Instruction) : labels (resolve code) = [] := by
  rw [labels, resolve, List.filterMap_map]
  exact List.filterMap_none _

/-- A symbol that stands for nothing does so without the labels, too. -/
theorem value?_resolve_of_none {code : List Instruction} {name : String}
    (h : value? code name = none) : value? (resolve code) name = none := by
  have hnone : address? name (resolve code) = none := by
    rw [address?_eq_none_iff, labels_resolve]
    exact List.not_mem_nil
  rw [value?, Option.or_eq_none_iff] at h
  rw [value?, h.1, hnone]
  rfl

end Code

theorem LoadedFrom.find?_eq_value? {code : List Instruction} {program : Program}
    (h : LoadedFrom code program) (name : String) :
    program.symbols.find? name = Code.value? code name := h.find? name

/-! ## The same steps -/

section Step

variable {code : List Instruction} {program resolved : Program}

theorem execute_resolve (hload : LoadedFrom code program)
    (hresolved : LoadedFrom (Code.resolve code) resolved) (s : Processor) (op : Operation) :
    s.execute resolved.symbols (op.resolve (Code.value? code))
      = s.execute program.symbols op := by
  cases op with
  | constant value => rfl
  | compute dest comp jump => rfl
  | symbol name =>
      have hfind := hload.find?_eq_value? name
      cases hvalue : Code.value? code name with
      | some value =>
          rw [hvalue] at hfind
          simp only [Operation.resolve, hvalue, execute, hfind]
      | none =>
          -- the look-up fails in both programs, as resolving declares nothing
          have hfind' : resolved.symbols.find? name = none := by
            rw [hresolved.find?_eq_value?, Code.value?_resolve_of_none hvalue]
          rw [hvalue] at hfind
          simp only [Operation.resolve, hvalue, execute, hfind, hfind']

/-- **One step.** Code takes the same step with and without symbols. -/
theorem step_resolve (hload : LoadedFrom code program)
    (hresolved : LoadedFrom (Code.resolve code) resolved) (s : Processor) :
    s.step resolved = s.step program := by
  have hfetch : resolved.code[s.pc]?
      = (program.code[s.pc]?).map (Operation.resolve (Code.value? code)) := by
    rw [← Array.getElem?_toList, ← Array.getElem?_toList, hresolved.operations,
      hload.operations, Code.operations_resolve, List.getElem?_map]
  rw [step, step, hfetch, Option.map_map]
  congr 1
  funext op
  exact execute_resolve hload hresolved s op

/-- Code without labels can be loaded. -/
theorem exists_load_resolve (code : List Instruction) :
    ∃ resolved, Program.load (Code.resolve code) = .ok resolved
      ∧ LoadedFrom (Code.resolve code) resolved := by
  apply Program.exists_load_of_declarable
  rw [Code.labels_resolve]
  exact declarable_nil

end Step

/-! ## The same runs -/

/-- Only a run that is given up has this message: the other two begin with other letters. -/
theorem Fault.message_eq_iff {fault : Fault} :
    fault.message = "program did not terminate" ↔ fault = .stepLimit := by
  constructor
  · intro h
    have hhead : fault.message.toList.head? = some 'p' := by
      rw [h]
      rfl
    cases fault with
    | stepLimit => rfl
    | duplicateLabel name =>
        have hother : ("duplicate label (" ++ name ++ ")").toList.head? = some 'd' := by
          rw [String.toList_append, String.toList_append]
          rfl
        cases hother.symm.trans hhead
    | undefinedSymbol name =>
        have hother : ("undefined symbol " ++ name).toList.head? = some 'u' := by
          rw [String.toList_append]
          rfl
        cases hother.symm.trans hhead
  · rintro rfl
    rfl

namespace Machine

variable {code : List Instruction} {program : Program}

/-- Code that can be loaded fails as the run of the program does. -/
theorem runCode_eq_error_iff (h : Program.load code = .ok program) {cells : List (Word × Word)}
    {fault : Fault} :
    runCode code cells = .error fault ↔
      run program stepLimit (start (initialMemory.writeAll cells)) = .error fault := by
  rw [runCode_of_load h, runOn]
  cases run program stepLimit (start (initialMemory.writeAll cells)) with
  | ok s =>
      constructor
      · rintro ⟨⟩
      · rintro ⟨⟩
  | error other => simp only [Except.map, Except.error.injEq]

theorem runCode_resolve (h : Program.load code = .ok program) (cells : List (Word × Word)) :
    runCode (Code.resolve code) cells = runCode code cells := by
  obtain ⟨resolved, hresolved, hload⟩ := exists_load_resolve code
  have hstep : ∀ s : Processor, s.step resolved = s.step program :=
    step_resolve (Program.loadedFrom_of_load h) hload
  calc runCode (Code.resolve code) cells
      = runOn resolved (initialMemory.writeAll cells) := runCode_of_load hresolved cells
    _ = runOn program (initialMemory.writeAll cells) := runOn_congr hstep _
    _ = runCode code cells := (runCode_of_load h cells).symm

/-- **Symbols are numbers.** Code that can be loaded runs as it does without its labels and with
numbers for its symbols, whatever the cells hold: the same stack and changed cells, or the same
failure. It is given up exactly if as many operations as the limit says are executed, also where the
last of them leaves the program; and it fails with a symbol exactly if that one stands for nothing
and is the next to be loaded before that many operations are executed. -/
theorem resolve_keeps_runs (h : Program.load code = .ok program) (cells : List (Word × Word)) :
    runCode (Code.resolve code) cells = runCode code cells
      ∧ ((∃ fault, runCode code cells = .error fault
            ∧ fault.message = "program did not terminate") ↔
          ∃ s, Steps program 100000 (start (initialMemory.writeAll cells)) s)
      ∧ ∀ name, runCode code cells = .error (.undefinedSymbol name) ↔
          ∃ n s, n < 100000 ∧ Steps program n (start (initialMemory.writeAll cells)) s
            ∧ program.code[s.pc]? = some (.symbol name) ∧ Code.value? code name = none := by
  have hload := Program.loadedFrom_of_load h
  refine ⟨runCode_resolve h cells, ?_, fun name => ?_⟩
  · simp only [Fault.message_eq_iff, exists_eq_right]
    rw [runCode_eq_error_iff h, run_eq_stepLimit_iff]
    exact Iff.rfl
  · rw [runCode_eq_error_iff h, run_eq_undefinedSymbol_iff, hload.find?_eq_value? name]
    exact Iff.rfl

/-- A label at the end of the code, loaded before it is declared, and a symbol that is none. -/
theorem resolve_keeps_runs_undefined :
    ∃ program, Program.load [.load "END", .load "X", .label "END"] = .ok program
      ∧ Code.resolve [.load "END", .load "X", .label "END"] = [.loadConstant 2, .load "X"]
      ∧ ∀ cells, runCode [.loadConstant 2, .load "X"] cells = .error (.undefinedSymbol "X") := by
  obtain ⟨program, hprogram, hload⟩ := Program.exists_load_of_declarable
    (show Declarable (Code.labels [.load "END", .load "X", .label "END"]) from
      ⟨by decide, by decide⟩)
  have hresolve : Code.resolve [.load "END", .load "X", .label "END"]
      = [.loadConstant 2, .load "X"] := by decide
  refine ⟨program, hprogram, hresolve, fun cells => ?_⟩
  obtain ⟨hsame, -, hundefined⟩ := resolve_keeps_runs hprogram cells
  rw [← hresolve, hsame, hundefined "X"]
  have hfetch : ∀ n : Nat, program.code[n]? = [Operation.symbol "END", .symbol "X"][n]? := by
    intro n
    rw [← Array.getElem?_toList, hload.operations]
    rfl
  have hend : program.symbols.find? "END" = some 2 := by
    rw [hload.find?_eq_value?]
    decide
  have hfirst : (start (initialMemory.writeAll cells)).step program
      = some (.ok ⟨2, 0, 1, initialMemory.writeAll cells⟩) := by
    rw [step_of_fetch (hfetch 0), execute, hend]
    rfl
  exact ⟨1, _, by decide, .one hfirst, hfetch 1, by decide⟩

end Machine

end HackStack
