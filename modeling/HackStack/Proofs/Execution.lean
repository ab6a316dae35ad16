import HackStack.Machine.Processor
import HackStack.Proofs.Loading

set_option autoImplicit false

/-! # Execution of loaded code

Counted runs of the processor (`Processor.Steps`) and how a run with a limit ends
(`run_of_steps`, `run_eq_ok`, `run_eq_error_iff`). Code is found in a program
where its operations are fetched and its labels resolve to the place where they stand
(`Installed`); code without jumps is then executed from its first operation to its last
(`steps_of_executeAll`).
-/

namespace HackStack

namespace Processor

variable {program : Program}

/-! ## Steps -/

theorem step_of_fetch {s : Processor} {op : Operation} (h : program.code[s.pc]? = some op) :
    s.step program = some (s.execute program.symbols op) := by
  rw [step, h, Option.map_some]

/-- Nothing fails but the load of a symbol that stands for nothing. -/
theorem step_eq_error_iff {s : Processor} {fault : Fault} :
    s.step program = some (.error fault) ↔
      ∃ name, program.code[s.pc]? = some (.symbol name) ∧ program.symbols.find? name = none
        ∧ fault = .undefinedSymbol name := by
  constructor
  · intro h
    rw [step, Option.map_eq_some_iff] at h
    obtain ⟨op, hop, hexecute⟩ := h
    cases op with
    | constant value => cases hexecute
    | symbol name =>
        simp only [execute] at hexecute
        split at hexecute
        · cases hexecute
        · rename_i hnone
          cases hexecute
          exact ⟨name, hop, hnone, rfl⟩
    | compute dest comp jump => cases hexecute
  · rintro ⟨name, hop, hnone, rfl⟩
    rw [step_of_fetch hop, execute, hnone]

/-! ## Counted runs -/

/-- The processor executes so many operations of the program, and none of them fails. -/
inductive Steps (program : Program) : Nat → Processor → Processor → Prop
  | refl (s : Processor) : Steps program 0 s s
  | head {n : Nat} {s t u : Processor} (hstep : s.step program = some (.ok t))
      (hrest : Steps program n t u) : Steps program (n + 1) s u

namespace Steps

variable {n k : Nat} {s t u : Processor}

theorem one (h : s.step program = some (.ok t)) : Steps program 1 s t := .head h (.refl t)

theorem trans (h : Steps program n s t) (h' : Steps program k t u) :
    Steps program (n + k) s u := by
  induction h with
  | refl s => simpa using h'
  | head hstep _ ih =>
      have hrest := ih h'
      rw [Nat.add_right_comm]
      exact .head hstep hrest

theorem tail (h : Steps program n s t) (hstep : t.step program = some (.ok u)) :
    Steps program (n + 1) s u := h.trans (one hstep)

/-- A run passes through a state after every smaller number of operations. -/
theorem split (h : Steps program (n + k) s u) :
    ∃ t, Steps program n s t ∧ Steps program k t u := by
  induction n generalizing s with
  | zero =>
      rw [Nat.zero_add] at h
      exact ⟨s, .refl s, h⟩
  | succ n ih =>
      rw [Nat.add_right_comm] at h
      cases h with
      | head hstep hrest =>
          obtain ⟨t, ht, hu⟩ := ih hrest
          exact ⟨t, .head hstep ht, hu⟩

end Steps

/-! ## Runs with a limit -/

theorem run_of_steps {n : Nat} {s t : Processor} (h : Steps program n s t) (limit : Nat) :
    run program (n + limit) s = run program limit t := by
  induction h with
  | refl s => rw [Nat.zero_add]
  | head hstep _ ih =>
      rw [Nat.add_right_comm, run, hstep]
      exact ih

/-- A run that ends within the limit ends normally. -/
theorem run_eq_ok {n limit : Nat} {s t : Processor} (h : Steps program n s t)
    (hend : program.code.size ≤ t.pc) (hlimit : n < limit) : run program limit s = .ok t := by
  obtain ⟨k, rfl⟩ : ∃ k, limit = n + (k + 1) := ⟨limit - n - 1, by omega⟩
  have hnone : t.step program = none := by
    rw [step, Array.getElem?_eq_none hend, Option.map_none]
  rw [run_of_steps h, run, hnone]

theorem run_eq_stepLimit {n limit : Nat} {s t : Processor} (h : Steps program n s t)
    (hlimit : limit ≤ n) : run program limit s = .error .stepLimit := by
  obtain ⟨k, rfl⟩ : ∃ k, n = limit + k := ⟨n - limit, by omega⟩
  obtain ⟨u, hu, -⟩ := h.split
  have hrun := run_of_steps hu 0
  rwa [Nat.add_zero] at hrun

theorem run_eq_error {n limit : Nat} {s t : Processor} {fault : Fault}
    (h : Steps program n s t) (hfault : t.step program = some (.error fault))
    (hlimit : n < limit) : run program limit s = .error fault := by
  obtain ⟨k, rfl⟩ : ∃ k, limit = n + (k + 1) := ⟨limit - n - 1, by omega⟩
  rw [run_of_steps h, run, hfault]

/-- There are no other ends than these three. -/
theorem run_cases (program : Program) (limit : Nat) (s : Processor) :
    (∃ n t, Steps program n s t ∧ n < limit ∧ program.code.size ≤ t.pc)
      ∨ (∃ t, Steps program limit s t)
      ∨ ∃ n t fault, Steps program n s t ∧ n < limit
          ∧ t.step program = some (.error fault) := by
  induction limit generalizing s with
  | zero => exact Or.inr (Or.inl ⟨s, .refl s⟩)
  | succ limit ih =>
      cases hstep : s.step program with
      | none =>
          refine Or.inl ⟨0, s, .refl s, Nat.succ_pos limit, ?_⟩
          rw [step, Option.map_eq_none_iff] at hstep
          exact Array.getElem?_eq_none_iff.1 hstep
      | some result =>
          cases result with
          | error fault =>
              exact Or.inr (Or.inr ⟨0, s, fault, .refl s, Nat.succ_pos limit, hstep⟩)
          | ok t =>
              rcases ih t with ⟨n, u, hu, hn, hend⟩ | ⟨u, hu⟩ | ⟨n, u, fault, hu, hn, hfault⟩
              · exact Or.inl ⟨n + 1, u, .head hstep hu, by omega, hend⟩
              · exact Or.inr (Or.inl ⟨u, .head hstep hu⟩)
              · exact Or.inr (Or.inr ⟨n + 1, u, fault, .head hstep hu, by omega, hfault⟩)

/-- So a run fails if it reaches the limit, or with what fails before. -/
theorem run_eq_error_iff {limit : Nat} {s : Processor} {fault : Fault} :
    run program limit s = .error fault ↔
      (fault = .stepLimit ∧ ∃ t, Steps program limit s t)
      ∨ ∃ n t, n < limit ∧ Steps program n s t ∧ t.step program = some (.error fault) := by
  constructor
  · intro hrun
    rcases run_cases program limit s with
      ⟨n, t, hsteps, hn, hend⟩ | ⟨t, hsteps⟩ | ⟨n, t, other, hsteps, hn, hfault⟩
    · rw [run_eq_ok hsteps hend hn] at hrun
      cases hrun
    · rw [run_eq_stepLimit hsteps (Nat.le_refl limit)] at hrun
      cases hrun
      exact Or.inl ⟨rfl, t, hsteps⟩
    · rw [run_eq_error hsteps hfault hn] at hrun
      cases hrun
      exact Or.inr ⟨n, t, hn, hsteps, hfault⟩
  · rintro (⟨rfl, t, hsteps⟩ | ⟨n, t, hn, hsteps, hfault⟩)
    · exact run_eq_stepLimit hsteps (Nat.le_refl limit)
    · exact run_eq_error hsteps hfault hn

/-- A run is given up exactly if it gets to execute as many operations as its limit says. -/
theorem run_eq_stepLimit_iff {limit : Nat} {s : Processor} :
    run program limit s = .error .stepLimit ↔ ∃ t, Steps program limit s t := by
  rw [run_eq_error_iff]
  constructor
  · rintro (⟨-, hsteps⟩ | ⟨n, t, -, -, hstep⟩)
    · exact hsteps
    · obtain ⟨name, -, -, hname⟩ := step_eq_error_iff.1 hstep
      cases hname
  · intro hsteps
    exact Or.inl ⟨rfl, hsteps⟩

/-- A run fails with a symbol exactly if that one stands for nothing and comes to be loaded. -/
theorem run_eq_undefinedSymbol_iff {limit : Nat} {s : Processor} {name : String} :
    run program limit s = .error (.undefinedSymbol name) ↔
      ∃ n t, n < limit ∧ Steps program n s t ∧ program.code[t.pc]? = some (.symbol name)
        ∧ program.symbols.find? name = none := by
  rw [run_eq_error_iff]
  constructor
  · rintro (⟨hfault, -⟩ | ⟨n, t, hn, hsteps, hstep⟩)
    · cases hfault
    · obtain ⟨other, hop, hnone, hname⟩ := step_eq_error_iff.1 hstep
      cases hname
      exact ⟨n, t, hn, hsteps, hop, hnone⟩
  · rintro ⟨n, t, hn, hsteps, hop, hnone⟩
    exact Or.inr ⟨n, t, hn, hsteps, step_eq_error_iff.2 ⟨name, hop, hnone, rfl⟩⟩

/-! ## Code in a program -/

/-- Code stands at a place of a program: its operations are fetched there, one after the other,
and each label that it declares resolves to the place where it stands. -/
def Installed (program : Program) : Nat → List Instruction → Prop
  | _, [] => True
  | pc, .operation op :: rest => program.code[pc]? = some op ∧ Installed program (pc + 1) rest
  | pc, .label name :: rest =>
      program.symbols.find? name = some (BitVec.ofNat 16 pc) ∧ Installed program pc rest

namespace Installed

variable {pc : Nat} {code more : List Instruction}

theorem append_iff : Installed program pc (code ++ more) ↔
    Installed program pc code
      ∧ Installed program (pc + (Code.operations code).length) more := by
  induction code generalizing pc with
  | nil => simp [Installed]
  | cons instruction code ih =>
      cases instruction with
      | operation op =>
          have hpc : pc + (Code.operations (.operation op :: code)).length
              = pc + 1 + (Code.operations code).length := by
            rw [Code.operations_operation, List.length_cons]
            omega
          rw [List.cons_append, Installed, Installed, ih, hpc, and_assoc]
      | label name =>
          rw [List.cons_append, Installed, Installed, ih, Code.operations_label, and_assoc]

/-- The operation at an offset into the code. -/
theorem getElem? (h : Installed program pc code) {k : Nat}
    (hk : k < (Code.operations code).length) :
    program.code[pc + k]? = (Code.operations code)[k]? := by
  induction code generalizing pc k with
  | nil => cases hk
  | cons instruction code ih =>
      cases instruction with
      | operation op =>
          cases k with
          | zero => exact h.1
          | succ k =>
              have hrest := ih h.2 (Nat.lt_of_succ_lt_succ hk)
              rw [show pc + (k + 1) = pc + 1 + k by omega, hrest]
              rfl
      | label name => exact ih h.2 hk

/-- What follows some code in a loaded program. -/
theorem of_loadedFrom_append (h : LoadedFrom (code ++ more) program) :
    Installed program (Code.operations code).length more := by
  -- each instruction of `more` is moved to the end of `code`, and the place moves with it
  induction more generalizing code with
  | nil => trivial
  | cons instruction more ih =>
      have hsplit : code ++ instruction :: more = code ++ [instruction] ++ more := by simp
      rw [hsplit] at h
      have hrest := ih h
      cases instruction with
      | operation op =>
          have hlength : (Code.operations (code ++ [.operation op])).length
              = (Code.operations code).length + 1 := by simp
          refine ⟨?_, hlength ▸ hrest⟩
          rw [← Array.getElem?_toList, h.operations]
          simp
      | label name =>
          have hlength : (Code.operations (code ++ [.label name])).length
              = (Code.operations code).length := by simp
          refine ⟨?_, hlength ▸ hrest⟩
          -- this is the only declaration of the label, and no register has its name
          have hprefix : Declarable (Code.labels code ++ [name]) := by
            apply h.declarable.sublist
            simp
          obtain ⟨-, hfresh, hregister⟩ := declarable_append_singleton_iff.1 hprefix
          rw [h.find?, SymbolTable.lookup_eq_none_of_not_isRegister hregister,
            Code.address?_append, Code.address?_append, Code.address?_eq_none_iff.2 hfresh]
          simp [Code.address?]

theorem of_loadedFrom (h : LoadedFrom code program) : Installed program 0 code := by
  have hwhole : LoadedFrom ([] ++ code) program := h
  exact of_loadedFrom_append hwhole

end Installed

/-! ## Code without jumps -/

/-- Executes instructions one after the other, whatever the place of the next operation is. -/
def executeAll (symbols : SymbolTable) : List Instruction → Processor → Except Fault Processor
  | [], s => .ok s
  | .label _ :: rest, s => executeAll symbols rest s
  | .operation op :: rest, s =>
      match s.execute symbols op with
      | .ok t => executeAll symbols rest t
      | .error fault => .error fault

theorem executeAll_append {symbols : SymbolTable} {code more : List Instruction}
    {s t : Processor} (h : executeAll symbols code s = .ok t) :
    executeAll symbols (code ++ more) s = executeAll symbols more t := by
  induction code generalizing s with
  | nil =>
      cases h
      rfl
  | cons instruction code ih =>
      cases instruction with
      | label name => exact ih h
      | operation op =>
          simp only [List.cons_append, executeAll] at h ⊢
          split at h
          · exact ih h
          · cases h

theorem pc_of_execute {s t : Processor} {symbols : SymbolTable} {op : Operation}
    (hstraight : Instruction.isStraight (.operation op) = true)
    (h : s.execute symbols op = .ok t) : t.pc = s.pc + 1 := by
  cases op with
  | constant value =>
      cases h
      rfl
  | symbol name =>
      simp only [execute] at h
      split at h
      · cases h
        rfl
      · cases h
  | compute dest comp jump =>
      cases jump with
      | none =>
          cases h
          rfl
      | some jump => cases hstraight

/-- Code without jumps is executed from its first operation to its last. -/
theorem steps_of_executeAll {code : List Instruction} {s t : Processor}
    (hcode : Installed program s.pc code) (hstraight : code.all Instruction.isStraight = true)
    (h : executeAll program.symbols code s = .ok t) :
    Steps program (Code.operations code).length s t
      ∧ t.pc = s.pc + (Code.operations code).length := by
  induction code generalizing s with
  | nil =>
      cases h
      exact ⟨.refl _, rfl⟩
  | cons instruction code ih =>
      rw [List.all_cons, Bool.and_eq_true] at hstraight
      cases instruction with
      | label name => cases hstraight.1
      | operation op =>
          simp only [executeAll] at h
          split at h
          · rename_i u hu
            have hpc := pc_of_execute hstraight.1 hu
            have hnext : Installed program u.pc code := hpc ▸ hcode.2
            obtain ⟨hsteps, hend⟩ := ih hnext hstraight.2 h
            have hfirst : s.step program = some (.ok u) := by rw [step_of_fetch hcode.1, hu]
            refine ⟨.head hfirst hsteps, ?_⟩
            rw [hend, hpc, Code.operations_operation, List.length_cons]
            omega
          · cases h

end Processor

end HackStack
