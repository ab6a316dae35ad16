import HackStack.Proofs.Guarded

set_option autoImplicit false

/-! # Control flow of compiled code

Whatever the memory holds, compiled code only jumps to labels, and control gets from the code of a
command to that of another only at its first operation (`Source.control_flow`). The reason is an
invariant of runs: before a jump the register A holds what the label of that jump stands for
(`IsGuided.armed`). It is kept because jumps are guarded (`Guarded`), so that none is reached but
from the load before it.

Nothing but the load of a label that no command declares can fail.
-/

namespace HackStack

open Source Processor

/-- A compiled source whose addresses fit into words, and whose names can all be labels. -/
structure IsLoadable (fragments : List Fragment) : Prop where
  compiled : IsCompiled fragments
  fits : (Code.operations (instructions fragments)).length ≤ 65535
  labels : Declarable (declaredLabels fragments)
  targets : ∀ fragment ∈ fragments, ∀ name, fragment.command.target? = some name →
    SymbolTable.isRegister name = false

/-! ## Steps -/

section Step

variable {program : Program} {s t : Processor}

/-- What a step that succeeds does to the place of the next operation. -/
theorem step_cases (h : s.step program = some (.ok t)) :
    s.pc < program.code.size
      ∧ ((t.pc = s.pc + 1
          ∧ ∀ name, program.code[s.pc]? = some (.symbol name) →
            program.symbols.find? name = some t.a)
        ∨ ∃ dest comp jump, program.code[s.pc]? = some (.compute dest comp (some jump))
          ∧ jump.isTaken (comp.eval s.d s.input) = true
          ∧ t.pc = t.a.toNat ∧ (dest = Dest.nowhere → t.a = s.a)) := by
  rw [step, Option.map_eq_some_iff] at h
  obtain ⟨op, hop, hexecute⟩ := h
  obtain ⟨hlt, -⟩ := Array.getElem?_eq_some_iff.1 hop
  refine ⟨hlt, ?_⟩
  cases op with
  | constant value =>
      cases hexecute
      refine Or.inl ⟨rfl, fun name hname => ?_⟩
      rw [hop] at hname
      cases hname
  | symbol name =>
      simp only [execute] at hexecute
      split at hexecute
      · rename_i value hvalue
        cases hexecute
        refine Or.inl ⟨rfl, fun other hother => ?_⟩
        rw [hop] at hother
        cases hother
        exact hvalue
      · cases hexecute
  | compute dest comp jump =>
      cases hexecute
      by_cases htaken : jump.any (·.isTaken (comp.eval s.d s.input)) = true
      · obtain ⟨taken, rfl, htaken'⟩ := (Option.any_eq_true _ _).1 htaken
        refine Or.inr ⟨dest, comp, taken, hop, htaken', ?_, ?_⟩
        · simp [compute, htaken']
        · rintro rfl
          rfl
      · refine Or.inl ⟨by simp [compute, htaken], fun name hname => ?_⟩
        rw [hop] at hname
        cases hname

end Step

/-! ## The invariant of runs -/

/-- Control is in the program or at its end, and before a jump the register A holds what the label
loaded for it stands for. -/
structure IsGuided (program : Program) (s : Processor) : Prop where
  within : s.pc ≤ program.code.size
  armed : ∀ before, s.pc = before + 1 → program.JumpsAt s.pc →
    ∃ name, program.code[before]? = some (.symbol name) ∧ program.symbols.find? name = some s.a

theorem isGuided_start (program : Program) (memory : Memory) :
    IsGuided program (Processor.start memory) :=
  ⟨Nat.zero_le _, fun before hbefore => by cases hbefore⟩

/-- A step from a place of guarded code goes on to the next operation, or to what one of the labels
stands for. -/
theorem IsGuided.step_cases {program : Program} {names : List String} {s t : Processor}
    (hs : IsGuided program s) (hsite : Site names program s.pc)
    (hstep : s.step program = some (.ok t)) :
    (t.pc = s.pc + 1
        ∧ ∀ name, program.code[s.pc]? = some (.symbol name) → program.symbols.find? name = some t.a)
      ∨ ∃ name ∈ names, program.JumpsAt s.pc ∧ program.symbols.find? name = some s.a
        ∧ t.pc = s.a.toNat := by
  obtain ⟨-, hnext | ⟨dest, comp, jump, hop, -, hpc, hkeep⟩⟩ := HackStack.step_cases hstep
  · exact Or.inl hnext
  · refine Or.inr ?_
    have hjumps : program.JumpsAt s.pc := ⟨dest, comp, jump, hop⟩
    obtain ⟨name, hname, before, comp', jump', hbefore, hload, hop'⟩ := hsite.of_jumpsAt hjumps
    obtain ⟨other, hother, hfind⟩ := hs.armed before hbefore hjumps
    rw [hload] at hother
    cases hother
    rw [hop] at hop'
    cases hop'
    exact ⟨name, hname, hjumps, hfind, by rw [hpc, hkeep rfl]⟩

namespace IsLoadable

variable {fragments : List Fragment} {program : Program} {name : String} {s t : Processor}

theorem not_isRegister (h : IsLoadable fragments) (hname : name ∈ references fragments) :
    SymbolTable.isRegister name = false := by
  obtain ⟨fragment, hmem, hreference⟩ := List.mem_flatMap.1 hname
  rcases List.mem_append.1 hreference with hown | htarget
  · exact IsCompiled.not_isRegister_of_reserved (Command.isReserved_of_mem_ownLabels hown)
  · exact h.targets fragment hmem name (Option.mem_toList.1 htarget)

/-- A label stands for the address of its declaration. -/
theorem address?_of_find? (h : IsLoadable fragments)
    (hload : LoadedFrom (instructions fragments) program)
    (hregister : SymbolTable.isRegister name = false) {value : Word}
    (hvalue : program.symbols.find? name = some value) :
    Code.address? name (instructions fragments) = some value.toNat := by
  rw [hload.find?, SymbolTable.lookup_eq_none_of_not_isRegister hregister, Option.none_or,
    Option.map_eq_some_iff] at hvalue
  obtain ⟨n, hn, rfl⟩ := hvalue
  rwa [toNat_address h.fits (Code.le_length_of_address? hn)]

theorem site (h : IsLoadable fragments) (hload : LoadedFrom (instructions fragments) program)
    {pc : Nat} (hpc : pc < program.code.size) : Site (references fragments) program pc := by
  rw [hload.size] at hpc
  have hsite := h.compiled.guarded.site (Installed.of_loadedFrom hload) hpc
  rwa [Nat.zero_add] at hsite

theorem not_jumpsAt_label (h : IsLoadable fragments)
    (hload : LoadedFrom (instructions fragments) program) {pc : Nat}
    (hname : Code.address? name (instructions fragments) = some pc) : ¬ program.JumpsAt pc := by
  intro hjumps
  have hlt := hjumps.lt_size
  rw [hload.size] at hlt
  have hnot := h.compiled.guarded.not_jumpsAt_label (Installed.of_loadedFrom hload) hname hlt
  rw [Nat.zero_add] at hnot
  exact hnot hjumps

/-- **One step.** A jump is reached from the load before it, and that has just been executed. -/
theorem isGuided_step (h : IsLoadable fragments)
    (hload : LoadedFrom (instructions fragments) program) (hs : IsGuided program s)
    (hstep : s.step program = some (.ok t)) : IsGuided program t := by
  obtain ⟨hlt, -⟩ := step_cases hstep
  rcases hs.step_cases (h.site hload hlt) hstep with
    ⟨hnext, hloaded⟩ | ⟨name, hname, -, hfind, hpc⟩
  · refine ⟨by omega, fun before hbefore hjumps => ?_⟩
    -- the operation before the jump is a load, and it is the one that has just been executed
    obtain rfl : s.pc = before := by omega
    obtain ⟨name, -, before, -, -, hbefore', hload', -⟩ :=
      (h.site hload hjumps.lt_size).of_jumpsAt hjumps
    rw [hnext, Nat.add_right_cancel_iff] at hbefore'
    rw [← hbefore'] at hload'
    exact ⟨name, hload', hloaded name hload'⟩
  · have haddress := h.address?_of_find? hload (h.not_isRegister hname) hfind
    -- the place is that of a label, and no jump stands there
    refine ⟨?_, fun before _ hjumps => ?_⟩
    · rw [hpc, hload.size]
      exact Code.le_length_of_address? haddress
    · rw [hpc] at hjumps
      exact absurd hjumps (h.not_jumpsAt_label hload haddress)

theorem isGuided_of_steps (h : IsLoadable fragments)
    (hload : LoadedFrom (instructions fragments) program) {n : Nat}
    (hsteps : Steps program n s t) (hs : IsGuided program s) : IsGuided program t := by
  induction hsteps with
  | refl s => exact hs
  | head hstep _ ih => exact ih (h.isGuided_step hload hs hstep)

end IsLoadable

/-! ## Moves between commands -/

/-- How control moves on from an operation in the code of the command with an index. -/
inductive Move (fragments : List Fragment) (i : Nat) (fragment : Fragment) (pc : Nat) : Nat → Prop
  /-- control stays in the code of the command, and does not get back to its beginning -/
  | inside {next : Nat} (hlt : address fragments i < next)
      (hle : next < address fragments (i + 1)) : Move fragments i fragment pc next
  /-- it goes on to the next operation, which is past the code of the command -/
  | fall (hend : pc + 1 = address fragments (i + 1)) : Move fragments i fragment pc (pc + 1)
  /-- a comparison jumps to the label at its end -/
  | leave {operator : Comparison} (hcommand : fragment.command = .arithmetic (.comparison operator))
      (hlabel : Code.address? (LabelStem.done.label fragment.line) (instructions fragments)
        = some (address fragments (i + 1))) :
      Move fragments i fragment pc (address fragments (i + 1))
  /-- the last operation of a jump command jumps to the command that declares its label -/
  | jump {name : String} {j : Nat} {other : Fragment}
      (htarget : fragment.command.target? = some name)
      (hlast : pc + 1 = address fragments (i + 1)) (hother : fragments[j]? = some other)
      (hdeclared : other.command = .label name) :
      Move fragments i fragment pc (address fragments j)

/-- Control that leaves the code of a command arrives at the beginning of that of another. -/
theorem Move.exists_address {fragments : List Fragment} {i : Nat} {fragment : Fragment}
    {pc next : Nat} (h : Move fragments i fragment pc next) :
    address fragments i < next ∧ next < address fragments (i + 1)
      ∨ ∃ j, next = address fragments j := by
  cases h with
  | inside hlt hle => exact Or.inl ⟨hlt, hle⟩
  | fall hend => exact Or.inr ⟨i + 1, hend⟩
  | leave => exact Or.inr ⟨i + 1, rfl⟩
  | jump => exact Or.inr ⟨_, rfl⟩

/-- An address in the code of a command is its first one. -/
theorem Source.address_eq_of_mem {fragments : List Fragment} {j k : Nat}
    (hle : address fragments j ≤ address fragments k)
    (hlt : address fragments k < address fragments (j + 1)) :
    address fragments k = address fragments j := by
  rcases Nat.lt_or_ge j k with h | h
  · have hmono : address fragments (j + 1) ≤ address fragments k := address_mono h
    omega
  · have hmono : address fragments k ≤ address fragments j := address_mono h
    omega

/-! ## Steps in the code of a command -/

/-- The operation at a place is the load of a label for a jump command, and no command declares
the label. -/
def IsUndeclared (fragments : List Fragment) (pc : Nat) (name : String) : Prop :=
  ∃ i fragment, fragments[i]? = some fragment ∧ fragment.command.target? = some name
    ∧ name ∉ declaredLabels fragments ∧ pc + 2 = address fragments (i + 1)

namespace IsLoadable

variable {fragments : List Fragment} {program : Program} {fragment : Fragment} {i : Nat}
  {name : String} {s t : Processor}

/-- An operation in the code of a command. -/
theorem getElem?_code (hload : LoadedFrom (instructions fragments) program)
    (hfragment : fragments[i]? = some fragment) {k : Nat}
    (hlt : address fragments i + k < address fragments (i + 1)) :
    program.code[address fragments i + k]? = (Code.operations fragment.code)[k]? := by
  rw [address_succ hfragment, Nat.add_lt_add_iff_left] at hlt
  exact (installed_fragment hload hfragment).getElem? hlt

theorem site_of_fragment (h : IsLoadable fragments)
    (hload : LoadedFrom (instructions fragments) program)
    (hfragment : fragments[i]? = some fragment) {pc : Nat} (hle : address fragments i ≤ pc)
    (hlt : pc < address fragments (i + 1)) :
    Site (fragment.command.references fragment.line) program pc := by
  obtain ⟨k, rfl⟩ := Nat.exists_eq_add_of_le hle
  rw [address_succ hfragment, Nat.add_lt_add_iff_left] at hlt
  have hcode := h.compiled.code fragment (List.mem_of_getElem? hfragment)
  exact (Command.guarded_code hcode).site (installed_fragment hload hfragment) hlt

/-- The labels that are loaded stand for something, unless they are undeclared targets. -/
theorem find?_eq_none_iff (h : IsLoadable fragments)
    (hload : LoadedFrom (instructions fragments) program)
    (hmem : fragment ∈ fragments) (htarget : fragment.command.target? = some name) :
    program.symbols.find? name = none ↔ name ∉ declaredLabels fragments := by
  have hname := h.compiled.names fragment hmem name (Command.name?_of_target? htarget)
  have hreserved := Symbol.not_isReserved_of_isLabelName hname
  rw [hload.find?_eq_none_iff, ← h.compiled.filter_labels, List.mem_filter]
  simp [hreserved, h.targets fragment hmem name htarget]

/-- The labels of a comparison stand within its code and at its end. -/
theorem move_of_ownLabel (h : IsLoadable fragments)
    (hload : LoadedFrom (instructions fragments) program)
    (hfragment : fragments[i]? = some fragment)
    (hown : name ∈ fragment.command.ownLabels fragment.line) {value : Word}
    (hvalue : program.symbols.find? name = some value) (pc : Nat) :
    Move fragments i fragment pc value.toNat := by
  obtain ⟨operator, hcommand⟩ :
      ∃ operator, fragment.command = .arithmetic (.comparison operator) := by
    unfold Command.ownLabels at hown
    split at hown
    · rename_i operator hcommand
      exact ⟨operator, hcommand⟩
    · cases hown
  rw [hcommand] at hown
  have hcode := h.compiled.code fragment (List.mem_of_getElem? hfragment)
  rw [hcommand] at hcode
  have hinstalled := installed_fragment hload hfragment
  rw [← Option.some.inj hcode] at hinstalled
  have hat := Code.comparisonAt_of_installed hinstalled
  have hend : address fragments (i + 1) = address fragments i + 17 := by
    rw [address_succ hfragment, Fragment.size, ← Option.some.inj hcode]
    rfl
  have hnat : ∀ k, k ≤ 17 → (BitVec.ofNat 16 (address fragments i + k)).toNat
      = address fragments i + k := by
    intro k hk
    have hle := address_le fragments (i + 1)
    exact toNat_address h.fits (by omega)
  simp only [Command.ownLabels, Code.comparisonLabels, List.mem_cons, List.not_mem_nil,
    or_false] at hown
  rcases hown with rfl | rfl | rfl
  · rw [hat.holds, Option.some.injEq] at hvalue
    rw [← hvalue, hnat 9 (by omega)]
    exact .inside (by omega) (by omega)
  · rw [hat.fails, Option.some.injEq] at hvalue
    rw [← hvalue, hnat 14 (by omega)]
    exact .inside (by omega) (by omega)
  · have haddress := h.address?_of_find? hload
      (IsCompiled.not_isRegister_of_reserved (Symbol.isReserved_label _ _)) hat.done
    rw [hat.done, Option.some.injEq] at hvalue
    rw [hnat 17 (by omega), ← hend] at haddress
    rw [← hvalue, hnat 17 (by omega), ← hend]
    exact .leave hcommand haddress

/-- **Moves.** A step in the code of a command stays in it or arrives at the beginning of that of
another. -/
theorem move_of_step (h : IsLoadable fragments)
    (hload : LoadedFrom (instructions fragments) program) (hs : IsGuided program s)
    (hfragment : fragments[i]? = some fragment) (hle : address fragments i ≤ s.pc)
    (hlt : s.pc < address fragments (i + 1)) (hstep : s.step program = some (.ok t)) :
    Move fragments i fragment s.pc t.pc := by
  have hsite := h.site_of_fragment hload hfragment hle hlt
  rcases hs.step_cases hsite hstep with ⟨hnext, -⟩ | ⟨name, hname, hjumps, hfind, hpc⟩
  · rw [hnext]
    rcases Nat.lt_or_ge (s.pc + 1) (address fragments (i + 1)) with hinside | hpast
    · exact .inside (by omega) hinside
    · exact .fall (by omega)
  · rw [hpc]
    rcases List.mem_append.1 hname with hown | htarget
    · exact h.move_of_ownLabel hload hfragment hown hfind s.pc
    · rw [Option.mem_toList] at htarget
      have hmem := List.mem_of_getElem? hfragment
      obtain ⟨first, comp, jump, hplain, hcode⟩ :=
        Command.code_of_target? (h.compiled.code fragment hmem) htarget
      have hlast : s.pc + 1 = address fragments (i + 1) := by
        obtain ⟨k, hk⟩ := Nat.exists_eq_add_of_le hle
        obtain ⟨dest, comp', jump', hop⟩ := hjumps
        rw [hk] at hlt
        rw [hk, getElem?_code hload hfragment hlt, hcode] at hop
        rw [hk, address_succ hfragment, Fragment.size, hcode]
        rcases Code.getElem?_jumpAfter hplain hop with hplain' | ⟨-, hload'⟩ | ⟨hend, -⟩
        · cases hplain'
        · cases hload'
        · omega
      have hdeclared : name ∈ declaredLabels fragments := by
        by_contra hundeclared
        rw [(h.find?_eq_none_iff hload hmem htarget).2 hundeclared] at hfind
        cases hfind
      obtain ⟨other, hother, hcommand⟩ := exists_declaring hdeclared
      rw [find?_declared h.compiled hload hother hcommand, Option.some.injEq] at hfind
      rw [← hfind, toNat_address h.fits (address_le fragments _)]
      exact .jump htarget hlast hother hcommand

/-- **Failures.** Only the load of an undeclared label fails. -/
theorem step_eq_error_iff (h : IsLoadable fragments)
    (hload : LoadedFrom (instructions fragments) program) {fault : Fault} :
    s.step program = some (.error fault) ↔
      ∃ name, IsUndeclared fragments s.pc name ∧ fault = .undefinedSymbol name := by
  rw [Processor.step_eq_error_iff]
  constructor
  · rintro ⟨name, hop, hnone, rfl⟩
    refine ⟨name, ?_, rfl⟩
    have hsize := (Array.getElem?_eq_some_iff.1 hop).1
    rw [hload.size] at hsize
    obtain ⟨i, fragment, hfragment, hle, hlt⟩ := exists_fragment hsize
    have hmem := List.mem_of_getElem? hfragment
    have hregister := (hload.find?_eq_none_iff.1 hnone).2
    cases h.site_of_fragment hload hfragment hle hlt with
    | plain hop' hplain =>
        rw [hop, Option.some.injEq] at hop'
        subst hop'
        rw [Instruction.isPlain, hregister] at hplain
        cases hplain
    | jump _ _ _ hop' =>
        rw [hop] at hop'
        cases hop'
    | load hname hop' _ =>
        rw [hop] at hop'
        cases hop'
        rcases List.mem_append.1 hname with hown | htarget
        · -- a label of a comparison stands for something
          have hgenerated : name ∈ generatedLabels fragments :=
            List.mem_flatMap.2 ⟨fragment, hmem, hown⟩
          rw [← h.compiled.filter_labels_reserved, List.mem_filter] at hgenerated
          exact absurd hgenerated.1 (hload.find?_eq_none_iff.1 hnone).1
        · rw [Option.mem_toList] at htarget
          have hundeclared := (h.find?_eq_none_iff hload hmem htarget).1 hnone
          refine ⟨i, fragment, hfragment, htarget, hundeclared, ?_⟩
          obtain ⟨first, comp, jump, hplain, hcode⟩ :=
            Command.code_of_target? (h.compiled.code fragment hmem) htarget
          obtain ⟨k, hk⟩ := Nat.exists_eq_add_of_le hle
          rw [hk] at hlt
          rw [hk, getElem?_code hload hfragment hlt, hcode] at hop
          rw [hk, address_succ hfragment, Fragment.size, hcode]
          rcases Code.getElem?_jumpAfter hplain hop with hplain' | ⟨hend, -⟩ | ⟨-, hjump⟩
          · rw [Instruction.isPlain, hregister] at hplain'
            cases hplain'
          · omega
          · cases hjump
  · rintro ⟨name, ⟨i, fragment, hfragment, htarget, hundeclared, hpc⟩, rfl⟩
    have hmem := List.mem_of_getElem? hfragment
    refine ⟨name, ?_, (h.find?_eq_none_iff hload hmem htarget).2 hundeclared, rfl⟩
    obtain ⟨first, comp, jump, -, hcode⟩ :=
      Command.code_of_target? (h.compiled.code fragment hmem) htarget
    have hsize : fragment.size = (Code.operations first).length + 2 := by
      rw [Fragment.size, hcode, Code.length_jumpAfter]
    have hend := address_succ hfragment
    obtain ⟨k, hk⟩ : ∃ k, s.pc = address fragments i + k := ⟨s.pc - address fragments i, by omega⟩
    rw [hk, getElem?_code hload hfragment (by omega), hcode]
    apply Code.getElem?_jumpAfter_label
    rw [← hcode, ← Fragment.size]
    omega

/-- A jump command whose label is not declared fails whenever it is executed, whatever is on the
stack. -/
theorem fails_of_undeclared (h : IsLoadable fragments)
    (hload : LoadedFrom (instructions fragments) program)
    (hfragment : fragments[i]? = some fragment) (htarget : fragment.command.target? = some name)
    (hundeclared : name ∉ declaredLabels fragments) (hpc : s.pc = address fragments i) :
    ∃ n t, n + 2 = fragment.size ∧ Steps program n s t
      ∧ t.step program = some (.error (.undefinedSymbol name)) := by
  have hmem := List.mem_of_getElem? hfragment
  obtain ⟨first, comp, jump, hplain, hcode⟩ :=
    Command.code_of_target? (h.compiled.code fragment hmem) htarget
  have hinstalled := installed_fragment hload hfragment
  rw [hcode, Code.jumpAfter, ← hpc, Installed.append_iff] at hinstalled
  obtain ⟨t, ht⟩ := exists_executeAll_of_plain hload.knowsRegisters hplain s
  obtain ⟨hsteps, hend⟩ :=
    steps_of_executeAll hinstalled.1 (Code.straight_of_plain hplain) ht
  refine ⟨_, t, ?_, hsteps, ?_⟩
  · rw [Fragment.size, hcode, Code.length_jumpAfter]
  · rw [Processor.step_eq_error_iff, hend]
    exact ⟨name, hinstalled.2.1, (h.find?_eq_none_iff hload hmem htarget).2 hundeclared, rfl⟩

end IsLoadable

/-! ## The main result -/

/-- What holds of every state of a run. -/
structure IsConfined (fragments : List Fragment) (program : Program) (s : Processor) : Prop where
  within : s.pc ≤ program.code.size
  /-- a jump that is taken lands at a label -/
  lands : ∀ dest comp jump t, program.code[s.pc]? = some (.compute dest comp (some jump)) →
    jump.isTaken (comp.eval s.d s.input) = true → s.step program = some (.ok t) →
      ∃ name, Code.address? name (instructions fragments) = some t.pc
  /-- control leaves the code of a command only as it should -/
  moves : ∀ i fragment t, fragments[i]? = some fragment → address fragments i ≤ s.pc →
    s.pc < address fragments (i + 1) → s.step program = some (.ok t) →
      Move fragments i fragment s.pc t.pc
  /-- and so it enters the code of another one at its first operation -/
  enters : ∀ i j t, i ≠ j → address fragments i ≤ s.pc → s.pc < address fragments (i + 1) →
    s.step program = some (.ok t) → address fragments j ≤ t.pc →
      t.pc < address fragments (j + 1) → t.pc = address fragments j
  /-- nothing fails but the load of an undeclared label for a jump command -/
  faults : ∀ fault, s.step program = some (.error fault) ↔
    ∃ name, IsUndeclared fragments s.pc name ∧ fault = .undefinedSymbol name
  /-- and a command with such a label fails whenever it is executed -/
  fails : ∀ i fragment name, fragments[i]? = some fragment → s.pc = address fragments i →
    fragment.command.target? = some name → name ∉ declaredLabels fragments →
      ∃ n t, n + 2 = fragment.size ∧ Steps program n s t
        ∧ t.step program = some (.error (.undefinedSymbol name))

namespace IsLoadable

variable {fragments : List Fragment} {program : Program} {s : Processor}

theorem lands (h : IsLoadable fragments) (hload : LoadedFrom (instructions fragments) program)
    (hs : IsGuided program s) {dest : Dest} {comp : Comp} {jump : Jump} {t : Processor}
    (hop : program.code[s.pc]? = some (.compute dest comp (some jump)))
    (htaken : jump.isTaken (comp.eval s.d s.input) = true)
    (hstep : s.step program = some (.ok t)) :
    ∃ name, Code.address? name (instructions fragments) = some t.pc := by
  have hjumps : program.JumpsAt s.pc := ⟨dest, comp, jump, hop⟩
  obtain ⟨name, hname, before, comp', jump', hbefore, hload', hop'⟩ :=
    (h.site hload hjumps.lt_size).of_jumpsAt hjumps
  obtain ⟨other, hother, hfind⟩ := hs.armed before hbefore hjumps
  rw [hload'] at hother
  cases hother
  rw [hop] at hop'
  cases hop'
  rw [Code.step_branch hop, if_pos htaken] at hstep
  cases hstep
  exact ⟨name, h.address?_of_find? hload (h.not_isRegister hname) hfind⟩

theorem isConfined (h : IsLoadable fragments)
    (hload : LoadedFrom (instructions fragments) program) (hs : IsGuided program s) :
    IsConfined fragments program s where
  within := hs.within
  lands _ _ _ _ hop htaken hstep := h.lands hload hs hop htaken hstep
  moves _ _ _ hfragment hle hlt hstep := h.move_of_step hload hs hfragment hle hlt hstep
  enters i j t hne hle hlt hstep hle' hlt' := by
    cases hfragment : fragments[i]? with
    | none =>
        rw [address_succ_of_none hfragment] at hlt
        exact absurd hle (Nat.not_le_of_lt hlt)
    | some fragment =>
        rcases (h.move_of_step hload hs hfragment hle hlt hstep).exists_address with
          ⟨hinside, hinside'⟩ | ⟨k, hk⟩
        · exact absurd (address_unique (Nat.le_of_lt hinside) hinside' hle' hlt') hne
        · rw [hk] at hle' hlt' ⊢
          exact address_eq_of_mem hle' hlt'
  faults _ := h.step_eq_error_iff hload
  fails _ _ _ hfragment hpc htarget hundeclared :=
    h.fails_of_undeclared hload hfragment htarget hundeclared hpc

/-- Besides the step limit a run fails at the first undeclared label, and at nothing else. -/
theorem run_eq_error_iff (h : IsLoadable fragments)
    (hload : LoadedFrom (instructions fragments) program) {limit : Nat} {fault : Fault} :
    Processor.run program limit s = .error fault ↔
      (fault = .stepLimit ∧ ∃ t, Steps program limit s t)
      ∨ ∃ n t name, n < limit ∧ Steps program n s t ∧ IsUndeclared fragments t.pc name
        ∧ fault = .undefinedSymbol name := by
  rw [Processor.run_eq_error_iff]
  refine or_congr_right ⟨?_, ?_⟩
  · rintro ⟨n, t, hn, hsteps, hfault⟩
    obtain ⟨name, hundeclared, hname⟩ := (h.step_eq_error_iff hload).1 hfault
    exact ⟨n, t, name, hn, hsteps, hundeclared, hname⟩
  · rintro ⟨n, t, name, hn, hsteps, hundeclared, hname⟩
    have hfault := (h.step_eq_error_iff hload).2 ⟨name, hundeclared, hname⟩
    exact ⟨n, t, hn, hsteps, hfault⟩

end IsLoadable

namespace Source

/-- **Control flow of compiled code.** A source whose code fits into words, whose labels are
distinct, and which uses no name of a register as a label can be loaded. Whatever memory it is
started on, all states of the run are confined; and besides the step limit a run only fails where
it executes a jump command whose label is not declared. -/
theorem control_flow {source : String} {fragments : List Fragment}
    (h : compile source = .ok fragments)
    (hfits : (Code.operations (instructions fragments)).length ≤ 65535)
    (hnodup : (declaredLabels fragments).Nodup)
    (hnames : ∀ fragment ∈ fragments, ∀ name, fragment.command.name? = some name →
      SymbolTable.isRegister name = false) :
    ∃ program, Program.load (instructions fragments) = .ok program
      ∧ ∀ memory,
        (∀ n s, Steps program n (Processor.start memory) s → IsConfined fragments program s)
        ∧ ∀ limit fault, Processor.run program limit (Processor.start memory) = .error fault ↔
          (fault = .stepLimit ∧ ∃ s, Steps program limit (Processor.start memory) s)
          ∨ ∃ n s name, n < limit ∧ Steps program n (Processor.start memory) s
            ∧ IsUndeclared fragments s.pc name ∧ fault = .undefinedSymbol name := by
  have hcompiled := isCompiled_of_compile h
  have hlabels : Declarable (declaredLabels fragments) := by
    refine ⟨hnodup, fun name hname => ?_⟩
    obtain ⟨fragment, hmem, hdeclared⟩ := List.mem_filterMap.1 hname
    exact hnames fragment hmem name (Command.name?_of_declared? hdeclared)
  have hloadable : IsLoadable fragments := ⟨hcompiled, hfits, hlabels,
    fun fragment hmem name htarget => hnames fragment hmem name (Command.name?_of_target? htarget)⟩
  obtain ⟨program, hprogram, hload⟩ :=
    Program.exists_load_of_declarable (hcompiled.declarable_labels hlabels)
  refine ⟨program, hprogram, fun memory => ⟨fun n s hsteps => ?_, fun limit fault => ?_⟩⟩
  · have hguided := hloadable.isGuided_of_steps hload hsteps (isGuided_start program memory)
    exact hloadable.isConfined hload hguided
  · exact hloadable.run_eq_error_iff hload

/-- A jump over a command to a label that is declared, and a conditional one to a label that is not.
On every memory the first lands where the code of a command begins, and the other fails. -/
theorem control_flow_undeclared :
    ∃ fragments program, compile "goto A\nneg\nlabel A\nif-goto X" = .ok fragments
      ∧ Program.load (instructions fragments) = .ok program
      ∧ ∀ memory, ∃ s t, Steps program 1 (Processor.start memory) s
          ∧ s.step program = some (.ok t)
          ∧ (∃ fragment, fragments[0]? = some fragment ∧ Move fragments 0 fragment s.pc t.pc)
          ∧ (∃ name, Code.address? name (instructions fragments) = some t.pc)
          ∧ t.pc = address fragments 3
          ∧ Processor.run program 100 (Processor.start memory)
            = .error (.undefinedSymbol "X") := by
  have h : compile "goto A\nneg\nlabel A\nif-goto X" = .ok
      [⟨1, .goto "A", Code.jumpTo "A"⟩, ⟨2, .arithmetic (.unary .neg), Code.unary .neg⟩,
        ⟨3, .label "A", [.label "A"]⟩,
        ⟨4, .ifGoto "X", Code.popD ++ [.load "X", .branch .d .notEqual]⟩] := by
    rw [compile_eq_yields]
    rfl
  obtain ⟨program, hprogram, hrun⟩ := control_flow h (by decide) (by decide) (by
    intro fragment hmem name hname
    simp only [List.mem_cons, List.not_mem_nil, or_false] at hmem
    rcases hmem with rfl | rfl | rfl | rfl
    · cases hname
      decide
    · cases hname
    · cases hname
      decide
    · cases hname
      decide)
  refine ⟨_, program, h, hprogram, fun memory => ?_⟩
  obtain ⟨hconfined, hfaults⟩ := hrun memory
  -- the two operations of the jump, the three that it passes over, and the label
  obtain ⟨hload, hjump, -, -, -, hlabel, -⟩ :=
    Installed.of_loadedFrom (Program.loadedFrom_of_load hprogram)
  have hfirst : (Processor.start memory).step program = some (.ok ⟨5, 0, 1, memory⟩) :=
    Code.step_load hload hlabel
  have hsecond : Processor.step ⟨5, 0, 1, memory⟩ program = some (.ok ⟨5, 0, 5, memory⟩) :=
    Code.step_jump hjump
  have hjumped : Steps program 2 (Processor.start memory) ⟨5, 0, 5, memory⟩ :=
    .head hfirst (.one hsecond)
  have hs := hconfined 1 _ (.one hfirst)
  obtain ⟨n, u, hsize, hrest, hfault⟩ :=
    (hconfined 2 _ hjumped).fails 3 _ "X" rfl rfl rfl (by decide)
  have hn : n + 2 = 5 := hsize
  have hsteps := hjumped.trans hrest
  obtain ⟨name, hundeclared, hname⟩ := ((hconfined _ u hsteps).faults _).1 hfault
  refine ⟨_, _, .one hfirst, hsecond, ⟨_, rfl, ?_⟩, hs.lands _ _ _ _ hjump rfl hsecond, ?_,
    (hfaults 100 _).2 (Or.inr ⟨2 + n, u, name, by omega, hsteps, hundeclared, hname⟩)⟩
  · exact hs.moves 0 _ _ rfl (Nat.zero_le 1) (show 1 < 2 by decide) hsecond
  · exact hs.enters 0 3 _ (by decide) (Nat.zero_le 1) (show 1 < 2 by decide) hsecond
      (Nat.le_refl 5) (show 5 < 10 by decide)

end Source

end HackStack
