import HackStack.Command.Code
import HackStack.Proofs.Execution
import HackStack.Proofs.StackMachine

set_option autoImplicit false

/-! # What the code of a command does

The code of each command, executed symbolically from any state of the processor, leaves the memory
that the stack machine has after the command, with the words on the stack read once the bookkeeping
is done (`Command.settled`). Code without jumps is dealt with by `executeAll`; the code of a
comparison and of the jumps by counted steps, because where they go on depends on the program.
-/

namespace HackStack

/-! ## Single instructions -/

/-- The symbols of a program include the registers. -/
def SymbolTable.KnowsRegisters (symbols : SymbolTable) : Prop :=
  ∀ name value, SymbolTable.registers.lookup name = some value → symbols.find? name = some value

theorem LoadedFrom.knowsRegisters {code : List Instruction} {p : Program}
    (h : LoadedFrom code p) : p.symbols.KnowsRegisters := by
  intro name value hregister
  rw [h.find?, hregister, Option.some_or]

namespace SymbolTable.KnowsRegisters

variable {symbols : SymbolTable}

theorem find?_sp (h : symbols.KnowsRegisters) : symbols.find? "SP" = some 0 := h _ _ rfl

theorem find?_scratch (h : symbols.KnowsRegisters) : symbols.find? Code.scratch = some 13 :=
  h _ _ rfl

theorem find?_base (h : symbols.KnowsRegisters) (register : BaseRegister) :
    symbols.find? register.symbol = some register.address := by
  apply h
  cases register <;> rfl

theorem find?_slot (h : symbols.KnowsRegisters) (slot : PointerSlot) :
    symbols.find? slot.register = some slot.address := by
  apply h
  cases slot <;> rfl

end SymbolTable.KnowsRegisters

theorem Memory.write_comm {memory : Memory} {p q : Word} (h : p ≠ q) (x y : Word) :
    (memory.write p x).write q y = (memory.write q y).write p x := by
  apply Memory.ext
  intro address
  simp only [Memory.read_write]
  by_cases hq : address = q
  · have hp : address ≠ p := by
      rintro rfl
      exact h hq
    rw [if_pos hq, if_neg hp, if_pos hq]
  · rw [if_neg hq, if_neg hq]

namespace Processor

variable {symbols : SymbolTable} {rest : List Instruction}

@[simp] theorem executeAll_nil (s : Processor) : executeAll symbols [] s = .ok s := rfl

theorem executeAll_load {name : String} {value : Word} (h : symbols.find? name = some value)
    (s : Processor) : executeAll symbols (Instruction.load name :: rest) s
      = executeAll symbols rest { s with a := value, pc := s.pc + 1 } := by
  simp [Instruction.load, executeAll, execute, h]

@[simp] theorem executeAll_loadConstant (value : Word) (s : Processor) :
    executeAll symbols (Instruction.loadConstant value :: rest) s
      = executeAll symbols rest { s with a := value, pc := s.pc + 1 } := rfl

@[simp] theorem executeAll_store (dest : Dest) (comp : Comp) (s : Processor) :
    executeAll symbols (Instruction.store dest comp :: rest) s
      = executeAll symbols rest (s.compute dest comp none) := rfl

@[simp] theorem compute_toD (s : Processor) (comp : Comp) :
    s.compute .toD comp none = { s with d := comp.eval s.d s.input, pc := s.pc + 1 } := rfl

@[simp] theorem compute_toA (s : Processor) (comp : Comp) :
    s.compute .toA comp none = { s with a := comp.eval s.d s.input, pc := s.pc + 1 } := rfl

@[simp] theorem compute_toM (s : Processor) (comp : Comp) :
    s.compute .toM comp none =
      { s with memory := s.memory.write s.a (comp.eval s.d s.input), pc := s.pc + 1 } := rfl

@[simp] theorem compute_toAM (s : Processor) (comp : Comp) :
    s.compute .toAM comp none =
      { s with
        a := comp.eval s.d s.input
        memory := s.memory.write s.a (comp.eval s.d s.input)
        pc := s.pc + 1 } := rfl

@[simp] theorem input_a (s : Processor) : s.input .a = s.a := rfl

@[simp] theorem input_m (s : Processor) : s.input .m = s.memory.read s.a := rfl

end Processor

/-! ## Moving words to and from the stack -/

namespace Code

open Processor

variable {symbols : SymbolTable}

theorem executeAll_pushD (h : symbols.KnowsRegisters) (s : Processor) :
    executeAll symbols pushD s = .ok
      { a := s.memory.sp
        d := s.d
        pc := s.pc + 4
        memory := (s.memory.write 0 (s.memory.sp + 1)).write s.memory.sp s.d } := by
  have hback : s.memory.read 0 + 1 - 1 = s.memory.read 0 := BitVec.add_sub_cancel _ _
  rw [pushD, executeAll_load h.find?_sp]
  simp only [executeAll_store, executeAll_nil, compute_toM, compute_toA, Comp.eval, input_m,
    Memory.sp, Memory.read_write_self, hback]

theorem executeAll_popD (h : symbols.KnowsRegisters) (s : Processor) :
    executeAll symbols popD s = .ok
      { a := s.memory.sp - 1
        d := s.memory.lowered.read (s.memory.sp - 1)
        pc := s.pc + 3
        memory := s.memory.lowered } := by
  rw [popD, executeAll_load h.find?_sp]
  simp [Comp.eval, Memory.sp, Memory.lowered]

theorem directAddress_eq_add {base index address : Word}
    (h : directAddress base index = some address) : address = base + index := by
  obtain ⟨hsum, hle⟩ := directAddress_eq_some_iff.1 h
  have hmax : Word.maxLoadable = 32767 := rfl
  apply BitVec.eq_of_toNat_eq
  rw [BitVec.toNat_add]
  omega

theorem executeAll_fetch (h : symbols.KnowsRegisters) {operand : Operand}
    {code : List Instruction} (hcode : fetch? operand = some code) (s : Processor) :
    ∃ t, executeAll symbols code s = .ok t ∧ t.d = operand.value s.memory
      ∧ t.memory = s.memory := by
  cases operand with
  | pointer slot =>
      cases hcode
      rw [executeAll_load (h.find?_slot slot)]
      exact ⟨_, rfl, rfl, rfl⟩
  | cell segment index =>
      simp only [fetch?] at hcode
      split at hcode
      · rename_i hbase
        cases hcode
        refine ⟨_, rfl, ?_, rfl⟩
        simp [Operand.value, hbase, Comp.eval]
      · rename_i register hbase
        cases hcode
        rw [executeAll_load (h.find?_base register)]
        refine ⟨_, rfl, ?_, rfl⟩
        simp [Operand.value, hbase, Comp.eval]
      · rename_i base hbase
        obtain ⟨address, haddress, rfl⟩ := Option.map_eq_some_iff.1 hcode
        refine ⟨_, rfl, ?_, rfl⟩
        simp [Operand.value, hbase, Comp.eval, directAddress_eq_add haddress]

theorem executeAll_push (h : symbols.KnowsRegisters) {operand : Operand}
    {code : List Instruction} (hcode : push? operand = some code) (s : Processor) :
    ∃ t, executeAll symbols code s = .ok t
      ∧ t.memory = (Command.push operand).result s.memory
          ((Command.push operand).settled s.memory) := by
  obtain ⟨fetched, hfetch, rfl⟩ := Option.map_eq_some_iff.1 hcode
  obtain ⟨t, ht, hd, hmemory⟩ := executeAll_fetch h hfetch s
  rw [executeAll_append ht, executeAll_pushD h]
  refine ⟨_, rfl, ?_⟩
  rw [hd, hmemory]
  rfl

/-- The target is parked before the word is popped, but the stack machine parks it afterwards. -/
theorem lowered_write_park (memory : Memory) (address : Word) :
    (memory.write 13 address).lowered = memory.lowered.write 13 address := by
  have hne : (0 : Word) ≠ 13 := by decide
  calc (memory.write 13 address).lowered
      = (memory.write 13 address).write 0 (memory.sp - 1) := by
        rw [Memory.lowered, Memory.sp, Memory.read_write_of_ne hne, Memory.sp]
    _ = memory.lowered.write 13 address := by
        rw [Memory.write_comm (Ne.symm hne), Memory.lowered]

theorem executeAll_pop (h : symbols.KnowsRegisters) {operand : Operand}
    {code : List Instruction} (hcode : pop? operand = some code) (s : Processor) :
    ∃ t, executeAll symbols code s = .ok t
      ∧ t.memory = (Command.pop operand).result s.memory
          ((Command.pop operand).settled s.memory) := by
  cases operand with
  | pointer slot =>
      cases hcode
      rw [executeAll_append (executeAll_popD h s), executeAll_load (h.find?_slot slot)]
      exact ⟨_, rfl, rfl⟩
  | cell segment index =>
      simp only [pop?] at hcode
      split at hcode
      · cases hcode
      · rename_i register hbase
        cases hcode
        -- parking the target leaves SP as it is, even though it comes first
        have hsp : ∀ address, (s.memory.write 13 address).sp = s.memory.sp :=
          fun address => Memory.read_write_of_ne (by decide)
        rw [List.append_assoc, List.cons_append, executeAll_load (h.find?_base register)]
        simp only [List.cons_append, List.nil_append, executeAll_store, executeAll_loadConstant,
          executeAll_load h.find?_scratch, compute_toD, compute_toM, Comp.eval, input_a, input_m]
        rw [executeAll_append (executeAll_popD h _), executeAll_load h.find?_scratch]
        refine ⟨_, rfl, ?_⟩
        simp only [compute_toA, compute_toM, Comp.eval, input_m, lowered_write_park, hsp,
          Memory.read_write_self, Command.result, Command.settled, Operand.address?,
          Operand.parked?, hbase]
      · rename_i base hbase
        obtain ⟨address, haddress, rfl⟩ := Option.map_eq_some_iff.1 hcode
        rw [executeAll_append (executeAll_popD h s)]
        refine ⟨_, rfl, ?_⟩
        simp only [compute_toM, Comp.eval, directAddress_eq_add haddress, Command.result,
          Command.settled, Operand.address?, Operand.parked?, hbase]

/-! ## Operators -/

theorem eval_unaryComp (operator : UnaryOperator) (d : Word) (input : UnitInput → Word) :
    (unaryComp operator).eval d input = operator.apply (input .m) := by
  cases operator with
  | neg => rfl
  | not => rfl

theorem eval_binaryComp (operator : BinaryOperator) (d : Word) (input : UnitInput → Word) :
    (binaryComp operator).eval d input = operator.apply (input .m) d := by
  cases operator with
  | add => exact BitVec.add_comm _ _
  | sub => rfl
  | and => exact BitVec.and_comm _ _
  | or => exact BitVec.or_comm _ _

theorem sub_one_sub_one (w : Word) : w - 1 - 1 = w - 2 := by
  bv_omega

theorem executeAll_unary (h : symbols.KnowsRegisters) (operator : UnaryOperator)
    (s : Processor) :
    ∃ t, executeAll symbols (unary operator) s = .ok t
      ∧ t.memory = (Command.arithmetic (.unary operator)).result s.memory
          ((Command.arithmetic (.unary operator)).settled s.memory) := by
  rw [unary, executeAll_load h.find?_sp]
  refine ⟨_, rfl, ?_⟩
  simp only [compute_toA, compute_toM, eval_unaryComp, input_m]
  rfl

/-- The operands of a binary operator or a comparison, before the result is computed. -/
theorem executeAll_operands (h : symbols.KnowsRegisters) (s : Processor) :
    executeAll symbols (popD ++ [Instruction.store .toA (.predInput .a)]) s = .ok
      { a := s.memory.sp - 2
        d := s.memory.lowered.read (s.memory.sp - 1)
        pc := s.pc + 4
        memory := s.memory.lowered } := by
  rw [executeAll_append (executeAll_popD h s)]
  simp only [executeAll_store, compute_toA, Comp.eval, input_a, sub_one_sub_one, executeAll_nil]

theorem executeAll_binary (h : symbols.KnowsRegisters) (operator : BinaryOperator)
    (s : Processor) :
    ∃ t, executeAll symbols (binary operator) s = .ok t
      ∧ t.memory = (Command.arithmetic (.binary operator)).result s.memory
          ((Command.arithmetic (.binary operator)).settled s.memory) := by
  have hsplit : binary operator = popD ++ [Instruction.store .toA (.predInput .a)]
      ++ [Instruction.store .toM (binaryComp operator)] := rfl
  rw [hsplit, executeAll_append (executeAll_operands h s)]
  refine ⟨_, rfl, ?_⟩
  simp only [compute_toM, eval_binaryComp, input_m]
  rfl

/-- **Code without jumps** leaves the memory that the stack machine has after the command. -/
theorem executeAll_straight (h : symbols.KnowsRegisters) {line : Nat} {command : Command}
    {code : List Instruction} (hcode : command.code? line = some code)
    (hstraight : code.all Instruction.isStraight = true) (s : Processor) :
    ∃ t, executeAll symbols code s = .ok t
      ∧ t.memory = command.result s.memory (command.settled s.memory) := by
  cases command with
  | push operand => exact executeAll_push h hcode s
  | pop operand => exact executeAll_pop h hcode s
  | arithmetic operator =>
      cases operator with
      | unary operator =>
          cases hcode
          exact executeAll_unary h operator s
      | binary operator =>
          cases hcode
          exact executeAll_binary h operator s
      | comparison operator =>
          cases hcode
          cases hstraight
  | comment =>
      cases hcode
      exact ⟨s, rfl, rfl⟩
  | label name =>
      cases hcode
      cases hstraight
  | goto name =>
      cases hcode
      cases hstraight
  | ifGoto name =>
      cases hcode
      cases hstraight

/-! ## Jumps -/

/-- Jumps to a label. -/
def jumpTo (name : String) : List Instruction :=
  [Instruction.load name, Instruction.branch .zero .always]

variable {program : Program}

theorem step_load {name : String} {value : Word} {s : Processor}
    (hcode : program.code[s.pc]? = some (.symbol name))
    (h : program.symbols.find? name = some value) :
    s.step program = some (.ok { s with a := value, pc := s.pc + 1 }) := by
  rw [step_of_fetch hcode, execute, h]

theorem step_branch {comp : Comp} {jump : Jump} {s : Processor}
    (hcode : program.code[s.pc]? = some (.compute Dest.nowhere comp (some jump))) :
    s.step program = some (.ok
      { s with pc := if jump.isTaken (comp.eval s.d s.input) then s.a.toNat else s.pc + 1 }) := by
  rw [step_of_fetch hcode]
  rfl

/-- An unconditional jump. -/
theorem step_jump {s : Processor}
    (hcode : program.code[s.pc]? = some (.compute Dest.nowhere .zero (some .always))) :
    s.step program = some (.ok { s with pc := s.a.toNat }) :=
  step_branch hcode

theorem steps_jumpTo {name : String} {value : Word} {s : Processor}
    (hcode : Installed program s.pc (jumpTo name))
    (h : program.symbols.find? name = some value) :
    Steps program 2 s { s with a := value, pc := value.toNat } := by
  obtain ⟨hload, hjump, -⟩ := hcode
  exact .head (step_load hload h) (.one (step_jump hjump))

/-- The code of `if-goto`: the jump is taken if the word that is popped is not zero. -/
theorem steps_ifGoto (h : program.symbols.KnowsRegisters) {name : String} {value : Word}
    {s : Processor}
    (hcode : Installed program s.pc
      (popD ++ [Instruction.load name, Instruction.branch .d .notEqual]))
    (hname : program.symbols.find? name = some value) :
    ∃ t, Steps program 5 s t ∧ t.memory = s.memory.lowered
      ∧ t.pc = if s.memory.lowered.read (s.memory.sp - 1) = 0 then s.pc + 5
          else value.toNat := by
  obtain ⟨hpop, hload, hjump, -⟩ := Installed.append_iff.1 hcode
  obtain ⟨hsteps, -⟩ := steps_of_executeAll hpop rfl (executeAll_popD h s)
  refine ⟨_, hsteps.trans (.head (step_load hload hname) (.one (step_branch hjump))), rfl, ?_⟩
  have htaken : Jump.isTaken .notEqual (s.memory.lowered.read (s.memory.sp - 1))
      = !decide (s.memory.lowered.read (s.memory.sp - 1) = 0) := by
    have hzero : (0 : Word).toInt = 0 := rfl
    simp only [Jump.isTaken, ne_eq, decide_not, ← BitVec.toInt_inj, hzero]
  show (if Jump.isTaken .notEqual (s.memory.lowered.read (s.memory.sp - 1)) = true then
    value.toNat else s.pc + 5) = _
  rw [htaken]
  by_cases hpopped : s.memory.lowered.read (s.memory.sp - 1) = 0
  · rw [hpopped]
    rfl
  · rw [decide_eq_false hpopped, if_neg hpopped]
    rfl

/-! ## Comparisons -/

theorem isTaken_comparisonJump (operator : Comparison) (difference : Word) :
    (comparisonJump operator).isTaken difference = operator.holds difference := by
  cases operator with
  | eq => rfl
  | gt => rfl
  | lt => rfl

/-- The first part of a comparison: the difference of the operands, and where to go on if the
comparison holds. -/
def compareWith (taken : String) : List Instruction :=
  popD ++ [Instruction.store .toA (.predInput .a)]
    ++ [Instruction.store .toD (.minusD .m), Instruction.load taken]

theorem executeAll_compareWith {symbols : SymbolTable} (h : symbols.KnowsRegisters)
    {taken : String} {value : Word} (htaken : symbols.find? taken = some value) (s : Processor) :
    executeAll symbols (compareWith taken) s = .ok
      { a := value
        d := s.memory.lowered.read (s.memory.sp - 2) - s.memory.lowered.read (s.memory.sp - 1)
        pc := s.pc + 6
        memory := s.memory.lowered } := by
  rw [compareWith, executeAll_append (executeAll_operands h s), executeAll_store,
    executeAll_load htaken]
  rfl

theorem executeAll_setTop {symbols : SymbolTable} (h : symbols.KnowsRegisters) (b : Bool)
    (s : Processor) :
    executeAll symbols (setTop (if b then .minusOne else .zero)) s = .ok
      { s with
        a := s.memory.sp - 1
        pc := s.pc + 3
        memory := s.memory.write (s.memory.sp - 1) (Word.ofBool b) } := by
  rw [setTop, executeAll_load h.find?_sp]
  cases b with
  | false => rfl
  | true => rfl

/-- Where the parts of a comparison stand. -/
structure ComparisonAt (program : Program) (pc : Nat) (operator : Comparison) (line : Nat) :
    Prop where
  compare : Installed program pc (compareWith ((LabelStem.holds operator).label line))
  branch : program.code[pc + 6]? =
    some (.compute Dest.nowhere .d (some (comparisonJump operator)))
  skip : Installed program (pc + 7) (jumpTo ((LabelStem.fails operator).label line))
  holds : program.symbols.find? ((LabelStem.holds operator).label line)
    = some (BitVec.ofNat 16 (pc + 9))
  setTrue : Installed program (pc + 9) (setTop (if true then .minusOne else .zero))
  leave : Installed program (pc + 12) (jumpTo (LabelStem.done.label line))
  fails : program.symbols.find? ((LabelStem.fails operator).label line)
    = some (BitVec.ofNat 16 (pc + 14))
  setFalse : Installed program (pc + 14) (setTop (if false then .minusOne else .zero))
  done : program.symbols.find? (LabelStem.done.label line) = some (BitVec.ofNat 16 (pc + 17))

theorem comparisonAt_of_installed {pc : Nat} {operator : Comparison} {line : Nat}
    (h : Installed program pc (comparison operator line)) :
    ComparisonAt program pc operator line := by
  obtain ⟨h0, h1, h2, h3, h4, h5, h6, h7, h8, htaken, h9, h10, h11, h12, h13, hfails, h14, h15,
    h16, hdone, -⟩ := h
  exact ⟨⟨h0, h1, h2, h3, h4, h5, trivial⟩, h6, ⟨h7, h8, trivial⟩, htaken,
    ⟨h9, h10, h11, trivial⟩, ⟨h12, h13, trivial⟩, hfails, ⟨h14, h15, h16, trivial⟩, hdone⟩

/-- A comparison executes twelve of its operations, whether it holds or not. -/
theorem steps_comparison (h : program.symbols.KnowsRegisters) {operator : Comparison}
    {line : Nat} {s : Processor} (hcode : Installed program s.pc (comparison operator line))
    (hfit : s.pc + 17 < 65536) :
    ∃ t, Steps program 12 s t ∧ t.pc = s.pc + 17
      ∧ t.memory = (Command.arithmetic (.comparison operator)).result s.memory
          ((Command.arithmetic (.comparison operator)).settled s.memory) := by
  have hat := comparisonAt_of_installed hcode
  have hnat : ∀ k, k ≤ 17 → (BitVec.ofNat 16 (s.pc + k)).toNat = s.pc + k := by
    intro k hk
    rw [BitVec.toNat_ofNat]
    omega
  obtain ⟨hcompare, -⟩ :=
    steps_of_executeAll hat.compare rfl (executeAll_compareWith h hat.holds s)
  have hbranch := hcompare.tail (step_branch hat.branch)
  rw [isTaken_comparisonJump] at hbranch
  have hresult : ∀ b, operator.holds (s.memory.lowered.read (s.memory.sp - 2)
      - s.memory.lowered.read (s.memory.sp - 1)) = b →
      s.memory.lowered.write (s.memory.lowered.sp - 1) (Word.ofBool b)
        = (Command.arithmetic (.comparison operator)).result s.memory
            ((Command.arithmetic (.comparison operator)).settled s.memory) := by
    rintro b rfl
    rw [Memory.sp_lowered, sub_one_sub_one]
    rfl
  -- the two ways part after seven operations and have five each to the label at the end
  cases hholds : operator.holds (s.memory.lowered.read (s.memory.sp - 2)
      - s.memory.lowered.read (s.memory.sp - 1)) with
  | true =>
      obtain ⟨u, hu, hpc, hmemory⟩ : ∃ u, Steps program 7 s u ∧ u.pc = s.pc + 9
          ∧ u.memory = s.memory.lowered := by
        refine ⟨_, hbranch, ?_, rfl⟩
        simp only [Comp.eval, hholds, if_true, hnat 9 (by omega)]
      have htrue : Installed program u.pc (setTop (if true then .minusOne else .zero)) := by
        rw [hpc]
        exact hat.setTrue
      obtain ⟨hset, -⟩ := steps_of_executeAll htrue rfl (executeAll_setTop h true u)
      have hleave : Installed program (u.pc + 3) (jumpTo (LabelStem.done.label line)) := by
        rw [hpc]
        exact hat.leave
      refine ⟨_, hu.trans (hset.trans (steps_jumpTo hleave hat.done)), hnat 17 (by omega), ?_⟩
      rw [← hresult true hholds, ← hmemory]
  | false =>
      obtain ⟨u, hu, hpc, hmemory⟩ : ∃ u, Steps program 7 s u ∧ u.pc = s.pc + 7
          ∧ u.memory = s.memory.lowered := by
        refine ⟨_, hbranch, ?_, rfl⟩
        simp only [Comp.eval, hholds, Bool.false_eq_true, if_false]
      have hskip : Installed program u.pc (jumpTo ((LabelStem.fails operator).label line)) := by
        rw [hpc]
        exact hat.skip
      obtain ⟨v, hv, hvpc, hvmemory⟩ : ∃ v, Steps program 9 s v ∧ v.pc = s.pc + 14
          ∧ v.memory = s.memory.lowered :=
        ⟨_, hu.trans (steps_jumpTo hskip hat.fails), hnat 14 (by omega), hmemory⟩
      have hfalse : Installed program v.pc (setTop (if false then .minusOne else .zero)) := by
        rw [hvpc]
        exact hat.setFalse
      obtain ⟨hset, -⟩ := steps_of_executeAll hfalse rfl (executeAll_setTop h false v)
      refine ⟨_, hv.trans hset, ?_, ?_⟩
      · show v.pc + 3 = s.pc + 17
        rw [hvpc]
      · rw [← hresult false hholds, ← hvmemory]

end Code

end HackStack
