import HackStack.Proofs.Annotations
import HackStack.Proofs.SingleCommand

set_option autoImplicit false

/-! # What moving words leaves alone

A pop changes SP and the cell of its operand, and if that cell is found through a base register it
also leaves the address of the cell in cell 13 (`Command.read_result_pop`). Programs can name cell
13 themselves: it is `temp 8`, and no other cell of `temp` or `static` is touched besides
(`AtFragment.pop_keeps_direct_cells`). A word that is pushed and popped again stays where it is, and
so does all other memory, but for the cell above the stack that it went through and for cell 13
(`AtFragment.push_pop_round_trip`).
-/

namespace HackStack

/-! ## Operands with and without a base register -/

theorem BaseRegister.address_ne_zero (register : BaseRegister) : register.address ≠ 0 := by
  cases register <;> decide

theorem BaseRegister.address_ne_scratch (register : BaseRegister) : register.address ≠ 13 := by
  cases register <;> decide

namespace Operand

variable {operand : Operand} {register : BaseRegister} {memory : Memory} {cell : Word}

/-- The register that holds the beginning of the operand's segment, if there is one. -/
def register? : Operand → Option BaseRegister
  | .pointer _ => none
  | .cell segment _ =>
      match segment.base with
      | .indirect register => some register
      | _ => none

/-- An address that a pop to the operand does not use for itself: if there is a base register, it is
neither that register nor the cell where the target is parked. -/
def IsClearOf (operand : Operand) (address : Word) : Prop :=
  ∀ register, operand.register? = some register → address ≠ 13 ∧ address ≠ register.address

theorem IsClearOf.ne_scratch {address : Word} (h : operand.IsClearOf address)
    (hindirect : operand.register? ≠ none) : address ≠ 13 := by
  obtain ⟨register, hregister⟩ := Option.ne_none_iff_exists'.1 hindirect
  exact (h register hregister).1

theorem exists_address? (h : ∀ index, operand ≠ .cell .constant index) (memory : Memory) :
    ∃ cell, operand.address? memory = some cell := by
  cases operand with
  | pointer slot => exact ⟨slot.address, rfl⟩
  | cell segment index =>
      cases segment with
      | constant => exact absurd rfl (h index)
      | _ => exact ⟨_, rfl⟩

/-- The cell of an operand depends on its base register only. -/
theorem address?_congr {other : Memory} (h : ∀ register, operand.register? = some register →
      other.read register.address = memory.read register.address) :
    operand.address? other = operand.address? memory := by
  have hindirect : ∀ register index, operand.register? = some register →
      some (other.read register.address + index) = some (memory.read register.address + index) :=
    fun register index hregister => by rw [h register hregister]
  cases operand with
  | pointer slot => rfl
  | cell segment index =>
      cases segment with
      | constant => rfl
      | temp => rfl
      | static => rfl
      | _ => exact hindirect _ index rfl

theorem value_eq_read (h : operand.address? memory = some cell) :
    operand.value memory = memory.read cell := by
  obtain ⟨-, hread, -⟩ := operand.layout memory
  exact hread cell h

/-- Just the cells that are found through a base register are parked. -/
theorem parked?_eq (h : operand.address? memory = some cell) :
    operand.parked? memory = if operand.register? = none then none else some cell := by
  cases operand with
  | pointer slot => rfl
  | cell segment index => cases segment <;> cases h <;> rfl

/-- The indexes that are read from a line are those of the segment. -/
theorem hasIndex_of_parse {line : Nat} {text : String} {segment : Segment} {index : Word}
    (h : Command.parse line text = .ok (.push (.cell segment index))) :
    segment.HasIndex index.toNat := by
  have hpush : (Command.push (.cell segment index)).IsExpressible :=
    Command.isExpressible_of_parse h
  exact Segment.hasIndex_iff_le.2 hpush

theorem ne_constant_of_parse {line : Nat} {text : String}
    (h : Command.parse line text = .ok (.pop operand)) :
    ∀ index, operand ≠ .cell .constant index := by
  have hpop : (Command.pop operand).IsExpressible := Command.isExpressible_of_parse h
  exact hpop.2

end Operand

/-! ## The memory after a push and after a pop -/

namespace Command

variable {operand : Operand} {memory seen : Memory} {cell : Word}

theorem read_result_push (operand : Operand) (memory seen : Memory) (x : Word) :
    ((push operand).result memory seen).read x
      = if x = memory.sp then operand.value memory
        else if x = 0 then memory.sp + 1
        else memory.read x := by
  rw [result, Memory.read_write, Memory.read_write]

theorem read_settled_pop_of_address? (h : operand.address? memory = some cell) (x : Word) :
    (settled memory (.pop operand)).read x
      = if operand.register? ≠ none ∧ x = 13 then cell
        else if x = 0 then memory.sp - 1
        else memory.read x := by
  have hparked := Operand.parked?_eq h
  by_cases hregister : operand.register? = none
  · rw [if_pos hregister] at hparked
    rw [if_neg (fun hboth => hboth.1 hregister), settled, hparked]
    exact Memory.read_write _ _ _ _
  · rw [if_neg hregister] at hparked
    simp only [settled, hparked, Memory.lowered, Memory.read_write, ne_eq, hregister,
      not_false_eq_true, true_and]

/-- A pop writes its cell last, after SP and after the parked address. -/
theorem read_result_pop (h : operand.address? memory = some cell) (seen : Memory) (x : Word) :
    ((pop operand).result memory seen).read x
      = if x = cell then seen.read (memory.sp - 1)
        else (settled memory (.pop operand)).read x := by
  simp only [result, h, Memory.read_write]

/-- The memory after a push and a pop of the same operand: no cell has changed but the one at SP
and, for a cell that is found through a base register, the parked address. -/
theorem read_pop_push (hcell : operand.address? memory = some cell) (hsp : memory.sp ≠ 0)
    (hclear : operand.IsClearOf memory.sp) {pushed : Memory}
    (hpushed : pushed = (push operand).result memory seen) (x : Word) :
    ((pop operand).result pushed ((pop operand).settled pushed)).read x
      = if x = memory.sp then memory.read cell
        else if operand.register? ≠ none ∧ x = 13 ∧ cell ≠ 13 then cell
        else memory.read x := by
  have hread : ∀ x, pushed.read x = if x = memory.sp then memory.read cell
      else if x = 0 then memory.sp + 1 else memory.read x := by
    intro x
    rw [hpushed, read_result_push, Operand.value_eq_read hcell]
  have hraised : pushed.sp = memory.sp + 1 := by
    rw [Memory.sp, hread, if_neg hsp.symm, if_pos rfl]
  have hsame : operand.address? pushed = some cell := by
    rw [← hcell]
    refine Operand.address?_congr fun register hregister => ?_
    rw [hread, if_neg (hclear register hregister).2.symm, if_neg register.address_ne_zero]
  have hunparked : ¬(operand.register? ≠ none ∧ memory.sp = 13) :=
    fun h => hclear.ne_scratch h.1 h.2
  have hword : ((pop operand).settled pushed).read (pushed.sp - 1) = memory.read cell := by
    rw [hraised, BitVec.add_sub_cancel, read_settled_pop_of_address? hsame, if_neg hunparked,
      if_neg hsp, hread, if_pos rfl]
  rw [read_result_pop hsame, hword, read_settled_pop_of_address? hsame, hraised,
    BitVec.add_sub_cancel, hread]
  by_cases hx : x = cell
  · -- the word comes back to where it was
    rw [if_pos hx, hx]
    grind
  · -- a cell that is not SP is as it was before or is parked in
    have hzero : memory.read 0 = memory.sp := rfl
    grind

end Command

open Source Processor

/-! ## Popping past direct cells -/

/-- A pop to `target` leaves what `temp` and `static` hold in other cells, save that `temp 8` is the
cell where the target is parked. -/
structure KeepsDirectCells (target : Word) (before after : Memory) : Prop where
  temp : ∀ line text index, Command.parse line text = .ok (.push (.cell .temp index)) →
    5 + index ≠ target → index ≠ 8 →
    (Operand.cell .temp index).value after = (Operand.cell .temp index).value before
  static : ∀ line text index, Command.parse line text = .ok (.push (.cell .static index)) →
    16 + index ≠ target →
    (Operand.cell .static index).value after = (Operand.cell .static index).value before
  parked : 5 + 8 ≠ target → (Operand.cell .temp 8).value after = target

/-- Cells other than SP and cell 13 are touched by an indirect pop only if they are its target. -/
theorem Command.keepsDirectCells_pop {operand : Operand} {memory : Memory} {target : Word}
    (htarget : operand.address? memory = some target) (hindirect : operand.register? ≠ none)
    (seen : Memory) : KeepsDirectCells target memory ((pop operand).result memory seen) := by
  have hkept : ∀ x, x ≠ target → x ≠ 13 → x ≠ 0 →
      ((pop operand).result memory seen).read x = memory.read x := by
    intro x hx hscratch hzero
    rw [read_result_pop htarget, if_neg hx, read_settled_pop_of_address? htarget,
      if_neg fun hparked => hscratch hparked.2, if_neg hzero]
  refine ⟨fun line text index hparse hne hindex => ?_, fun line text index hparse hne => ?_,
    fun hne => ?_⟩
  · -- an index that can be read does not wrap around to SP
    have hbound : 5 + index.toNat ≤ 32767 := Operand.hasIndex_of_parse hparse
    exact hkept _ hne (by bv_omega) (by bv_omega)
  · have hbound : 16 + index.toNat ≤ 32767 := Operand.hasIndex_of_parse hparse
    exact hkept _ hne (by bv_omega) (by bv_omega)
  · show ((pop operand).result memory seen).read (5 + 8) = target
    rw [read_result_pop htarget, if_neg hne, read_settled_pop_of_address? htarget,
      if_pos ⟨hindirect, rfl⟩]

/-! ## Pushing and popping the same operand -/

/-- The memory is the same after a round trip of the word in a cell, but for the cell that SP points
to and, if the cell is found through a base register, for the parked address. -/
structure IsRoundTrip (operand : Operand) (cell : Word) (before after : Memory) : Prop where
  sp : after.sp = before.sp
  address : operand.address? after = some cell
  word : after.read cell = before.read cell
  above : after.read before.sp = before.read cell
  parked : operand.register? ≠ none → after.read 13 = if cell = 13 then before.read 13 else cell
  elsewhere : ∀ x, x ≠ before.sp → (operand.register? ≠ none → x ≠ 13) →
    after.read x = before.read x

theorem Command.isRoundTrip_pop_push {operand : Operand} {memory seen pushed : Memory} {cell : Word}
    (hcell : operand.address? memory = some cell) (hsp : memory.sp ≠ 0)
    (hclear : operand.IsClearOf memory.sp)
    (hpushed : pushed = (push operand).result memory seen) :
    IsRoundTrip operand cell memory
      ((pop operand).result pushed ((pop operand).settled pushed)) := by
  have hread := read_pop_push hcell hsp hclear hpushed
  refine ⟨?_, ?_, ?_, ?_, fun hindirect => ?_, fun x hx hparked => ?_⟩
  · rw [Memory.sp, hread, if_neg hsp.symm, if_neg (fun h => absurd h.2.1 (by decide))]
    rfl
  · rw [← hcell]
    refine Operand.address?_congr fun register hregister => ?_
    rw [hread, if_neg (hclear register hregister).2.symm,
      if_neg fun h => register.address_ne_scratch h.2.1]
  · rw [hread]
    grind
  · rw [hread, if_pos rfl]
  · rw [hread, if_neg (hclear.ne_scratch hindirect).symm]
    grind
  · rw [hread, if_neg hx, if_neg fun h => hparked h.1 h.2.1]

/-! ## The code of moves -/

/-- Commands that can be read and declare no labels are those of a source that can be loaded. -/
theorem Source.exists_load_of_commands {commands : List Command}
    (h : ∀ command ∈ commands, command ≠ .comment
      ∧ ∃ line text, Command.parse line text = .ok command)
    (hlabels : ∀ name, .label name ∉ commands) :
    ∃ source fragments program, compile source = .ok fragments
      ∧ fragments.map Fragment.command = commands
      ∧ Program.load (instructions fragments) = .ok program := by
  obtain ⟨fragments, hcompile, hcommands⟩ := exists_compile_texts h
  have hnone : declaredLabels fragments = [] := by
    refine List.eq_nil_iff_forall_not_mem.2 fun name hname => hlabels name ?_
    rw [← hcommands]
    exact mem_declaredLabels_iff.1 hname
  obtain ⟨program, hprogram⟩ := exists_load_of_compile hcompile hnone
  exact ⟨_, fragments, program, hcompile, hcommands, hprogram⟩

namespace AtFragment

variable {line : Nat} {text : String}

/-- **The scratch cell is `temp 8`.** A pop to a segment with a base register can be compiled and
loaded whenever it can be read. In whatever program and memory it is executed, its code ends with
all cells of `temp` and `static` holding what they held, except for its target, the base register's
content plus the index, and for `temp 8`, which holds the address of the target. -/
theorem pop_keeps_direct_cells {segment : Segment} {index : Word} {register : BaseRegister}
    (hparse : Command.parse line text = .ok (.pop (.cell segment index)))
    (hbase : segment.base = .indirect register) :
    (∃ source fragments program, compile source = .ok fragments
        ∧ fragments.map Fragment.command = [.pop (.cell segment index)]
        ∧ Program.load (instructions fragments) = .ok program)
      ∧ ∀ {source fragments program i fragment s},
        AtFragment source fragments program i fragment s →
        fragment.command = .pop (.cell segment index) →
        ∃ t, Steps program fragment.size s t ∧ t.pc = address fragments (i + 1)
          ∧ KeepsDirectCells (s.memory.read register.address + index) s.memory t.memory := by
  refine ⟨exists_load_of_commands (by simpa using ⟨line, text, hparse⟩) (by simp),
    fun hat hcommand => ?_⟩
  obtain ⟨t, hsteps, hpc, hmemory⟩ := hat.steps_pop hcommand
  refine ⟨t, hsteps, hpc, ?_⟩
  rw [hmemory]
  refine Command.keepsDirectCells_pop ?_ ?_ _
  · rw [Operand.address?, hbase]
  · rw [Operand.register?, hbase]
    exact Option.some_ne_none register

/-- A pop to `local 0` with the target 300 can be executed where cell 13 holds another address. -/
theorem exists_atFragment_pop :
    ∃ fragments program fragment s, AtFragment "pop local 0" fragments program 0 fragment s
      ∧ fragment.command = .pop (.cell .locals 0) ∧ fragment.size = 12
      ∧ s.memory.sp = 257 ∧ s.memory.read 1 = 300 ∧ s.memory.read 13 = 7 := by
  have h : compile "pop local 0" = .ok
      [⟨1, .pop (.cell .locals 0),
        [.load "LCL", .store .toD (.input .m), .loadConstant 0, .store .toD (.dPlus .a),
            .load Code.scratch, .store .toM .d]
          ++ Code.popD ++ [.load Code.scratch, .store .toA (.input .m), .store .toM .d]⟩] := by
    rw [compile_eq_yields]
    rfl
  obtain ⟨program, hprogram⟩ := exists_load_of_compile h rfl
  obtain ⟨memory, hsp, hbase, hscratch⟩ : ∃ memory : Memory,
      memory.sp = 257 ∧ memory.read 1 = 300 ∧ memory.read 13 = 7 := by
    refine ⟨(Memory.fill 0).writeAll [(0, 257), (1, 300), (13, 7)], ?_, ?_, ?_⟩ <;>
      simp [Memory.sp, Memory.writeAll, Memory.read_write]
  exact ⟨_, program, _, .start memory, ⟨h, hprogram, rfl, rfl⟩, rfl, rfl, hsp, hbase, hscratch⟩

/-- The cells around `temp 8` stay as they are. -/
theorem pop_keeps_direct_cells_local :
    ∃ fragments program fragment s t,
      AtFragment "pop local 0" fragments program 0 fragment s ∧ Steps program 12 s t
        ∧ (Operand.cell .temp 7).value t.memory = (Operand.cell .temp 7).value s.memory
        ∧ (Operand.cell .temp 9).value t.memory = (Operand.cell .temp 9).value s.memory
        ∧ (Operand.cell .static 0).value t.memory = (Operand.cell .static 0).value s.memory
        ∧ (Operand.cell .temp 8).value t.memory = 300 := by
  obtain ⟨fragments, program, fragment, s, hat, hcommand, hsize, -, hbase, -⟩ :=
    exists_atFragment_pop
  have hparse : Command.parse 1 "pop local 0" = .ok (.pop (.cell .locals 0)) := rfl
  have hregister : Segment.locals.base = .indirect .lcl := rfl
  obtain ⟨-, hpop⟩ := pop_keeps_direct_cells hparse hregister
  obtain ⟨t, hsteps, -, hkeeps⟩ := hpop hat hcommand
  have htarget : s.memory.read BaseRegister.lcl.address + 0 = 300 := by
    rw [BaseRegister.address, hbase]
    rfl
  rw [htarget] at hkeeps
  rw [hsize] at hsteps
  exact ⟨fragments, program, fragment, s, t, hat, hsteps,
    hkeeps.temp 1 "push temp 7" 7 rfl (by decide) (by decide),
    hkeeps.temp 1 "push temp 9" 9 rfl (by decide) (by decide),
    hkeeps.static 1 "push static 0" 0 rfl (by decide), hkeeps.parked (by decide)⟩

/-- What `temp 8` held is lost in a pop to `local 0`. -/
theorem pop_overwrites_temp_eight :
    ∃ fragments program fragment s t,
      AtFragment "pop local 0" fragments program 0 fragment s
        ∧ Command.parse 1 "push temp 8" = .ok (.push (.cell .temp 8))
        ∧ s.memory.sp = 257 ∧ 5 + 8 ≠ s.memory.read 1 + 0
        ∧ Steps program fragment.size s t ∧ t.pc = address fragments 1
        ∧ (Operand.cell .temp 8).value s.memory = 7
        ∧ (Operand.cell .temp 8).value t.memory = 300 := by
  obtain ⟨fragments, program, fragment, s, hat, hcommand, -, hsp, hbase, hscratch⟩ :=
    exists_atFragment_pop
  obtain ⟨t, hsteps, hpc, hmemory⟩ := hat.steps_pop hcommand
  have htarget : (Operand.cell .locals 0).address? s.memory = some 300 := by
    show some (s.memory.read 1 + 0) = some 300
    rw [hbase]
    rfl
  have hkeeps := Command.keepsDirectCells_pop htarget (by decide)
    ((Command.pop (.cell .locals 0)).settled s.memory)
  rw [← hmemory] at hkeeps
  exact ⟨fragments, program, fragment, s, t, hat, rfl, hsp, by rw [hbase]; decide, hsteps, hpc,
    hscratch, hkeeps.parked (by decide)⟩

/-- **Round trips.** Pushing from an operand and popping to it again can be compiled and loaded
whenever the pop can be read. In whatever program the two commands follow each other, and in every
memory in which SP is not 0 and, for an operand with a base register, neither 13 nor that register,
their code ends with the memory as it was, but for the word above the stack and, with a base
register, the address in cell 13. -/
theorem push_pop_round_trip {operand : Operand}
    (hparse : Command.parse line text = .ok (.pop operand)) :
    (∃ source fragments program, compile source = .ok fragments
        ∧ fragments.map Fragment.command = [.push operand, .pop operand]
        ∧ Program.load (instructions fragments) = .ok program)
      ∧ ∀ {source fragments program i first second s},
        AtFragment source fragments program i first s → fragments[i + 1]? = some second →
        first.command = .push operand → second.command = .pop operand →
        s.memory.sp ≠ 0 →
        operand.IsClearOf s.memory.sp →
        ∃ cell t, operand.address? s.memory = some cell
          ∧ Steps program (first.size + second.size) s t ∧ t.pc = address fragments (i + 2)
          ∧ IsRoundTrip operand cell s.memory t.memory := by
  have hmoves : ∀ command ∈ [Command.push operand, Command.pop operand], command ≠ .comment
      ∧ ∃ line text, Command.parse line text = .ok command := by
    simpa using ⟨⟨line, _, Command.parse_text_push hparse line⟩, ⟨line, text, hparse⟩⟩
  refine ⟨exists_load_of_commands hmoves (by simp), ?_⟩
  intro source fragments program i first second s hat hsecond hpush hpop hsp hclear
  obtain ⟨cell, hcell⟩ := Operand.exists_address? (Operand.ne_constant_of_parse hparse) s.memory
  obtain ⟨u, hpushed, hu, humemory⟩ := hat.steps_push hpush
  obtain ⟨t, hpopped, ht, htmemory⟩ :=
    AtFragment.steps_pop ⟨hat.compiles, hat.loads, hsecond, hu⟩ hpop
  refine ⟨cell, t, hcell, hpushed.trans hpopped, ht, ?_⟩
  rw [htmemory]
  exact Command.isRoundTrip_pop_push hcell hsp hclear humemory

/-- The target of this round trip is the scratch cell, so no other cell shows the address. -/
theorem push_pop_round_trip_scratch :
    ∃ fragments program s t, compile "push local 0\npop local 0" = .ok fragments
      ∧ Program.load (instructions fragments) = .ok program
      ∧ s.memory.sp = 256 ∧ s.memory.read 1 = 13
      ∧ Steps program 21 s t ∧ ∀ x, x ≠ 256 → t.memory.read x = s.memory.read x := by
  have h : compile "push local 0\npop local 0" = .ok
      [⟨1, .push (.cell .locals 0),
          [.load "LCL", .store .toD (.input .m), .loadConstant 0, .store .toA (.dPlus .a),
              .store .toD (.input .m)]
            ++ Code.pushD⟩,
        ⟨2, .pop (.cell .locals 0),
          [.load "LCL", .store .toD (.input .m), .loadConstant 0, .store .toD (.dPlus .a),
              .load Code.scratch, .store .toM .d]
            ++ Code.popD ++ [.load Code.scratch, .store .toA (.input .m), .store .toM .d]⟩] := by
    rw [compile_eq_yields]
    rfl
  obtain ⟨program, hprogram⟩ := exists_load_of_compile h rfl
  obtain ⟨memory, hsp, hbase⟩ : ∃ memory : Memory, memory.sp = 256 ∧ memory.read 1 = 13 := by
    refine ⟨(Memory.fill 0).writeAll [(0, 256), (1, 13)], ?_, ?_⟩ <;>
      simp [Memory.sp, Memory.writeAll, Memory.read_write]
  have hat : AtFragment _ _ program 0 _ (.start memory) := ⟨h, hprogram, rfl, rfl⟩
  have hparse : Command.parse 1 "pop local 0" = .ok (.pop (.cell .locals 0)) := rfl
  obtain ⟨-, htrip⟩ := push_pop_round_trip hparse
  have hclear : (Operand.cell .locals 0).IsClearOf memory.sp := by
    rw [hsp]
    rintro register hregister
    cases hregister
    decide
  obtain ⟨cell, t, hcell, hsteps, -, hsame⟩ :=
    htrip hat rfl rfl rfl (by rw [Processor.start, hsp]; decide) hclear
  obtain rfl : cell = 13 := by
    have haddress : some (memory.read 1 + 0) = some cell := hcell
    rw [hbase] at haddress
    exact (Option.some.inj haddress).symm
  refine ⟨_, program, .start memory, t, h, hprogram, hsp, hbase, hsteps, fun x hx => ?_⟩
  by_cases hscratch : x = 13
  · rw [hscratch, hsame.parked (by decide), if_pos rfl]
  · exact hsame.elsewhere x (hsp ▸ hx) fun _ => hscratch

end AtFragment

end HackStack
