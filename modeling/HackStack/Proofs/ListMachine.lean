import Mathlib.Logic.Function.Basic
import HackStack.Machine.Run
import HackStack.Proofs.StackMachine

set_option autoImplicit false

/-! # Programs on a list of words

A program that leaves the base registers alone can be understood without any memory: its stack is a
list of words, and its variables are independent of each other and of the stack. The machine for
such programs is defined here. It stops where a word is missing on the stack.

`Represents` says when a memory holds such a stack and such variables. It is kept by every command
(`Represents.next`), because the stack begins above all variables, and SP is none of them.
-/

namespace HackStack

/-! ## The machine -/

/-- The cells that a program can name without a base register and that lie below the stack. -/
inductive Variable
  | temp (index : Fin 11)
  | static (index : Fin 240)
  | pointer (slot : PointerSlot)
  deriving DecidableEq, Repr

namespace Variable

/-- The variable in a program. -/
def operand : Variable → Operand
  | .temp index => .cell .temp (BitVec.ofNat 16 index)
  | .static index => .cell .static (BitVec.ofNat 16 index)
  | .pointer slot => .pointer slot

/-- The number of the memory cell that is the variable. -/
def number : Variable → Nat
  | .pointer .this => 3
  | .pointer .that => 4
  | .temp index => 5 + index
  | .static index => 16 + index

def address (v : Variable) : Word := BitVec.ofNat 16 v.number

/-- The variable in a memory cell. -/
def ofNumber? (n : Nat) : Option Variable :=
  if n = 3 then some (.pointer .this)
  else if n = 4 then some (.pointer .that)
  else if h : 5 ≤ n ∧ n < 16 then some (.temp ⟨n - 5, by omega⟩)
  else if h : 16 ≤ n ∧ n < 256 then some (.static ⟨n - 16, by omega⟩)
  else none

end Variable

namespace Operator

/-- Applies an operator to the words on a stack, the top first, if there are enough of them. -/
def applyTo? : Operator → List Word → Option (List Word)
  | .unary operator, x :: rest => some (operator.apply x :: rest)
  | .binary operator, y :: x :: rest => some (operator.apply x y :: rest)
  | .comparison operator, y :: x :: rest =>
      some (Word.ofBool (operator.holds (x - y)) :: rest)
  | _, _ => none

end Operator

namespace ListMachine

/-- The commands of the machine. -/
inductive Action
  | constant (value : Word)
  | push (v : Variable)
  | pop (v : Variable)
  | arithmetic (operator : Operator)
  | label (name : String)
  | goto (name : String)
  | ifGoto (name : String)
  deriving DecidableEq, Repr

/-- The command in a program. -/
def Action.command : Action → Command
  | .constant value => .push (.cell .constant value)
  | .push v => .push v.operand
  | .pop v => .pop v.operand
  | .arithmetic operator => .arithmetic operator
  | .label name => .label name
  | .goto name => .goto name
  | .ifGoto name => .ifGoto name

structure State where
  /-- the number of the command to execute next -/
  position : Nat
  /-- the words on the stack, the top first -/
  stack : List Word
  values : Variable → Word

/-- The state before a run: the stack is empty, and the variables are what memory holds. -/
def start (memory : Memory) : State := ⟨0, [], fun v => memory.read v.address⟩

/-- The state after a command, unless the stack has too few words for it. -/
def next? (actions : List Action) (s : State) : Action → Option State
  | .constant value => some { s with position := s.position + 1, stack := value :: s.stack }
  | .push v => some { s with position := s.position + 1, stack := s.values v :: s.stack }
  | .pop v =>
      match s.stack with
      | [] => none
      | x :: rest => some ⟨s.position + 1, rest, Function.update s.values v x⟩
  | .arithmetic operator =>
      (operator.applyTo? s.stack).map fun stack =>
        { s with position := s.position + 1, stack := stack }
  | .label _ => some { s with position := s.position + 1 }
  | .goto name => some { s with position := actions.idxOf (.label name) }
  | .ifGoto name =>
      match s.stack with
      | [] => none
      | x :: rest =>
          some
            { s with
              position := if x = 0 then s.position + 1 else actions.idxOf (.label name)
              stack := rest }

/-- Executes the next command; past the last one nothing happens. -/
def step? (actions : List Action) (s : State) : Option State :=
  match actions[s.position]? with
  | none => some s
  | some action => next? actions s action

/-- The state after so many commands. -/
def run? (actions : List Action) (s : State) : Nat → Option State
  | 0 => some s
  | n + 1 => (run? actions s n).bind (step? actions)

/-- A loop that counts a variable down to zero. -/
example :
    (run? [.constant 2, .pop (.temp 0), .label "A", .push (.temp 0), .constant 1,
        .arithmetic (.binary .sub), .pop (.temp 0), .push (.temp 0), .ifGoto "A"]
      ⟨0, [], fun _ => 0⟩ 16).map (fun s => (s.position, s.stack, s.values (.temp 0)))
      = some (9, [], 0) := by decide

end ListMachine

/-! ## Variables as operands -/

namespace Variable

/-- Variables lie above SP and the first base registers, and below the stack. -/
theorem number_bounds (v : Variable) : 3 ≤ v.number ∧ v.number < 256 := by
  match v with
  | .pointer .this => decide
  | .pointer .that => decide
  | .temp index =>
      show 3 ≤ 5 + (index : Nat) ∧ 5 + (index : Nat) < 256
      omega
  | .static index =>
      show 3 ≤ 16 + (index : Nat) ∧ 16 + (index : Nat) < 256
      omega

theorem toNat_address (v : Variable) : v.address.toNat = v.number := by
  have hbounds := v.number_bounds
  rw [address, BitVec.toNat_ofNat]
  omega

theorem address_ne_zero (v : Variable) : v.address ≠ 0 := by
  have hbounds := v.number_bounds
  have hnumber := v.toNat_address
  bv_omega

theorem ofNumber?_number (v : Variable) : ofNumber? v.number = some v := by
  match v with
  | .pointer .this => rfl
  | .pointer .that => rfl
  | .temp index =>
      have hindex := index.isLt
      show ofNumber? (5 + index) = _
      rw [ofNumber?, if_neg (by omega), if_neg (by omega), dif_pos (by omega)]
      simp
  | .static index =>
      have hindex := index.isLt
      show ofNumber? (16 + index) = _
      rw [ofNumber?, if_neg (by omega), if_neg (by omega), dif_neg (by omega),
        dif_pos (by omega)]
      simp

/-- Every cell from the first variable up to the stack is a variable. -/
theorem exists_number {n : Nat} (hle : 3 ≤ n) (hlt : n < 256) : ∃ v : Variable, v.number = n := by
  rcases Nat.lt_or_ge n 5 with hfive | hfive
  · obtain rfl | rfl : n = 3 ∨ n = 4 := by omega
    · exact ⟨.pointer .this, rfl⟩
    · exact ⟨.pointer .that, rfl⟩
  · rcases Nat.lt_or_ge n 16 with hsixteen | hsixteen
    · exact ⟨.temp ⟨n - 5, by omega⟩, Nat.add_sub_cancel' hfive⟩
    · exact ⟨.static ⟨n - 16, by omega⟩, Nat.add_sub_cancel' hsixteen⟩

/-- No two variables share a cell. -/
theorem address_injective {v w : Variable} (h : v.address = w.address) : v = w := by
  have hnumber : v.number = w.number := by rw [← toNat_address, ← toNat_address, h]
  have hsame := v.ofNumber?_number
  rw [hnumber, ofNumber?_number] at hsame
  exact (Option.some.inj hsame).symm

theorem address?_operand (v : Variable) (memory : Memory) :
    v.operand.address? memory = some v.address := by
  match v with
  | .pointer .this => rfl
  | .pointer .that => rfl
  | .temp index => exact congrArg some (BitVec.ofNat_add 5 (index : Nat)).symm
  | .static index => exact congrArg some (BitVec.ofNat_add 16 (index : Nat)).symm

theorem value_operand (v : Variable) (memory : Memory) :
    v.operand.value memory = memory.read v.address := by
  match v with
  | .pointer .this => rfl
  | .pointer .that => rfl
  | .temp index => exact congrArg memory.read (BitVec.ofNat_add 5 (index : Nat)).symm
  | .static index => exact congrArg memory.read (BitVec.ofNat_add 16 (index : Nat)).symm

theorem parked?_operand (v : Variable) (memory : Memory) :
    v.operand.parked? memory = none := by
  cases v <;> rfl

end Variable

namespace ListMachine

/-! ## What memory holds -/

/-- The words of a stack lie in memory one after the other, the lowest at the base. -/
def Stacked (memory : Memory) : List Word → Prop
  | [] => True
  | x :: rest => memory.read (BitVec.ofNat 16 (256 + rest.length)) = x ∧ Stacked memory rest

/-- The memory holds the stack, under SP, and the variables. -/
structure Represents (memory : Memory) (stack : List Word) (values : Variable → Word) :
    Prop where
  sp : memory.sp = BitVec.ofNat 16 (256 + stack.length)
  fits : 256 + stack.length < 65536
  words : Stacked memory stack
  values : ∀ v, memory.read v.address = values v

/-- A cell that is neither SP nor a variable nor under the top of a stack of a height. -/
structure IsFree (height : Nat) (address : Word) : Prop where
  not_sp : address ≠ 0
  not_variable : ∀ v : Variable, address ≠ v.address
  not_stack : ¬ (256 ≤ address.toNat ∧ address.toNat < 256 + height)

/-- The free cells are two registers that such programs do not use, and those past the stack. -/
theorem isFree_iff {height : Nat} {address : Word} :
    IsFree height address ↔ address = 1 ∨ address = 2 ∨ 256 + height ≤ address.toNat := by
  constructor
  · -- any other cell below the stack is SP or has the number of a variable
    intro h
    by_contra hnone
    rw [not_or, not_or] at hnone
    obtain ⟨hone, htwo, hbelow⟩ := hnone
    have hzero := h.not_sp
    have hstack := h.not_stack
    obtain ⟨v, hv⟩ := Variable.exists_number (n := address.toNat) (by bv_omega) (by bv_omega)
    rw [← v.toNat_address] at hv
    exact h.not_variable v (BitVec.eq_of_toNat_eq hv.symm)
  · intro h
    have hnat : address.toNat = 1 ∨ address.toNat = 2 ∨ 256 + height ≤ address.toNat := by
      rcases h with rfl | rfl | h
      · exact Or.inl rfl
      · exact Or.inr (Or.inl rfl)
      · exact Or.inr (Or.inr h)
    refine ⟨by bv_omega, fun v => ?_, by omega⟩
    rintro rfl
    have hbounds := v.number_bounds
    rw [v.toNat_address] at hnat
    omega

theorem Stacked.write {memory : Memory} {stack : List Word} (h : Stacked memory stack)
    (hfits : 256 + stack.length ≤ 65536) {address : Word}
    (haddress : address.toNat < 256 ∨ 256 + stack.length ≤ address.toNat) (value : Word) :
    Stacked (memory.write address value) stack := by
  induction stack with
  | nil => trivial
  | cons x rest ih =>
      -- the top lies just past the rest, so the write misses it as well
      rw [List.length_cons] at hfits haddress
      have hne : BitVec.ofNat 16 (256 + rest.length) ≠ address := by
        intro heq
        have hnat := congrArg BitVec.toNat heq
        rw [BitVec.toNat_ofNat] at hnat
        omega
      refine ⟨?_, ih h.2 (by omega) (by omega)⟩
      rw [Memory.read_write_of_ne hne]
      exact h.1

/-- The words from the base up, as they are reported after a run. -/
theorem Stacked.map_read {memory : Memory} {stack : List Word} (h : Stacked memory stack) :
    (List.range stack.length).map (fun i => memory.read (Machine.stackBase + BitVec.ofNat 16 i))
      = stack.reverse := by
  induction stack with
  | nil => rfl
  | cons x rest ih =>
      have htop : memory.read (Machine.stackBase + BitVec.ofNat 16 rest.length) = x := by
        rw [← h.1, BitVec.ofNat_add]
        rfl
      rw [List.length_cons, List.range_succ, List.map_append, ih h.2, List.map_singleton, htop,
        List.reverse_cons]

namespace Represents

variable {memory : Memory} {stack rest : List Word} {values : Variable → Word} {x y : Word}

theorem toNat_sp (h : Represents memory stack values) :
    memory.sp.toNat = 256 + stack.length := by
  have hfits := h.fits
  rw [h.sp, BitVec.toNat_ofNat]
  omega

/-- SP is far above the cells in which taking a word off the stack would be disturbed. -/
theorem isUndisturbed (h : Represents memory stack values) (action : Action) :
    action.command.IsUndisturbed memory := by
  have hsp := h.toNat_sp
  have hone : memory.sp ≠ 1 := by bv_omega
  have htwo : memory.sp ≠ 2 := by bv_omega
  -- the other commands take nothing off the stack
  cases action with
  | pop v => exact ⟨hone, fun hparked => absurd (v.parked?_operand memory) hparked⟩
  | ifGoto name => exact hone
  | arithmetic operator =>
      cases operator with
      | unary operator => trivial
      | binary operator => exact ⟨hone, htwo⟩
      | comparison operator => exact ⟨hone, htwo⟩
  | constant value => trivial
  | push v => trivial
  | label name => trivial
  | goto name => trivial

theorem top_address (h : Represents memory (x :: rest) values) :
    memory.sp - 1 = BitVec.ofNat 16 (256 + rest.length) := by
  have hsp := h.toNat_sp
  rw [List.length_cons] at hsp
  bv_omega

theorem top (h : Represents memory (x :: rest) values) :
    memory.read (memory.sp - 1) = x := by
  rw [h.top_address]
  exact h.words.1

theorem second (h : Represents memory (y :: x :: rest) values) :
    memory.read (memory.sp - 2) = x := by
  have hsp := h.toNat_sp
  have haddress : memory.sp - 2 = BitVec.ofNat 16 (256 + rest.length) := by
    rw [List.length_cons, List.length_cons] at hsp
    bv_omega
  rw [haddress]
  exact h.words.2.1

/-- Taking the top off the stack. -/
theorem lowered (h : Represents memory (x :: rest) values) :
    Represents memory.lowered rest values := by
  have hfits := h.fits
  rw [List.length_cons] at hfits
  refine ⟨?_, by omega, h.words.2.write (by omega) (Or.inl (by decide)) _, fun v => ?_⟩
  · rw [Memory.sp_lowered, h.top_address]
  · rw [Memory.read_lowered_of_ne v.address_ne_zero, h.values]

/-- Replacing the top of the stack. -/
theorem write_top (h : Represents memory (x :: rest) values) (value : Word) :
    Represents (memory.write (memory.sp - 1) value) (value :: rest) values := by
  have hfits := h.fits
  rw [List.length_cons] at hfits
  have hnat : (BitVec.ofNat 16 (256 + rest.length)).toNat = 256 + rest.length := by
    rw [BitVec.toNat_ofNat]
    omega
  rw [h.top_address]
  refine ⟨?_, h.fits, ⟨Memory.read_write_self _ _ _, ?_⟩, fun v => ?_⟩
  · rw [Memory.sp, Memory.read_write_of_ne (by bv_omega)]
    exact h.sp
  · exact h.words.2.write (by omega) (Or.inr (by omega)) value
  · have hbounds := v.number_bounds
    have hvariable := v.toNat_address
    rw [Memory.read_write_of_ne (by bv_omega), h.values]

/-- Putting a word on the stack. -/
theorem push (h : Represents memory stack values) (hfits : 256 + (stack.length + 1) < 65536)
    (value : Word) :
    Represents ((memory.write 0 (memory.sp + 1)).write memory.sp value) (value :: stack)
      values := by
  have hsp := h.toNat_sp
  refine ⟨?_, by simpa using hfits, ⟨?_, ?_⟩, fun v => ?_⟩
  · rw [Memory.sp, Memory.read_write_of_ne (by bv_omega), Memory.read_write_self, List.length_cons]
    bv_omega
  · rw [← h.sp, Memory.read_write_self]
  · -- one write is below the stack, the other one just above it
    have hraised := h.words.write (by omega) (Or.inl (by decide : (0 : Word).toNat < 256))
      (memory.sp + 1)
    exact hraised.write (by omega) (Or.inr (by omega)) value
  · have hbounds := v.number_bounds
    have hvariable := v.toNat_address
    rw [Memory.read_write_of_ne (by bv_omega), Memory.read_write_of_ne v.address_ne_zero,
      h.values]

/-- Assigning a word to a variable. -/
theorem assign (h : Represents memory stack values) (v : Variable) (value : Word) :
    Represents (memory.write v.address value) stack (Function.update values v value) := by
  have hfits := h.fits
  have hbounds := v.number_bounds
  have hvariable := v.toNat_address
  refine ⟨?_, h.fits, h.words.write (by omega) (Or.inl (by omega)) value, fun w => ?_⟩
  · rw [Memory.sp, Memory.read_write_of_ne v.address_ne_zero.symm]
    exact h.sp
  · by_cases hsame : w = v
    · rw [hsame, Memory.read_write_self, Function.update_self]
    · rw [Memory.read_write_of_ne fun heq => hsame (Variable.address_injective heq),
        Function.update_of_ne hsame, h.values]

/-- An operator does to the cells under SP what it does to the list. -/
theorem applyTo? (h : Represents memory stack values) {operator : Operator}
    (happly : operator.applyTo? stack = some rest) :
    Represents ((Command.arithmetic operator).result memory memory) rest values := by
  match operator, stack, happly with
  | .unary operator, x :: rest, rfl =>
      show Represents (memory.write _ (operator.apply (memory.read (memory.sp - 1)))) _ _
      rw [h.top]
      exact h.write_top _
  | .binary operator, y :: x :: rest, rfl =>
      -- the word below becomes the top, and is replaced
      have hresult := h.lowered.write_top (operator.apply x y)
      rw [Memory.sp_lowered, BitVec.sub_sub] at hresult
      show Represents (memory.lowered.write _ (operator.apply (memory.read (memory.sp - 2))
        (memory.read (memory.sp - 1)))) _ _
      rw [h.top, h.second]
      exact hresult
  | .comparison operator, y :: x :: rest, rfl =>
      have hresult := h.lowered.write_top (Word.ofBool (operator.holds (x - y)))
      rw [Memory.sp_lowered, BitVec.sub_sub] at hresult
      show Represents (memory.lowered.write _ (Word.ofBool (operator.holds
        (memory.read (memory.sp - 2) - memory.read (memory.sp - 1))))) _ _
      rw [h.top, h.second]
      exact hresult

end Represents

/-! ## One command -/

section Next

variable {memory : Memory} {actions : List Action} {s t : State} {action : Action}

theorem result_pop (v : Variable) (memory : Memory) :
    (Action.pop v).command.result memory memory
      = memory.lowered.write v.address (memory.read (memory.sp - 1)) := by
  simp only [Action.command, Command.result, Command.settled, v.address?_operand,
    v.parked?_operand]

/-- **The cells after a command** are the stack and the variables after it, as long as the stack
fits into memory. -/
theorem Represents.next (h : Represents memory s.stack s.values)
    (hnext : next? actions s action = some t) (hfits : 256 + t.stack.length < 65536) :
    Represents (action.command.result memory memory) t.stack t.values := by
  obtain ⟨position, stack, values⟩ := s
  cases action with
  | constant value =>
      cases hnext
      exact h.push hfits value
  | push v =>
      cases hnext
      have hresult : (Action.push v).command.result memory memory
          = (memory.write 0 (memory.sp + 1)).write memory.sp (values v) := by
        have hvalue : v.operand.value memory = values v :=
          (v.value_operand memory).trans (h.values v)
        rw [← hvalue]
        rfl
      rw [hresult]
      exact h.push hfits (values v)
  | pop v =>
      cases stack with
      | nil => cases hnext
      | cons x rest =>
          cases hnext
          rw [result_pop, h.top]
          exact h.lowered.assign v x
  | arithmetic operator =>
      obtain ⟨stack', happly, rfl⟩ := Option.map_eq_some_iff.1 hnext
      exact h.applyTo? happly
  | label name =>
      cases hnext
      exact h
  | goto name =>
      cases hnext
      exact h
  | ifGoto name =>
      cases stack with
      | nil => cases hnext
      | cons x rest =>
          cases hnext
          exact h.lowered

theorem idxOf_label (actions : List Action) (name : String) :
    (actions.map Action.command).idxOf (.label name) = actions.idxOf (.label name) := by
  rw [List.idxOf, List.idxOf, List.findIdx_map]
  congr 1
  funext action
  cases action with
  | label other =>
      show ((Command.label other) == (Command.label name)) = ((Action.label other) == .label name)
      rw [Bool.eq_iff_iff, beq_iff_eq, beq_iff_eq]
      simp
  | _ => rfl

/-- Control goes on at the same command. -/
theorem Represents.position_next (h : Represents memory s.stack s.values)
    (hnext : next? actions s action = some t) :
    StackMachine.goOn (actions.map Action.command) s.position
      (action.command.jump? memory memory) = t.position := by
  obtain ⟨position, stack, values⟩ := s
  cases action with
  | goto name =>
      cases hnext
      exact idxOf_label actions name
  | ifGoto name =>
      cases stack with
      | nil => cases hnext
      | cons x rest =>
          cases hnext
          show StackMachine.goOn _ _
            (if memory.read (memory.sp - 1) = 0 then none else some name) = _
          rw [h.top]
          by_cases hzero : x = 0
          · rw [if_pos hzero, if_pos hzero]
            rfl
          · rw [if_neg hzero, if_neg hzero]
            exact idxOf_label actions name
  | pop v =>
      cases stack with
      | nil => cases hnext
      | cons x rest =>
          cases hnext
          rfl
  | arithmetic operator =>
      obtain ⟨stack', -, rfl⟩ := Option.map_eq_some_iff.1 hnext
      rfl
  | constant value =>
      cases hnext
      rfl
  | push v =>
      cases hnext
      rfl
  | label name =>
      cases hnext
      rfl

theorem IsFree.ne_of_lt {height : Nat} {address other : Word} (h : IsFree height address)
    (hle : 256 ≤ other.toNat) (hlt : other.toNat < 256 + height) : address ≠ other := by
  rintro rfl
  exact h.not_stack ⟨hle, hlt⟩

theorem Represents.read_push {stack : List Word} {values : Variable → Word} {address : Word}
    (h : Represents memory stack values) (hfree : IsFree (stack.length + 1) address)
    (value : Word) :
    ((memory.write 0 (memory.sp + 1)).write memory.sp value).read address
      = memory.read address := by
  have hsp := h.toNat_sp
  have htop : address ≠ memory.sp := hfree.ne_of_lt (by omega) (by omega)
  rw [Memory.read_write_of_ne htop, Memory.read_write_of_ne hfree.not_sp]

theorem Represents.read_applyTo? {stack rest : List Word} {values : Variable → Word}
    {address : Word} {operator : Operator} (h : Represents memory stack values)
    (happly : operator.applyTo? stack = some rest) (hfree : IsFree stack.length address) :
    ((Command.arithmetic operator).result memory memory).read address = memory.read address := by
  have hsp := h.toNat_sp
  -- besides SP only the cell of the result is written, which is on the stack
  match operator, stack, happly with
  | .unary operator, x :: rest, rfl =>
      rw [List.length_cons] at hsp hfree
      have htop : address ≠ memory.sp - 1 := hfree.ne_of_lt (by bv_omega) (by bv_omega)
      exact Memory.read_write_of_ne htop
  | .binary operator, y :: x :: rest, rfl =>
      rw [List.length_cons, List.length_cons] at hsp hfree
      have hsecond : address ≠ memory.sp - 2 := hfree.ne_of_lt (by bv_omega) (by bv_omega)
      exact (Memory.read_write_of_ne hsecond).trans (Memory.read_lowered_of_ne hfree.not_sp)
  | .comparison operator, y :: x :: rest, rfl =>
      rw [List.length_cons, List.length_cons] at hsp hfree
      have hsecond : address ≠ memory.sp - 2 := hfree.ne_of_lt (by bv_omega) (by bv_omega)
      exact (Memory.read_write_of_ne hsecond).trans (Memory.read_lowered_of_ne hfree.not_sp)

/-- **The other cells** are what they were before the command. -/
theorem Represents.read_next (h : Represents memory s.stack s.values)
    (hnext : next? actions s action = some t) {address : Word}
    (hbefore : IsFree s.stack.length address) (hafter : IsFree t.stack.length address) :
    (action.command.result memory memory).read address = memory.read address := by
  obtain ⟨position, stack, values⟩ := s
  cases action with
  | constant value =>
      cases hnext
      exact h.read_push hafter value
  | push v =>
      cases hnext
      exact h.read_push hafter _
  | pop v =>
      cases stack with
      | nil => cases hnext
      | cons x rest =>
          rw [result_pop, Memory.read_write_of_ne (hbefore.not_variable v),
            Memory.read_lowered_of_ne hbefore.not_sp]
  | arithmetic operator =>
      obtain ⟨stack', happly, -⟩ := Option.map_eq_some_iff.1 hnext
      exact h.read_applyTo? happly hbefore
  | ifGoto name => exact Memory.read_lowered_of_ne hbefore.not_sp
  | label name => rfl
  | goto name => rfl

end Next

end ListMachine

end HackStack
