import HackStack.Word

set_option autoImplicit false

/-! # Memory segments

A program names a memory cell by a segment and an index. A segment is either not memory at all
(`constant`), or begins at the address that a base register holds, or begins at a fixed address.
-/

namespace HackStack

inductive Segment
  | constant
  | locals
  | static
  | argument
  | this
  | that
  | temp
  deriving DecidableEq, Repr

/-- The registers that hold the beginning of a segment. They are the memory cells 1 to 4. -/
inductive BaseRegister
  | lcl
  | arg
  | this
  | that
  deriving DecidableEq, Repr

namespace BaseRegister

/-- The register's name in generated code. -/
def symbol : BaseRegister → String
  | .lcl => "LCL"
  | .arg => "ARG"
  | .this => "THIS"
  | .that => "THAT"

/-- The memory cell that is the register. -/
def address : BaseRegister → Word
  | .lcl => 1
  | .arg => 2
  | .this => 3
  | .that => 4

end BaseRegister

/-- Where a segment begins. -/
inductive Base
  /-- nowhere: its cells are the numbers themselves -/
  | absent
  /-- at the address that the register holds -/
  | indirect (register : BaseRegister)
  /-- at a fixed address -/
  | direct (address : Word)
  deriving DecidableEq, Repr

namespace Segment

def all : List Segment := [.constant, .locals, .static, .argument, .this, .that, .temp]

/-- The word that names the segment in a program. -/
def name : Segment → String
  | .constant => "constant"
  | .locals => "local"
  | .static => "static"
  | .argument => "argument"
  | .this => "this"
  | .that => "that"
  | .temp => "temp"

/-- The segment that a word names. -/
def ofName? (word : String) : Option Segment :=
  all.find? fun segment => segment.name == word

def base : Segment → Base
  | .constant => .absent
  | .locals => .indirect .lcl
  | .argument => .indirect .arg
  | .this => .indirect .this
  | .that => .indirect .that
  | .temp => .direct 5
  | .static => .direct 16

@[simp] theorem mem_all (segment : Segment) : segment ∈ all := by
  cases segment <;> decide

@[simp] theorem ofName?_name (segment : Segment) : ofName? segment.name = some segment := by
  cases segment <;> decide

theorem ofName?_eq_some_iff {word : String} {segment : Segment} :
    ofName? word = some segment ↔ word = segment.name := by
  constructor
  · intro h
    have hfound := List.find?_some h
    simpa using (beq_iff_eq.1 hfound).symm
  · intro h
    subst h
    exact ofName?_name segment

end Segment

/-- The address of a cell of a segment with a fixed beginning, if generated code can load it. -/
def directAddress (base index : Word) : Option Word :=
  let sum := base.toNat + index.toNat
  if sum ≤ Word.maxLoadable then some (BitVec.ofNat 16 sum) else none

theorem directAddress_eq_some_iff {base index address : Word} :
    directAddress base index = some address ↔
      base.toNat + index.toNat = address.toNat ∧ address.toNat ≤ Word.maxLoadable := by
  unfold directAddress
  have hmax : Word.maxLoadable = 32767 := rfl
  constructor
  · intro h
    by_cases hsum : base.toNat + index.toNat ≤ Word.maxLoadable
    · rw [if_pos hsum, Option.some.injEq] at h
      rw [← h, BitVec.toNat_ofNat]
      omega
    · rw [if_neg hsum] at h
      cases h
  · rintro ⟨h, hle⟩
    rw [if_pos (by omega), h]
    simp

theorem directAddress_eq_none_iff {base index : Word} :
    directAddress base index = none ↔ Word.maxLoadable < base.toNat + index.toNat := by
  simp [directAddress]

/-- The two cells of the segment `pointer`: the base registers of `this` and `that`. -/
inductive PointerSlot
  | this
  | that
  deriving DecidableEq, Repr

namespace PointerSlot

def all : List PointerSlot := [.this, .that]

/-- The slot's index in a program. -/
def digit : PointerSlot → String
  | .this => "0"
  | .that => "1"

/-- The slot that a word of one digit names. -/
def ofDigit? (word : String) : Option PointerSlot :=
  all.find? fun slot => slot.digit == word

/-- The slot's register, by its number. -/
def register : PointerSlot → String
  | .this => "R3"
  | .that => "R4"

/-- The memory cell that is the slot. -/
def address : PointerSlot → Word
  | .this => 3
  | .that => 4

@[simp] theorem ofDigit?_digit (slot : PointerSlot) : ofDigit? slot.digit = some slot := by
  cases slot <;> decide

theorem ofDigit?_eq_some_iff {word : String} {slot : PointerSlot} :
    ofDigit? word = some slot ↔ word = slot.digit := by
  constructor
  · intro h
    have hfound := List.find?_some h
    simpa using (beq_iff_eq.1 hfound).symm
  · intro h
    subst h
    exact ofDigit?_digit slot

end PointerSlot

end HackStack
