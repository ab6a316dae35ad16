set_option autoImplicit false

/-! # Machine words

The machine has one kind of number: a word of 16 bits. Arithmetic wraps, a word is read as a
signed number by comparisons and jumps (`BitVec.toInt`) and as an unsigned one when it is an
address (`BitVec.toNat`). An address instruction has 15 bits for the number that it loads, so
`maxLoadable` bounds every constant and every fixed address in generated code.
-/

namespace HackStack

/-- A word of the machine: the content of a memory cell or a register. -/
abbrev Word := BitVec 16

namespace Word

/-- The largest number that an address instruction can load. -/
def maxLoadable : Nat := 32767

/-- The word for a number, if the number fits. -/
def ofNat? (n : Nat) : Option Word :=
  if n < 65536 then some (BitVec.ofNat 16 n) else none

theorem ofNat?_eq_some_iff {n : Nat} {w : Word} : ofNat? n = some w ↔ w.toNat = n := by
  unfold ofNat?
  constructor
  · intro h
    split at h
    · cases h
      simp only [BitVec.toNat_ofNat]
      omega
    · simp at h
  · intro h
    subst h
    simp [w.isLt]

@[simp] theorem ofNat?_toNat (w : Word) : ofNat? w.toNat = some w :=
  ofNat?_eq_some_iff.2 rfl

/-- Truth values on the stack: `-1` (all bits set) for true, `0` for false. -/
def ofBool (b : Bool) : Word := if b then -1 else 0

end Word

end HackStack
