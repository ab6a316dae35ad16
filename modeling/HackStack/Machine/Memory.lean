import HackStack.Word

set_option autoImplicit false

/-! # Memory

The memory of the machine has one cell for every word as an address. Everything that can be said
about a memory follows from what its cells hold (`ext`) and how a write changes that
(`read_write`).
-/

namespace HackStack

structure Memory where
  cells : Vector Word 65536

namespace Memory

/-- The memory that holds the same word in all cells. -/
def fill (value : Word) : Memory := ⟨Vector.replicate 65536 value⟩

/-- The content of the cell at an address. -/
def read (m : Memory) (address : Word) : Word :=
  have : address.toNat < 65536 := address.isLt
  m.cells[address.toNat]

/-- The memory with another content in the cell at an address. -/
def write (m : Memory) (address value : Word) : Memory :=
  ⟨m.cells.set address.toNat value address.isLt⟩

@[ext] theorem ext {m n : Memory} (h : ∀ address, m.read address = n.read address) : m = n := by
  obtain ⟨cells⟩ := m
  obtain ⟨cells'⟩ := n
  have hcells : cells = cells' := by
    apply Vector.ext
    intro i hi
    have hcell := h (BitVec.ofNat 16 i)
    have hmod : i % 2 ^ 16 = i := Nat.mod_eq_of_lt hi
    simpa only [read, BitVec.toNat_ofNat, hmod] using hcell
  rw [hcells]

theorem read_write (m : Memory) (address value other : Word) :
    (m.write address value).read other = if other = address then value else m.read other := by
  unfold read write
  simp only [Vector.getElem_set, BitVec.toNat_inj]
  by_cases h : other = address
  · rw [if_pos h, if_pos h.symm]
  · rw [if_neg h, if_neg (Ne.symm h)]

@[simp] theorem read_write_self (m : Memory) (address value : Word) :
    (m.write address value).read address = value := by
  rw [read_write, if_pos rfl]

theorem read_write_of_ne {m : Memory} {address value other : Word} (h : other ≠ address) :
    (m.write address value).read other = m.read other := by
  rw [read_write, if_neg h]

/-- The memory after several writes, the first one first. -/
def writeAll (m : Memory) (values : List (Word × Word)) : Memory :=
  values.foldl (fun m entry => m.write entry.1 entry.2) m

/-- All addresses, in ascending order. -/
def addresses : List Word := (List.range 65536).map (BitVec.ofNat 16)

/-- The cells in which a memory differs from an earlier one, by address, with their content. -/
def changedSince (m earlier : Memory) : List (Word × Word) :=
  addresses.filterMap fun address =>
    if m.read address = earlier.read address then none else some (address, m.read address)

end Memory

end HackStack
