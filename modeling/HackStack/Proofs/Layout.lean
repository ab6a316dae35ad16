import HackStack.Proofs.Labels
import HackStack.Proofs.Templates

set_option autoImplicit false

/-! # Where the code of each command stands

The code of a compiled source is the code of its commands, one after the other. The code of the
command with index `i` begins at `Source.address fragments i`, and the loaded program has it there
(`installed_fragment`); a label of the program stands for the address of the command that declares
it (`find?_declared`).
-/

namespace HackStack

namespace Fragment

/-- The number of operations of a fragment. -/
def size (fragment : Fragment) : Nat := (Code.operations fragment.code).length

end Fragment

namespace Source

/-- The address of the first operation of the fragment with an index; the end of the program for
the number of fragments. -/
def address (fragments : List Fragment) (i : Nat) : Nat :=
  (Code.operations (instructions (fragments.take i))).length

variable {fragments : List Fragment} {fragment : Fragment} {i j : Nat}

theorem address_length (fragments : List Fragment) :
    address fragments fragments.length = (Code.operations (instructions fragments)).length := by
  rw [address, List.take_length]

theorem instructions_append (fragments more : List Fragment) :
    instructions (fragments ++ more) = instructions fragments ++ instructions more := by
  simp [instructions]

theorem address_succ (h : fragments[i]? = some fragment) :
    address fragments (i + 1) = address fragments i + fragment.size := by
  have hcode : instructions [fragment] = fragment.code := by simp [instructions]
  calc address fragments (i + 1)
      = (Code.operations (instructions (fragments.take i ++ [fragment]))).length := by
        rw [address, List.take_add_one, h, Option.toList_some]
    _ = address fragments i + (Code.operations (instructions [fragment])).length := by
        rw [instructions_append, Code.operations_append, List.length_append, address]
    _ = address fragments i + fragment.size := by rw [hcode, Fragment.size]

theorem address_mono (h : i ≤ j) : address fragments i ≤ address fragments j := by
  obtain ⟨k, rfl⟩ := Nat.exists_eq_add_of_le h
  rw [address, address, List.take_add, instructions_append, Code.operations_append,
    List.length_append]
  exact Nat.le_add_right _ _

/-- Addresses do not lie past the end of the program. -/
theorem address_le (fragments : List Fragment) (i : Nat) :
    address fragments i ≤ (Code.operations (instructions fragments)).length := by
  rcases Nat.le_total i fragments.length with h | h
  · rw [← address_length]
    exact address_mono h
  · have hall : fragments.take i = fragments := List.take_of_length_le h
    exact Nat.le_of_eq (by rw [address, hall])

theorem address_succ_of_none (h : fragments[i]? = none) :
    address fragments (i + 1) = address fragments i := by
  rw [address, List.take_add_one, h, Option.toList_none, List.append_nil]
  rfl

/-- Only one fragment has an operation at an address. -/
theorem address_unique {pc : Nat} (hi : address fragments i ≤ pc)
    (hi' : pc < address fragments (i + 1)) (hj : address fragments j ≤ pc)
    (hj' : pc < address fragments (j + 1)) : i = j := by
  rcases Nat.lt_trichotomy i j with h | h | h
  · have hmono : address fragments (i + 1) ≤ address fragments j := address_mono h
    omega
  · exact h
  · have hmono : address fragments (j + 1) ≤ address fragments i := address_mono h
    omega

/-- Every operation belongs to a fragment. -/
theorem exists_fragment {pc : Nat} (h : pc < (Code.operations (instructions fragments)).length) :
    ∃ i fragment, fragments[i]? = some fragment ∧ address fragments i ≤ pc
      ∧ pc < address fragments (i + 1) := by
  have hall : ∀ n, pc < address fragments n → ∃ i fragment, fragments[i]? = some fragment
      ∧ address fragments i ≤ pc ∧ pc < address fragments (i + 1) := by
    intro n
    induction n with
    | zero => exact fun hpc => absurd hpc (Nat.not_lt_zero _)
    | succ n ih =>
        intro hpc
        rcases Nat.lt_or_ge pc (address fragments n) with hlt | hge
        · exact ih hlt
        · cases hfragment : fragments[n]? with
          | some fragment => exact ⟨n, fragment, hfragment, hge, hpc⟩
          | none =>
              rw [address_succ_of_none hfragment] at hpc
              exact absurd hge (Nat.not_le_of_lt hpc)
  rw [← address_length] at h
  exact hall _ h

end Source

open Source Processor

variable {fragments : List Fragment} {program : Program} {fragment : Fragment} {i : Nat}

/-- Each fragment stands at its address. -/
theorem installed_fragment (hload : LoadedFrom (instructions fragments) program)
    (h : fragments[i]? = some fragment) :
    Installed program (address fragments i) fragment.code := by
  have hsplit : fragments = fragments.take i ++ fragment :: fragments.drop (i + 1) := by
    obtain ⟨hi, hget⟩ := List.getElem?_eq_some_iff.1 h
    rw [← hget, ← List.drop_eq_getElem_cons hi, List.take_append_drop]
  have hcode : instructions fragments = instructions (fragments.take i)
      ++ (fragment.code ++ instructions (fragments.drop (i + 1))) :=
    calc instructions fragments
        = instructions (fragments.take i ++ fragment :: fragments.drop (i + 1)) := by rw [← hsplit]
      _ = instructions (fragments.take i) ++ instructions (fragment :: fragments.drop (i + 1)) :=
          instructions_append _ _
      _ = instructions (fragments.take i)
            ++ (fragment.code ++ instructions (fragments.drop (i + 1))) := rfl
  rw [hcode] at hload
  have hrest := Installed.of_loadedFrom_append hload
  exact (Installed.append_iff.1 hrest).1

/-- The number of operations of a program that fits into words is an address. -/
theorem toNat_address (hsize : (Code.operations (instructions fragments)).length ≤ 65535)
    {n : Nat} (h : n ≤ (Code.operations (instructions fragments)).length) :
    (BitVec.ofNat 16 n).toNat = n := by
  rw [BitVec.toNat_ofNat]
  omega

/-- A label that is declared is so first by the command with its index. -/
theorem exists_declaring {name : String} (h : name ∈ declaredLabels fragments) :
    ∃ declaring, fragments[(fragments.map Fragment.command).idxOf (.label name)]? = some declaring
      ∧ declaring.command = .label name := by
  have hget := List.getElem?_idxOf (mem_declaredLabels_iff.1 h)
  rwa [List.getElem?_map, Option.map_eq_some_iff] at hget

/-- A label of the program stands for the address of the command that declares it. -/
theorem find?_declared (hcompiled : IsCompiled fragments)
    (hload : LoadedFrom (instructions fragments) program) {name : String}
    (h : fragments[i]? = some fragment) (hcommand : fragment.command = .label name) :
    program.symbols.find? name = some (BitVec.ofNat 16 (address fragments i)) := by
  have hcode := hcompiled.code fragment (List.mem_of_getElem? h)
  rw [hcommand] at hcode
  have hinstalled := installed_fragment hload h
  rw [← Option.some.inj hcode] at hinstalled
  exact hinstalled.1

end HackStack
