import Std.Data.TreeMap.Lemmas
import HackStack.Word

set_option autoImplicit false

/-! # Symbol tables

What the symbols of a program stand for. Registers have names before any program is loaded.
-/

namespace HackStack

structure SymbolTable where
  entries : Std.TreeMap String Word

namespace SymbolTable

def empty : SymbolTable := ⟨∅⟩

/-- What a symbol stands for. -/
def find? (t : SymbolTable) (name : String) : Option Word := t.entries[name]?

/-- The table in which a symbol stands for another word. -/
def insert (t : SymbolTable) (name : String) (value : Word) : SymbolTable :=
  ⟨t.entries.insert name value⟩

@[simp] theorem find?_empty (name : String) : empty.find? name = none := by
  simp [empty, find?]

theorem find?_insert (t : SymbolTable) (name : String) (value : Word) (other : String) :
    (t.insert name value).find? other = if other = name then some value else t.find? other := by
  simp only [insert, find?, Std.TreeMap.getElem?_insert, Std.LawfulEqCmp.compare_eq_iff_eq]
  by_cases h : other = name
  · rw [if_pos h, if_pos h.symm]
  · rw [if_neg h, if_neg (Ne.symm h)]

/-- The names of registers. `R0` to `R15` are the first cells of memory; the first five of them
have a second name. -/
def registers : List (String × Word) :=
  [("SP", 0), ("LCL", 1), ("ARG", 2), ("THIS", 3), ("THAT", 4),
    ("R0", 0), ("R1", 1), ("R2", 2), ("R3", 3), ("R4", 4), ("R5", 5), ("R6", 6), ("R7", 7),
    ("R8", 8), ("R9", 9), ("R10", 10), ("R11", 11), ("R12", 12), ("R13", 13), ("R14", 14),
    ("R15", 15)]

/-- The table that holds the registers. -/
def predefined : SymbolTable := registers.foldl (fun t entry => t.insert entry.1 entry.2) empty

theorem find?_foldl_insert {entries : List (String × Word)} (h : (entries.map Prod.fst).Nodup)
    (t : SymbolTable) (name : String) :
    (entries.foldl (fun t entry => t.insert entry.1 entry.2) t).find? name
      = (entries.lookup name).or (t.find? name) := by
  induction entries generalizing t with
  | nil => rfl
  | cons entry entries ih =>
      obtain ⟨key, value⟩ := entry
      simp only [List.map_cons, List.nodup_cons] at h
      rw [List.foldl_cons, ih h.2, find?_insert, List.lookup_cons]
      by_cases hname : name = key
      · subst hname
        have hnone : entries.lookup name = none := by
          rw [List.lookup_eq_none_iff]
          intro entry hmem
          have hne : name ≠ entry.1 := by
            rintro rfl
            exact h.1 (List.mem_map_of_mem hmem)
          simpa using hne
        simp [hnone]
      · have hbeq : (name == key) = false := by simpa using hname
        simp [hname, hbeq]

theorem find?_predefined (name : String) : predefined.find? name = registers.lookup name := by
  rw [predefined, find?_foldl_insert (by decide), find?_empty, Option.or_none]

end SymbolTable

end HackStack
