import Mathlib.Data.List.Induction
import Mathlib.Data.List.Nodup
import HackStack.Machine.Program

set_option autoImplicit false

/-! # Loading code

What loading makes of any list of instructions. The operations keep their order, a symbol stands
for a register or for the number of operations before its declaration (`LoadedFrom`), and loading
fails at the first label that names a register or has been declared before (`FirstClash`,
`load_eq_error_iff`).
-/

namespace HackStack

/-! ## Labels and operations of code -/

namespace Instruction

/-- Whether an instruction is an operation from which control goes on to the next one. -/
def isStraight : Instruction → Bool
  | .operation (.compute _ _ jump) => jump.isNone
  | .operation _ => true
  | .label _ => false

end Instruction

namespace Code

/-- The operations of code, in order. -/
def operations (code : List Instruction) : List Operation := code.filterMap Instruction.operation?

/-- The labels that code declares, in order. -/
def labels (code : List Instruction) : List String := code.filterMap Instruction.label?

/-- The number of operations before the first declaration of a label. -/
def address? (name : String) : List Instruction → Option Nat
  | [] => none
  | .operation _ :: rest => (address? name rest).map (· + 1)
  | .label other :: rest => if other = name then some 0 else address? name rest

@[simp] theorem operations_nil : operations [] = [] := rfl

@[simp] theorem operations_operation (op : Operation) (code : List Instruction) :
    operations (.operation op :: code) = op :: operations code := rfl

@[simp] theorem operations_label (name : String) (code : List Instruction) :
    operations (.label name :: code) = operations code := rfl

@[simp] theorem labels_nil : labels [] = [] := rfl

@[simp] theorem labels_operation (op : Operation) (code : List Instruction) :
    labels (.operation op :: code) = labels code := rfl

@[simp] theorem labels_label (name : String) (code : List Instruction) :
    labels (.label name :: code) = name :: labels code := rfl

@[simp] theorem operations_append (code more : List Instruction) :
    operations (code ++ more) = operations code ++ operations more := by
  simp [operations]

@[simp] theorem labels_append (code more : List Instruction) :
    labels (code ++ more) = labels code ++ labels more := by
  simp [labels]

theorem labels_eq_nil_of_straight {code : List Instruction}
    (h : code.all Instruction.isStraight = true) : labels code = [] := by
  rw [labels, List.filterMap_eq_nil_iff]
  intro instruction hmem
  have hstraight := List.all_eq_true.1 h instruction hmem
  cases instruction with
  | operation op => rfl
  | label name => cases hstraight

theorem address?_append (name : String) (code more : List Instruction) :
    address? name (code ++ more) =
      (address? name code).or ((address? name more).map ((operations code).length + ·)) := by
  induction code with
  | nil => simp [address?]
  | cons instruction code ih =>
      cases instruction with
      | operation op =>
          rw [List.cons_append, address?, address?, ih, operations_operation, List.length_cons]
          cases address? name code with
          | some n => rfl
          | none =>
              simp only [Option.map_none, Option.none_or, Option.map_map]
              congr 1
              funext n
              simp only [Function.comp_apply]
              omega
      | label other =>
          rw [List.cons_append, address?, address?, ih, operations_label]
          by_cases hname : other = name
          · simp [hname]
          · simp [hname]

theorem address?_eq_none_iff {name : String} {code : List Instruction} :
    address? name code = none ↔ name ∉ labels code := by
  induction code with
  | nil => simp [address?]
  | cons instruction code ih =>
      cases instruction with
      | operation op => rw [address?, Option.map_eq_none_iff, ih, labels_operation]
      | label other =>
          by_cases hname : other = name
          · simp [address?, hname]
          · have hne : name ≠ other := Ne.symm hname
            rw [address?, if_neg hname, ih]
            simp [hne]

/-- A label stands within the code that declares it or at its end. -/
theorem le_length_of_address? {name : String} {code : List Instruction} {n : Nat}
    (h : address? name code = some n) : n ≤ (operations code).length := by
  induction code generalizing n with
  | nil => cases h
  | cons instruction code ih =>
      cases instruction with
      | operation op =>
          rw [address?, Option.map_eq_some_iff] at h
          obtain ⟨k, hk, rfl⟩ := h
          exact Nat.succ_le_succ (ih hk)
      | label other =>
          rw [address?] at h
          split at h
          · cases h
            exact Nat.zero_le _
          · exact ih h

end Code

/-! ## Labels that can be declared -/

namespace SymbolTable

/-- Whether a name is that of a register. -/
def isRegister (name : String) : Bool := (registers.lookup name).isSome

theorem lookup_eq_none_of_not_isRegister {name : String} (h : isRegister name = false) :
    registers.lookup name = none := by
  simpa [isRegister] using h

end SymbolTable

namespace Instruction

/-- Whether an instruction is an operation that neither jumps nor depends on the labels. -/
def isPlain : Instruction → Bool
  | .operation (.symbol name) => SymbolTable.isRegister name
  | instruction => instruction.isStraight

theorem isStraight_of_isPlain {instruction : Instruction} (h : instruction.isPlain = true) :
    instruction.isStraight = true := by
  cases instruction with
  | label name => exact h
  | operation op =>
      cases op with
      | symbol name => rfl
      | _ => exact h

end Instruction

/-- Labels that can be declared one after the other: distinct ones, and no names of registers. -/
structure Declarable (labels : List String) : Prop where
  nodup : labels.Nodup
  not_register : ∀ name ∈ labels, SymbolTable.isRegister name = false

/-- The first label of a list that cannot be declared: the labels before it can, but it is the name
of a register or one of them. -/
def FirstClash (labels : List String) (name : String) : Prop :=
  ∃ before after, labels = before ++ name :: after ∧ Declarable before
    ∧ (name ∈ before ∨ SymbolTable.isRegister name = true)

theorem declarable_nil : Declarable [] := ⟨List.nodup_nil, by simp⟩

theorem Declarable.sublist {labels more : List String} (h : Declarable more)
    (hsub : List.Sublist labels more) : Declarable labels :=
  ⟨h.nodup.sublist hsub, fun name hmem => h.not_register name (hsub.subset hmem)⟩

theorem declarable_append_singleton_iff {labels : List String} {name : String} :
    Declarable (labels ++ [name]) ↔
      Declarable labels ∧ name ∉ labels ∧ SymbolTable.isRegister name = false := by
  constructor
  · intro h
    refine ⟨h.sublist (List.sublist_append_left _ _), ?_, h.not_register name (by simp)⟩
    have hdisjoint := (List.nodup_append.1 h.nodup).2.2
    intro hmem
    exact hdisjoint name hmem name (by simp) rfl
  · rintro ⟨h, hfresh, hregister⟩
    refine ⟨?_, ?_⟩
    · rw [List.nodup_append]
      refine ⟨h.nodup, by simp, fun a ha b hb => ?_⟩
      rw [List.mem_singleton.1 hb]
      rintro rfl
      exact hfresh ha
    · intro other hmem
      rcases List.mem_append.1 hmem with hmem | hmem
      · exact h.not_register other hmem
      · rw [List.mem_singleton.1 hmem]
        exact hregister

theorem FirstClash.not_declarable {labels : List String} {name : String}
    (h : FirstClash labels name) : ¬ Declarable labels := by
  obtain ⟨before, after, rfl, -, hclash⟩ := h
  intro hdeclarable
  have hprefix : Declarable (before ++ [name]) := by
    apply hdeclarable.sublist
    simp
  obtain ⟨-, hfresh, hregister⟩ := declarable_append_singleton_iff.1 hprefix
  rcases hclash with hmem | htaken
  · exact hfresh hmem
  · rw [hregister] at htaken
    cases htaken

/-- Labels that cannot all be declared have a first one that cannot. -/
theorem exists_firstClash_of_not_declarable {labels : List String} (h : ¬ Declarable labels) :
    ∃ name, FirstClash labels name := by
  -- from the end: the labels before the last one clash, or else the last one does with them
  induction labels using List.reverseRecOn with
  | nil => exact absurd declarable_nil h
  | append_singleton labels last ih =>
      by_cases hbefore : Declarable labels
      · refine ⟨last, labels, [], rfl, hbefore, ?_⟩
        by_contra hfree
        rw [not_or, Bool.not_eq_true] at hfree
        exact h (declarable_append_singleton_iff.2 ⟨hbefore, hfree⟩)
      · obtain ⟨name, before, after, rfl, hclash⟩ := ih hbefore
        exact ⟨name, before, after ++ [last], by simp, hclash⟩

theorem FirstClash.unique {labels : List String} {name other : String}
    (h : FirstClash labels name) (h' : FirstClash labels other) : name = other := by
  obtain ⟨before, after, rfl, hbefore, hclash⟩ := h
  obtain ⟨before', after', heq, hbefore', hclash'⟩ := h'
  rcases List.append_eq_append_iff.1 heq with ⟨gap, hgap, hrest⟩ | ⟨gap, hgap, hrest⟩
  · cases gap with
    | nil => simpa using (List.cons.inj hrest).1
    | cons head gap =>
        -- the second clash would come after the first one, among labels that can be declared
        obtain ⟨rfl, -⟩ := List.cons.inj hrest
        exact absurd hbefore' (FirstClash.not_declarable ⟨before, gap, hgap, hbefore, hclash⟩)
  · cases gap with
    | nil => simpa using (List.cons.inj hrest).1.symm
    | cons head gap =>
        obtain ⟨rfl, -⟩ := List.cons.inj hrest
        exact absurd hbefore (FirstClash.not_declarable ⟨before', gap, hgap, hbefore', hclash'⟩)

/-! ## What loading yields -/

/-- The program that code loads as. -/
structure LoadedFrom (code : List Instruction) (p : Program) : Prop where
  operations : p.code.toList = Code.operations code
  find? : ∀ name, p.symbols.find? name =
    (SymbolTable.registers.lookup name).or ((Code.address? name code).map (BitVec.ofNat 16))
  declarable : Declarable (Code.labels code)

namespace LoadedFrom

variable {code : List Instruction} {p : Program}

theorem empty : LoadedFrom [] .empty := by
  refine ⟨rfl, fun name => ?_, declarable_nil⟩
  show SymbolTable.predefined.find? name = _
  rw [SymbolTable.find?_predefined]
  simp [Code.address?]

theorem size (h : LoadedFrom code p) : p.code.size = (Code.operations code).length := by
  rw [← h.operations, Array.length_toList]

/-- A symbol that stands for nothing yet is one that can be declared next. -/
theorem find?_eq_none_iff (h : LoadedFrom code p) {name : String} :
    p.symbols.find? name = none ↔
      name ∉ Code.labels code ∧ SymbolTable.isRegister name = false := by
  rw [h.find?, Option.or_eq_none_iff, Option.map_eq_none_iff, Code.address?_eq_none_iff, and_comm]
  simp [SymbolTable.isRegister]

theorem append_operation (h : LoadedFrom code p) (op : Operation) :
    LoadedFrom (code ++ [.operation op]) { p with code := p.code.push op } := by
  refine ⟨by simp [h.operations], fun name => ?_, by simpa using h.declarable⟩
  show p.symbols.find? name = _
  rw [h.find?, Code.address?_append]
  simp [Code.address?]

theorem append_label (h : LoadedFrom code p) {name : String}
    (hfree : p.symbols.find? name = none) :
    LoadedFrom (code ++ [.label name])
      { p with symbols := p.symbols.insert name p.nextAddress } := by
  obtain ⟨hfresh, hregister⟩ := h.find?_eq_none_iff.1 hfree
  refine ⟨by simp [h.operations], fun other => ?_, ?_⟩
  · show (p.symbols.insert name p.nextAddress).find? other = _
    rw [SymbolTable.find?_insert, Code.address?_append, Program.nextAddress, h.size]
    by_cases hname : other = name
    · subst hname
      have hnone := SymbolTable.lookup_eq_none_of_not_isRegister hregister
      have haddress := Code.address?_eq_none_iff.2 hfresh
      simp [hnone, haddress, Code.address?]
    · have hother : Code.address? other [.label name] = none := by
        simp [Code.address?, Ne.symm hname]
      rw [if_neg hname, h.find?, hother, Option.map_none, Option.or_none]
  · rw [Code.labels_append]
    exact declarable_append_singleton_iff.2 ⟨h.declarable, hfresh, hregister⟩

/-- Appending instructions keeps what is known of the program so far, or stops at the first label
that clashes. -/
theorem appendAll (h : LoadedFrom code p) (more : List Instruction) :
    (∃ q, p.appendAll more = .ok q ∧ LoadedFrom (code ++ more) q) ∨
      ∃ name, p.appendAll more = .error (.duplicateLabel name)
        ∧ FirstClash (Code.labels (code ++ more)) name := by
  -- the invariant is `LoadedFrom` for the code that has been appended so far
  induction more generalizing code p with
  | nil => exact Or.inl ⟨p, rfl, by simpa using h⟩
  | cons instruction rest ih =>
      have hsplit : code ++ instruction :: rest = code ++ [instruction] ++ rest := by simp
      cases instruction with
      | operation op =>
          rw [hsplit]
          exact ih (h.append_operation op)
      | label name =>
          cases hfind : p.symbols.find? name with
          | none =>
              have hstep : p.appendAll (.label name :: rest) = Program.appendAll
                  { p with symbols := p.symbols.insert name p.nextAddress } rest := by
                simp [Program.appendAll, Program.append, hfind]
              rw [hstep, hsplit]
              exact ih (h.append_label hfind)
          | some value =>
              refine Or.inr ⟨name, by simp [Program.appendAll, Program.append, hfind],
                Code.labels code, Code.labels rest, by simp, h.declarable, ?_⟩
              by_contra hfree
              rw [not_or, Bool.not_eq_true] at hfree
              rw [h.find?_eq_none_iff.2 hfree] at hfind
              cases hfind

end LoadedFrom

namespace Program

theorem load_cases (code : List Instruction) :
    (∃ p, load code = .ok p ∧ LoadedFrom code p) ∨
      ∃ name, load code = .error (.duplicateLabel name)
        ∧ FirstClash (Code.labels code) name :=
  LoadedFrom.empty.appendAll code

theorem loadedFrom_of_load {code : List Instruction} {p : Program} (h : load code = .ok p) :
    LoadedFrom code p := by
  rcases load_cases code with ⟨q, hq, hloaded⟩ | ⟨name, hname, -⟩
  · rw [h] at hq
    cases hq
    exact hloaded
  · rw [h] at hname
    cases hname

/-- Code loads if its labels can be declared. -/
theorem exists_load_of_declarable {code : List Instruction}
    (h : Declarable (Code.labels code)) : ∃ p, load code = .ok p ∧ LoadedFrom code p := by
  rcases load_cases code with hok | ⟨name, -, hclash⟩
  · exact hok
  · exact absurd h hclash.not_declarable

/-- Loading can only fail at the first label that clashes. -/
theorem load_eq_error_iff {code : List Instruction} {fault : Fault} :
    load code = .error fault ↔
      ∃ name, fault = .duplicateLabel name ∧ FirstClash (Code.labels code) name := by
  constructor
  · intro h
    rcases load_cases code with ⟨p, hp, -⟩ | ⟨name, hname, hclash⟩
    · rw [h] at hp
      cases hp
    · rw [h] at hname
      cases hname
      exact ⟨name, rfl, hclash⟩
  · rintro ⟨name, rfl, hclash⟩
    rcases load_cases code with ⟨p, -, hloaded⟩ | ⟨other, hother, hclash'⟩
    · exact absurd hloaded.declarable hclash.not_declarable
    · rw [hother, hclash.unique hclash']

end Program

end HackStack
