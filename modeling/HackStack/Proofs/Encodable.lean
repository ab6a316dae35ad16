import HackStack.Proofs.Grammar
import HackStack.Proofs.Labels

set_option autoImplicit false

/-! # Which commands have code, and what the code loads

A command may be built with any index. It has no code if it writes to a constant or if the fixed
address of its cell has more than 15 bits (`code?_eq_none_iff`); where it has code, that loads one
number for its operand at most (`constants_code`), and the number has more than 15 bits exactly for
the commands in `IsOversized`. Reading a line yields neither kind of command, so whatever is read
has code, all of which can be encoded (`exists_compile_of_parse`).
-/

namespace HackStack

/-! ## Numbers and names in code -/

namespace Instruction

/-- The number that an instruction loads. -/
def constant? : Instruction → Option Word
  | .operation (.constant value) => some value
  | _ => none

/-- The name in an instruction, of a symbol or of a label. -/
def name? : Instruction → Option String
  | .operation (.symbol name) => some name
  | .label name => some name
  | _ => none

theorem constant?_eq_some_iff {instruction : Instruction} {value : Word} :
    instruction.constant? = some value ↔ instruction = .operation (.constant value) := by
  cases instruction with
  | label name => simp [constant?]
  | operation op => cases op <;> simp [constant?]

theorem name?_eq_some_iff {instruction : Instruction} {name : String} :
    instruction.name? = some name ↔
      instruction = .operation (.symbol name) ∨ instruction = .label name := by
  cases instruction with
  | label other => simp [name?]
  | operation op => cases op <;> simp [name?]

end Instruction

namespace Code

/-- The numbers that code loads, in order. -/
def constants (code : List Instruction) : List Word := code.filterMap Instruction.constant?

/-- The names in code, in order. -/
def names (code : List Instruction) : List String := code.filterMap Instruction.name?

theorem mem_constants_iff {code : List Instruction} {value : Word} :
    value ∈ constants code ↔ .operation (.constant value) ∈ code := by
  simp [constants, List.mem_filterMap, Instruction.constant?_eq_some_iff]

theorem mem_names_iff {code : List Instruction} {name : String} :
    name ∈ names code ↔ .operation (.symbol name) ∈ code ∨ .label name ∈ code := by
  simp [names, List.mem_filterMap, Instruction.name?_eq_some_iff, and_or_left, exists_or]

@[simp] theorem constants_append (code more : List Instruction) :
    constants (code ++ more) = constants code ++ constants more := by
  simp [constants]

end Code

/-! ## Operands out of reach -/

namespace Operand

/-- A cell at a fixed address, where the address has more than 15 bits. -/
def IsBeyond : Operand → Prop
  | .cell .temp index => 32767 < 5 + index.toNat
  | .cell .static index => 32767 < 16 + index.toNat
  | _ => False

/-- A number, or a cell counted from a base register, where the index has more than 15 bits. -/
def IsOversized : Operand → Prop
  | .pointer _ => False
  | .cell .temp _ => False
  | .cell .static _ => False
  | .cell _ index => 32767 < index.toNat

/-- The number that code loads to get to an operand. -/
def loaded? : Operand → Option Word
  | .pointer _ => none
  | .cell segment index =>
      match segment.base with
      | .direct base => directAddress base index
      | _ => some index

theorem exists_loaded_iff_isOversized {operand : Operand} :
    (∃ value, operand.loaded? = some value ∧ 32767 < value.toNat) ↔ operand.IsOversized := by
  have hdirect : ∀ base index : Word,
      ¬ ∃ value, directAddress base index = some value ∧ 32767 < value.toNat := by
    rintro base index ⟨value, hvalue, hlarge⟩
    have hle := (directAddress_eq_some_iff.1 hvalue).2
    exact absurd hlarge (Nat.not_lt.2 hle)
  cases operand with
  | pointer slot => simp [loaded?, IsOversized]
  | cell segment index =>
      cases segment with
      | temp => exact iff_of_false (hdirect 5 index) id
      | static => exact iff_of_false (hdirect 16 index) id
      | _ => simp [loaded?, Segment.base, IsOversized]

/-- The indexes that the grammar has for a segment are those of operands within reach. -/
theorem hasIndex_iff {segment : Segment} {index : Word} :
    segment.HasIndex index.toNat ↔
      ¬ (cell segment index).IsBeyond ∧ ¬ (cell segment index).IsOversized := by
  cases segment <;> simp [Segment.HasIndex, IsBeyond, IsOversized]

theorem not_beyond_of_isOperand {text : List Char} {operand : Operand}
    (h : IsOperand text operand) : ¬ operand.IsBeyond ∧ ¬ operand.IsOversized := by
  cases h with
  | cell _ _ _ hindex => exact hasIndex_iff.1 hindex
  | pointer slot _ => exact ⟨id, id⟩

end Operand

namespace Code

theorem push?_eq_none_iff {operand : Operand} : push? operand = none ↔ operand.IsBeyond := by
  rw [push?, Option.map_eq_none_iff]
  cases operand with
  | pointer slot => simp [fetch?, Operand.IsBeyond]
  | cell segment index =>
      cases segment <;>
        simp [fetch?, Segment.base, directAddress_eq_none_iff, Operand.IsBeyond, Word.maxLoadable]

theorem pop?_eq_none_iff {operand : Operand} :
    pop? operand = none ↔ operand.isWritable = false ∨ operand.IsBeyond := by
  cases operand with
  | pointer slot => simp [pop?, Operand.isWritable, Operand.IsBeyond]
  | cell segment index =>
      cases segment <;>
        simp [pop?, Segment.base, directAddress_eq_none_iff, Operand.isWritable, Operand.IsBeyond,
          Word.maxLoadable]

theorem constants_push {operand : Operand} {code : List Instruction}
    (h : push? operand = some code) : constants code = operand.loaded?.toList := by
  obtain ⟨fetched, hfetch, rfl⟩ := Option.map_eq_some_iff.1 h
  have hpushD : constants pushD = [] := rfl
  rw [constants_append, hpushD, List.append_nil]
  cases operand with
  | pointer slot =>
      cases hfetch
      rfl
  | cell segment index =>
      cases hbase : segment.base with
      | absent =>
          simp only [fetch?, hbase] at hfetch
          cases hfetch
          simp only [Operand.loaded?, hbase]
          rfl
      | indirect register =>
          simp only [fetch?, hbase] at hfetch
          cases hfetch
          simp only [Operand.loaded?, hbase]
          rfl
      | direct base =>
          simp only [fetch?, hbase] at hfetch
          obtain ⟨address, haddress, rfl⟩ := Option.map_eq_some_iff.1 hfetch
          simp only [Operand.loaded?, hbase, haddress]
          rfl

theorem constants_pop {operand : Operand} {code : List Instruction}
    (h : pop? operand = some code) : constants code = operand.loaded?.toList := by
  cases operand with
  | pointer slot =>
      cases h
      rfl
  | cell segment index =>
      cases hbase : segment.base with
      | absent =>
          simp only [pop?, hbase] at h
          cases h
      | indirect register =>
          simp only [pop?, hbase] at h
          cases h
          simp only [Operand.loaded?, hbase]
          rfl
      | direct base =>
          simp only [pop?, hbase] at h
          obtain ⟨address, haddress, rfl⟩ := Option.map_eq_some_iff.1 h
          simp only [Operand.loaded?, hbase, haddress]
          rfl

/-- Code that neither jumps nor has labels has the names of registers only. -/
theorem isRegister_of_mem_names {code : List Instruction} (h : code.all Instruction.isPlain = true)
    {name : String} (hname : name ∈ names code) : SymbolTable.isRegister name = true := by
  rcases mem_names_iff.1 hname with hmem | hmem
  · exact List.all_eq_true.1 h _ hmem
  · cases List.all_eq_true.1 h _ hmem

end Code

/-! ## Commands without code, and commands with too large a number in it -/

namespace Command

/-- The commands that have no code. -/
def IsUnsupported : Command → Prop
  | .push operand => operand.IsBeyond
  | .pop (.cell .constant _) => True
  | .pop operand => operand.IsBeyond
  | _ => False

/-- The commands whose code loads a number of more than 15 bits. -/
def IsOversized : Command → Prop
  | .push operand => operand.IsOversized
  | .pop (.cell .constant _) => False
  | .pop operand => operand.IsOversized
  | _ => False

/-- The number that the code of a command loads for its operand. -/
def loaded? : Command → Option Word
  | .push operand => operand.loaded?
  | .pop operand => operand.loaded?
  | _ => none

theorem isUnsupported_pop_iff {operand : Operand} :
    (pop operand).IsUnsupported ↔ operand.isWritable = false ∨ operand.IsBeyond := by
  cases operand with
  | pointer slot => simp [IsUnsupported, Operand.isWritable]
  | cell segment index => cases segment <;> simp [IsUnsupported, Operand.isWritable]

theorem isOversized_pop_iff {operand : Operand} :
    (pop operand).IsOversized ↔ operand.isWritable = true ∧ operand.IsOversized := by
  cases operand with
  | pointer slot => simp [IsOversized, Operand.isWritable]
  | cell segment index => cases segment <;> simp [IsOversized, Operand.isWritable]

theorem not_isUnsupported_of_isOversized {command : Command} (h : command.IsOversized) :
    ¬ command.IsUnsupported := by
  have hoperand : ∀ operand : Operand, operand.IsOversized → ¬ operand.IsBeyond := by
    intro operand hsize hbeyond
    cases operand with
    | pointer slot => exact hsize
    | cell segment index =>
        cases segment with
        | temp => exact hsize
        | static => exact hsize
        | _ => exact hbeyond
  cases command with
  | push operand => exact hoperand operand h
  | pop operand =>
      obtain ⟨hwritable, hsize⟩ := isOversized_pop_iff.1 h
      rw [isUnsupported_pop_iff, hwritable]
      rintro (hconstant | hbeyond)
      · cases hconstant
      · exact hoperand operand hsize hbeyond
  | _ => exact h.elim

theorem code?_eq_none_iff {line : Nat} {command : Command} :
    command.code? line = none ↔ command.IsUnsupported := by
  cases command with
  | push operand => exact Code.push?_eq_none_iff
  | pop operand => exact Code.pop?_eq_none_iff.trans isUnsupported_pop_iff.symm
  | arithmetic operator => cases operator <;> simp [code?, IsUnsupported]
  | _ => simp [code?, IsUnsupported]

/-- A command fails to compile exactly if it has no code; the error has the line and the
command. -/
theorem compile_eq_error_iff {line : Nat} {command : Command} {error : CompileError} :
    command.compile line = .error error ↔
      error = .unsupported line command ∧ command.IsUnsupported := by
  rw [← @code?_eq_none_iff line, compile]
  cases command.code? line with
  | none => simp [eq_comm]
  | some code => simp

theorem constants_code {line : Nat} {command : Command} {code : List Instruction}
    (h : command.code? line = some code) : Code.constants code = command.loaded?.toList := by
  cases command with
  | push operand => exact Code.constants_push h
  | pop operand => exact Code.constants_pop h
  | arithmetic operator =>
      cases operator with
      | unary operator =>
          cases h
          cases operator <;> rfl
      | binary operator =>
          cases h
          cases operator <;> rfl
      | comparison operator =>
          cases h
          rfl
  | _ =>
      cases h
      rfl

/-- Of the commands that have code, these are the ones that load a number of more than 15 bits. -/
theorem exists_large_constant_iff {line : Nat} {command : Command} {code : List Instruction}
    (h : command.code? line = some code) :
    (∃ value, .operation (.constant value) ∈ code ∧ 32767 < value.toNat)
      ↔ command.IsOversized := by
  simp only [← Code.mem_constants_iff, constants_code h, Option.mem_toList]
  cases command with
  | push operand => exact Operand.exists_loaded_iff_isOversized
  | pop operand =>
      have hwritable : operand.isWritable = true := by
        rw [← Bool.not_eq_false]
        intro hconstant
        rw [code?, Code.pop?_eq_none_iff.2 (Or.inl hconstant)] at h
        cases h
      rw [isOversized_pop_iff, and_iff_right hwritable]
      exact Operand.exists_loaded_iff_isOversized
  | _ => simp [loaded?, IsOversized]

theorem exists_compile_large_iff {line : Nat} {command : Command} :
    (∃ fragment, command.compile line = .ok fragment
        ∧ ∃ value, .operation (.constant value) ∈ fragment.code ∧ 32767 < value.toNat)
      ↔ command.IsOversized := by
  constructor
  · rintro ⟨fragment, hcompile, hlarge⟩
    exact (exists_large_constant_iff (compile_eq_ok_iff.1 hcompile).2.2).1 hlarge
  · intro hoversized
    cases hcode : command.code? line with
    | some code =>
        exact ⟨⟨line, command, code⟩, compile_eq_ok_iff.2 ⟨rfl, rfl, hcode⟩,
          (exists_large_constant_iff hcode).2 hoversized⟩
    | none => exact absurd (code?_eq_none_iff.1 hcode) (not_isUnsupported_of_isOversized hoversized)

/-- The names in the code of a command: registers, labels of comparisons, and its own name. -/
theorem names_code {line : Nat} {command : Command} {code : List Instruction}
    (h : command.code? line = some code) {name : String} (hname : name ∈ Code.names code) :
    SymbolTable.isRegister name = true ∨ name ∈ command.ownLabels line
      ∨ command.name? = some name := by
  have hpopD : ∀ {other}, other ∈ Code.names Code.popD → SymbolTable.isRegister other = true :=
    fun hother => Code.isRegister_of_mem_names (by decide) hother
  cases command with
  | push operand => exact Or.inl (Code.isRegister_of_mem_names (Code.plain_push h) hname)
  | pop operand => exact Or.inl (Code.isRegister_of_mem_names (Code.plain_pop h) hname)
  | arithmetic operator =>
      cases operator with
      | unary operator =>
          cases h
          have hplain : (Code.unary operator).all Instruction.isPlain = true := by
            cases operator <;> rfl
          exact Or.inl (Code.isRegister_of_mem_names hplain hname)
      | binary operator =>
          cases h
          have hplain : (Code.binary operator).all Instruction.isPlain = true := by
            cases operator <;> rfl
          exact Or.inl (Code.isRegister_of_mem_names hplain hname)
      | comparison operator =>
          cases h
          have hmem : name = "SP" ∨ name ∈ Code.comparisonLabels operator line := by
            revert hname
            simp only [Code.names, Code.comparison, Code.setTop, Code.comparisonLabels,
              Instruction.load, Instruction.store, Instruction.branch, Instruction.name?,
              List.filterMap_cons, List.filterMap_nil, List.cons_append, List.nil_append,
              List.mem_cons, List.not_mem_nil]
            tauto
          rcases hmem with rfl | hmem
          · exact Or.inl (by decide)
          · exact Or.inr (Or.inl hmem)
  | label other =>
      cases h
      exact Or.inr (Or.inr (congrArg some (List.mem_singleton.1 hname).symm))
  | goto other =>
      cases h
      exact Or.inr (Or.inr (congrArg some (List.mem_singleton.1 hname).symm))
  | ifGoto other =>
      cases h
      rw [Code.names, List.filterMap_append, List.mem_append] at hname
      rcases hname with hpop | hload
      · exact Or.inl (hpopD hpop)
      · exact Or.inr (Or.inr (congrArg some (List.mem_singleton.1 hload).symm))
  | comment =>
      cases h
      cases hname

/-- Only a line without a command has no instructions. -/
theorem code_ne_nil {line : Nat} {command : Command} {code : List Instruction}
    (h : command.code? line = some code) (hcommand : command ≠ .comment) : code ≠ [] := by
  rintro rfl
  cases command with
  | comment => exact hcommand rfl
  | push operand =>
      obtain ⟨fetched, -, happend⟩ := Option.map_eq_some_iff.1 h
      exact absurd (List.append_eq_nil_iff.1 happend).2 (by decide)
  | pop operand =>
      cases operand with
      | pointer slot => cases h
      | cell segment index =>
          simp only [code?, Code.pop?] at h
          split at h
          · cases h
          · cases h
          · obtain ⟨address, -, hcode⟩ := Option.map_eq_some_iff.1 h
            cases hcode
  | arithmetic operator => cases operator <;> cases h
  | _ => cases h

end Command

/-! ## What is read has code -/

namespace Symbol

theorem isSymbol_of_isRegister {name : String} (h : SymbolTable.isRegister name = true) :
    IsSymbol name.toList := by
  have hall : ∀ entry ∈ SymbolTable.registers, isSymbol entry.1 = true := by decide
  obtain ⟨value, hvalue⟩ := Option.isSome_iff_exists.1 h
  obtain ⟨before, after, hsplit, -⟩ := List.lookup_eq_some_iff.1 hvalue
  exact isSymbol_iff.1 (hall (name, value) (by simp [hsplit]))

theorem isSymbol_of_isReserved {name : String} (h : isReserved name = true) :
    IsSymbol name.toList := by
  obtain ⟨stem, hstem, digits, hdigits, hname⟩ := isReserved_iff.1 h
  have hall : ∀ stem ∈ ["EQ", "GT", "LT", "NEQ", "NGT", "NLT", "CONT"], isSymbol stem = true := by
    decide
  obtain ⟨c, rest, hsplit, hstart, hrest⟩ := isSymbol_iff.1 (hall stem hstem)
  refine ⟨c, rest ++ '_' :: digits, by rw [hname, hsplit, List.cons_append], hstart, ?_⟩
  intro d hd
  rcases List.mem_append.1 hd with hd | hd
  · exact hrest d hd
  · rcases List.mem_cons.1 hd with rfl | hd
    · exact Or.inl (isStart_iff.1 (by decide))
    · exact Or.inr (hdigits.2 d hd)

theorem isSymbol_of_isLabelName {name : String} (h : Command.isLabelName name = true) :
    IsSymbol name.toList :=
  (Command.isLabelName_iff.1 h).1

end Symbol

namespace Command

/-- Reading yields neither commands without code nor oversized ones. -/
theorem not_isUnsupported_of_parse {line : Nat} {text : String} {command : Command}
    (h : parse line text = .ok command) : ¬ command.IsUnsupported ∧ ¬ command.IsOversized := by
  have hcommand := parse_eq_ok_iff.1 h
  generalize Text.trim (Text.beforeComment text.toList) = code at hcommand
  cases hcommand with
  | push _ hoperand => exact Operand.not_beyond_of_isOperand hoperand
  | @pop _ _ operand _ hoperand hwritable =>
      obtain ⟨hbeyond, hsize⟩ := Operand.not_beyond_of_isOperand hoperand
      rw [isUnsupported_pop_iff, isOversized_pop_iff, Operand.isWritable_iff.2 hwritable]
      exact ⟨fun h => hbeyond (h.resolve_left (by decide)), fun h => hsize h.2⟩
  | _ => exact ⟨id, id⟩

/-- If a program may use the name in a command, then all names in its code are symbols. -/
theorem isSymbol_of_mem_names {line : Nat} {command : Command} {code : List Instruction}
    (h : command.code? line = some code)
    (hown : ∀ name, command.name? = some name → isLabelName name = true) {name : String}
    (hname : name ∈ Code.names code) : Symbol.IsSymbol name.toList := by
  rcases names_code h hname with hregister | hgenerated | hused
  · exact Symbol.isSymbol_of_isRegister hregister
  · exact Symbol.isSymbol_of_isReserved (isReserved_of_mem_ownLabels hgenerated)
  · exact Symbol.isSymbol_of_isLabelName (hown name hused)

/-- What is read has code. Its numbers have 15 bits, and its names are symbols. -/
theorem exists_compile_of_parse {line : Nat} {text : String} {command : Command}
    (h : parse line text = .ok command) :
    ∃ code, command.code? line = some code
      ∧ (∀ value, .operation (.constant value) ∈ code → value.toNat ≤ 32767)
      ∧ ∀ name ∈ Code.names code, Symbol.IsSymbol name.toList := by
  obtain ⟨hsupported, hsize⟩ := not_isUnsupported_of_parse h
  cases hcode : command.code? line with
  | none => exact absurd (code?_eq_none_iff.1 hcode) hsupported
  | some code =>
      refine ⟨code, rfl, fun value hvalue => ?_,
        fun name => isSymbol_of_mem_names hcode fun _ hown => isLabelName_of_parse h hown⟩
      by_contra hlarge
      exact hsize ((exists_large_constant_iff hcode).1 ⟨value, hvalue, Nat.not_le.1 hlarge⟩)

end Command

end HackStack
