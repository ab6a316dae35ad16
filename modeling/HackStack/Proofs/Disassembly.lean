import HackStack.Machine.Run
import HackStack.Proofs.EntryPoints

set_option autoImplicit false

/-! # Reading assembly text

The assembly text of code can be read back. A line is one instruction: `@` and a number or a symbol,
a label in parentheses, or a computation with an optional destination before `=` and an optional
jump after `;`. A blank line ends a fragment. The reader (`Disassembly.read`) recovers the code of
every fragment from the text without annotations (`text_determines_code`), so two sources have the
same text exactly if they have the same code, fragment by fragment.
-/

namespace HackStack

/-! ## Parts of a text -/

namespace Text

/-- The parts of a text before and after the first separator, if it has one. -/
def divide (separator : Char) (s : List Char) : Option (List Char × List Char) :=
  if separator ∈ s then
    some (s.takeWhile (· != separator), (s.dropWhile (· != separator)).drop 1)
  else none

theorem divide_of_not_mem {separator : Char} {s : List Char} (h : separator ∉ s) :
    divide separator s = none := if_neg h

theorem divide_append_cons {separator : Char} {before : List Char} (h : separator ∉ before)
    (after : List Char) :
    divide separator (before ++ separator :: after) = some (before, after) := by
  have hbefore : ∀ c ∈ before, (c != separator) = true := by
    intro c hc
    simp only [bne_iff_ne, ne_eq]
    rintro rfl
    exact h hc
  rw [divide, if_pos (by simp), List.takeWhile_append_of_pos hbefore,
    List.dropWhile_append_of_pos hbefore]
  simp

/-- The value, out of some, that has the given text. -/
def named? {α : Type} (all : List α) (text : α → String) (word : List Char) : Option α :=
  all.find? fun value => (text value).toList == word

/-- The characters of assembly text that are in no computation. -/
def outerSeparators : List Char := ['@', '(', ')', '\n', '\r']

/-- The characters that have a meaning of their own in assembly text. -/
def separators : List Char := ['@', '(', ')', '\n', '\r', '=', ';']

/-- Whether a text has none of these characters. -/
def lacksSeparators (s : List Char) : Bool := s.all fun c => !separators.contains c

theorem mem_separators_of_outer {c : Char} (hc : c ∈ outerSeparators) :
    c ∈ separators ∧ c ≠ '=' ∧ c ≠ ';' := by
  simp only [outerSeparators, List.mem_cons, List.not_mem_nil, or_false] at hc
  rcases hc with rfl | rfl | rfl | rfl | rfl <;> decide

theorem not_mem_of_lacksSeparators {s : List Char} (h : lacksSeparators s = true) {c : Char}
    (hc : c ∈ separators) : c ∉ s := by
  intro hmem
  have hout := List.all_eq_true.1 h c hmem
  rw [List.contains_iff_mem.2 hc] at hout
  cases hout

theorem not_mem_toString (n : Nat) {c : Char} (hc : c ∈ separators) :
    c ∉ (toString n).toList := by
  have hall : separators.all (!·.isDigit) = true := by decide
  intro hmem
  rw [toList_toString_nat] at hmem
  have hdigit := Nat.isDigit_of_mem_toDigits (by decide) (by decide) hmem
  have hout := List.all_eq_true.1 hall c hc
  rw [hdigit] at hout
  cases hout

end Text

namespace Symbol

theorem IsSymbol.not_mem {name : List Char} (h : IsSymbol name) {c : Char}
    (hc : c ∈ Text.separators) : c ∉ name := by
  have hall : Text.separators.all (!isPart ·) = true := by decide
  have hpart : ¬ (IsStart c ∨ ('0' ≤ c ∧ c ≤ '9')) := by
    rw [← isPart_iff, Bool.not_eq_true, ← Bool.not_eq_true']
    exact List.all_eq_true.1 hall c hc
  obtain ⟨first, rest, rfl, hfirst, hrest⟩ := h
  intro hmem
  rcases List.mem_cons.1 hmem with rfl | hmem
  · exact hpart (Or.inl hfirst)
  · exact hpart (hrest c hmem)

/-- A symbol is not a number. -/
theorem IsSymbol.decimal?_eq_none {name : List Char} (h : IsSymbol name) :
    Text.decimal? name = none := by
  obtain ⟨first, rest, rfl, hfirst, -⟩ := h
  refine if_neg fun hnumeral => ?_
  obtain ⟨hge, hle⟩ := (Text.isNumeral_iff.1 hnumeral).2 first List.mem_cons_self
  rcases hfirst with ⟨hupper, -⟩ | ⟨hlower, -⟩ | rfl | rfl | rfl
  · exact absurd (Char.le_trans hupper hle) (by decide)
  · exact absurd (Char.le_trans hlower hle) (by decide)
  · exact absurd hle (by decide)
  · exact absurd hge (by decide)
  · exact absurd hge (by decide)

end Symbol

/-! ## The parts of a computation -/

namespace Comp

/-- All computations. -/
def all : List Comp :=
  [.zero, .one, .minusOne, .d, .notD, .negD, .succD, .predD]
    ++ [UnitInput.a, UnitInput.m].flatMap fun x =>
      [.input x, .notInput x, .negInput x, .succInput x, .predInput x, .dPlus x, .dMinus x,
        .minusD x, .dAnd x, .dOr x]

theorem mem_all (comp : Comp) : comp ∈ all := by
  cases comp with
  | zero | one | minusOne | d | notD | negD | succD | predD => decide
  | _ x => cases x <;> decide

theorem named?_text (comp : Comp) : Text.named? all text comp.text.toList = some comp := by
  have hall : ∀ c ∈ all, Text.named? all text c.text.toList = some c := by decide
  exact hall comp (mem_all comp)

theorem not_mem_text (comp : Comp) {c : Char} (hc : c ∈ Text.separators) :
    c ∉ comp.text.toList := by
  have hall : ∀ comp ∈ all, Text.lacksSeparators comp.text.toList = true := by decide
  exact Text.not_mem_of_lacksSeparators (hall comp (mem_all comp)) hc

end Comp

namespace Dest

/-- All destinations. -/
def all : List Dest :=
  [false, true].flatMap fun a => [false, true].flatMap fun m => [false, true].map fun d => ⟨a, m, d⟩

theorem mem_all (dest : Dest) : dest ∈ all := by
  obtain ⟨a, m, d⟩ := dest
  cases a <;> cases m <;> cases d <;> decide

theorem named?_text (dest : Dest) : Text.named? all text dest.text.toList = some dest := by
  have hall : ∀ d ∈ all, Text.named? all text d.text.toList = some d := by decide
  exact hall dest (mem_all dest)

theorem not_mem_text (dest : Dest) {c : Char} (hc : c ∈ Text.separators) :
    c ∉ dest.text.toList := by
  have hall : ∀ dest ∈ all, Text.lacksSeparators dest.text.toList = true := by decide
  exact Text.not_mem_of_lacksSeparators (hall dest (mem_all dest)) hc

/-- What stands before a computation. -/
def part (dest : Dest) : List Char := if dest.isEmpty then [] else dest.text.toList ++ ['=']

theorem not_mem_part (dest : Dest) {c : Char} (hc : c ∈ Text.outerSeparators) : c ∉ dest.part := by
  obtain ⟨hseparator, hequals, -⟩ := Text.mem_separators_of_outer hc
  unfold part
  split
  · exact List.not_mem_nil
  · simp [dest.not_mem_text hseparator, hequals]

end Dest

namespace Jump

/-- All jumps. -/
def all : List Jump := [.greater, .equal, .greaterEqual, .less, .notEqual, .lessEqual, .always]

theorem mem_all (jump : Jump) : jump ∈ all := by
  cases jump <;> decide

theorem named?_text (jump : Jump) : Text.named? all text jump.text.toList = some jump := by
  have hall : ∀ j ∈ all, Text.named? all text j.text.toList = some j := by decide
  exact hall jump (mem_all jump)

theorem not_mem_text (jump : Jump) {c : Char} (hc : c ∈ Text.separators) :
    c ∉ jump.text.toList := by
  have hall : ∀ jump ∈ all, Text.lacksSeparators jump.text.toList = true := by decide
  exact Text.not_mem_of_lacksSeparators (hall jump (mem_all jump)) hc

/-- What stands behind a computation. -/
def part : Option Jump → List Char
  | none => []
  | some jump => ';' :: jump.text.toList

theorem not_mem_part (jump : Option Jump) {c : Char} (hc : c ∈ Text.separators) (hne : c ≠ ';') :
    c ∉ part jump := by
  cases jump with
  | none => exact List.not_mem_nil
  | some jump =>
      rw [part, List.mem_cons, not_or]
      exact ⟨hne, jump.not_mem_text hc⟩

end Jump

/-! ## The reader -/

namespace Disassembly

/-- Reads a computation. -/
def readCompute (s : List Char) : Option Operation :=
  let (dest, rest) := (Text.divide '=' s).getD ([], s)
  match Text.divide ';' rest with
  | none => do
      return .compute (← Text.named? Dest.all Dest.text dest)
        (← Text.named? Comp.all Comp.text rest) none
  | some (comp, jump) => do
      return .compute (← Text.named? Dest.all Dest.text dest)
        (← Text.named? Comp.all Comp.text comp) (some (← Text.named? Jump.all Jump.text jump))

/-- Reads what an address instruction loads. -/
def readAddress (s : List Char) : Option Operation :=
  match Text.decimal? s with
  | some n => (Word.ofNat? n).map .constant
  | none => if Symbol.isSymbol (String.ofList s) then some (.symbol (String.ofList s)) else none

/-- Reads the name of a label, up to the closing parenthesis. -/
def readLabel (s : List Char) : Option Instruction :=
  match Text.divide ')' s with
  | some (name, []) =>
      if Symbol.isSymbol (String.ofList name) then some (.label (String.ofList name)) else none
  | _ => none

/-- Reads a line of assembly text. -/
def readLine (line : String) : Option Instruction :=
  match line.toList with
  | '@' :: rest => (readAddress rest).map .operation
  | '(' :: rest => readLabel rest
  | s => (readCompute s).map .operation

/-- Reads assembly text: the instructions of each fragment. -/
def read (text : String) : Option (List (List Instruction)) :=
  (((Text.lines text).splitOn "").dropLast).mapM fun lines => lines.mapM readLine

end Disassembly

/-! ## Code that can be written -/

/-- The names in an instruction are symbols. -/
def Instruction.IsLegible (instruction : Instruction) : Prop :=
  ∀ name, instruction.name? = some name → Symbol.IsSymbol name.toList

/-- There is code, and all names in it are symbols. -/
structure Code.IsLegible (code : List Instruction) : Prop where
  ne_nil : code ≠ []
  isSymbol : ∀ name ∈ Code.names code, Symbol.IsSymbol name.toList

theorem Code.IsLegible.instruction {code : List Instruction} (h : IsLegible code)
    {instruction : Instruction} (hmem : instruction ∈ code) : instruction.IsLegible :=
  fun name hname => h.isSymbol name (List.mem_filterMap.2 ⟨instruction, hmem, hname⟩)

/-- The lines of code in a text without annotations. -/
def Code.lines (code : List Instruction) : List String :=
  if code.isEmpty then [] else code.map Instruction.text ++ [""]

theorem Code.IsLegible.lines_eq {code : List Instruction} (h : IsLegible code) :
    Code.lines code = code.map Instruction.text ++ [""] := by
  rw [Code.lines, if_neg (by rw [List.isEmpty_iff]; exact h.ne_nil)]

theorem IsCompiled.isLegible {fragments : List Fragment} (h : IsCompiled fragments)
    {fragment : Fragment} (hmem : fragment ∈ fragments) : Code.IsLegible fragment.code :=
  ⟨h.nonempty fragment hmem, fun _ hname =>
    Command.isSymbol_of_mem_names (h.code fragment hmem) (h.names fragment hmem) hname⟩

/-! ## The characters of an instruction -/

namespace Instruction

theorem toList_text_constant (value : Word) :
    (operation (.constant value)).text.toList = '@' :: (toString value.toNat).toList := by
  simp [text, Operation.text]

theorem toList_text_symbol (name : String) :
    (operation (.symbol name)).text.toList = '@' :: name.toList := by
  simp [text, Operation.text]

theorem toList_text_compute (dest : Dest) (comp : Comp) (jump : Option Jump) :
    (operation (.compute dest comp jump)).text.toList
      = dest.part ++ (comp.text.toList ++ Jump.part jump) := by
  cases jump <;> cases hdest : dest.isEmpty <;>
    simp [text, Operation.text, Dest.part, Jump.part, hdest]

theorem toList_text_label (name : String) :
    (label name).text.toList = '(' :: (name.toList ++ [')']) := by
  simp [text]

theorem not_mem_text_compute (dest : Dest) (comp : Comp) (jump : Option Jump) {c : Char}
    (hc : c ∈ Text.outerSeparators) :
    c ∉ (operation (.compute dest comp jump)).text.toList := by
  obtain ⟨hseparator, -, hsemicolon⟩ := Text.mem_separators_of_outer hc
  rw [toList_text_compute, List.mem_append, List.mem_append]
  rintro (hdest | hcomp | hjump)
  · exact dest.not_mem_part hc hdest
  · exact comp.not_mem_text hseparator hcomp
  · exact Jump.not_mem_part jump hseparator hsemicolon hjump

/-- The line of an instruction does not end within its text. -/
theorem not_mem_text {instruction : Instruction} (h : instruction.IsLegible) {c : Char}
    (hc : c = '\n' ∨ c = '\r') : c ∉ instruction.text.toList := by
  have houter : c ∈ Text.outerSeparators := by rcases hc with rfl | rfl <;> decide
  obtain ⟨hat, hopen, hclose⟩ : c ≠ '@' ∧ c ≠ '(' ∧ c ≠ ')' := by
    rcases hc with rfl | rfl <;> decide
  have hseparator := (Text.mem_separators_of_outer houter).1
  cases instruction with
  | label name =>
      have hname : c ∉ name.toList := (h name rfl).not_mem hseparator
      simp [toList_text_label, hopen, hclose, hname]
  | operation op =>
      cases op with
      | constant value =>
          rw [toList_text_constant, List.mem_cons, not_or]
          exact ⟨hat, Text.not_mem_toString value.toNat hseparator⟩
      | symbol name =>
          rw [toList_text_symbol, List.mem_cons, not_or]
          exact ⟨hat, (h name rfl).not_mem hseparator⟩
      | compute dest comp jump => exact not_mem_text_compute dest comp jump houter

end Instruction

/-! ## Reading an instruction -/

namespace Disassembly

open Text

theorem divide_dest (dest : Dest) {rest : List Char} (h : '=' ∉ rest) :
    (divide '=' (dest.part ++ rest)).getD ([], dest.part ++ rest) = (dest.text.toList, rest) := by
  cases hdest : dest.isEmpty with
  | true =>
      -- without a destination there is no `=`, and the reader takes the empty one
      have hnowhere := Dest.isEmpty_iff.1 hdest
      rw [hnowhere]
      exact congrArg (Option.getD · _) (divide_of_not_mem h)
  | false =>
      have hmem : '=' ∉ dest.text.toList := dest.not_mem_text (by decide)
      simp [Dest.part, hdest, divide_append_cons hmem]

theorem readCompute_parts (dest : Dest) (comp : Comp) (jump : Option Jump) :
    readCompute (dest.part ++ (comp.text.toList ++ Jump.part jump))
      = some (.compute dest comp jump) := by
  have hequals : '=' ∉ comp.text.toList ++ Jump.part jump := by
    rw [List.mem_append, not_or]
    exact ⟨comp.not_mem_text (by decide), Jump.not_mem_part jump (by decide) (by decide)⟩
  have hsemicolon : ';' ∉ comp.text.toList := comp.not_mem_text (by decide)
  rw [readCompute, divide_dest dest hequals]
  cases jump with
  | none =>
      simp [Jump.part, divide_of_not_mem hsemicolon, Dest.named?_text, Comp.named?_text]
  | some jump =>
      simp [Jump.part, divide_append_cons hsemicolon, Dest.named?_text, Comp.named?_text,
        Jump.named?_text]

theorem readAddress_toString (value : Word) :
    readAddress (toString value.toNat).toList = some (.constant value) := by
  rw [readAddress, decimal?_toString]
  exact congrArg (Option.map Operation.constant) (Word.ofNat?_toNat value)

theorem readAddress_name {name : String} (h : Symbol.IsSymbol name.toList) :
    readAddress name.toList = some (.symbol name) := by
  simp [readAddress, h.decimal?_eq_none, Symbol.isSymbol_iff.2 h]

theorem readLabel_name {name : String} (h : Symbol.IsSymbol name.toList) :
    readLabel (name.toList ++ [')']) = some (.label name) := by
  rw [readLabel, divide_append_cons (h.not_mem (by decide))]
  simp [Symbol.isSymbol_iff.2 h]

theorem readLine_of_head {line : String} (haddress : line.toList.head? ≠ some '@')
    (hlabel : line.toList.head? ≠ some '(') :
    readLine line = (readCompute line.toList).map .operation := by
  unfold readLine
  split
  · rename_i rest hline
    exact absurd (congrArg List.head? hline) haddress
  · rename_i rest hline
    exact absurd (congrArg List.head? hline) hlabel
  · rfl

/-- An instruction is read back from its line. -/
theorem readLine_text {instruction : Instruction} (h : instruction.IsLegible) :
    readLine instruction.text = some instruction := by
  cases instruction with
  | label name =>
      rw [readLine, Instruction.toList_text_label]
      exact readLabel_name (h name rfl)
  | operation op =>
      cases op with
      | constant value =>
          rw [readLine, Instruction.toList_text_constant]
          exact congrArg (Option.map Instruction.operation) (readAddress_toString value)
      | symbol name =>
          rw [readLine, Instruction.toList_text_symbol]
          exact congrArg (Option.map Instruction.operation) (readAddress_name (h name rfl))
      | compute dest comp jump =>
          -- neither of the characters that announce other lines is in it, so not in front either
          have hhead : ∀ c ∈ outerSeparators,
              (Instruction.operation (.compute dest comp jump)).text.toList.head? ≠ some c :=
            fun c hc hhead =>
              Instruction.not_mem_text_compute dest comp jump hc (List.mem_of_head? hhead)
          rw [readLine_of_head (hhead '@' (by decide)) (hhead '(' (by decide)),
            Instruction.toList_text_compute, readCompute_parts]
          rfl

/-- No instruction has an empty line; those are left for the ends of fragments. -/
theorem text_ne_empty {instruction : Instruction} (h : instruction.IsLegible) :
    instruction.text ≠ "" := by
  have hempty : readLine "" = none := by decide
  intro htext
  have hread := readLine_text h
  rw [htext, hempty] at hread
  cases hread

/-- Instructions are told apart by their texts. -/
theorem text_injective {instruction other : Instruction} (h : instruction.IsLegible)
    (h' : other.IsLegible) (htext : instruction.text = other.text) : instruction = other := by
  have hread := readLine_text h
  rw [htext, readLine_text h', Option.some.injEq] at hread
  exact hread.symm

/-! ## Reading fragments -/

/-- The text without annotations depends on the code alone. -/
theorem textOf_eq_ofLines (fragments : List Fragment) :
    Fragment.textOf false fragments
      = ofLines ((fragments.map Fragment.code).flatMap Code.lines) := by
  rw [Fragment.textOf_eq_ofLines, List.flatMap_map]
  rfl

section Fragments

variable {fragments : List Fragment} (h : ∀ fragment ∈ fragments, Code.IsLegible fragment.code)

include h

theorem textOf_eq :
    Fragment.textOf false fragments = ofLines
      (fragments.flatMap fun fragment => fragment.code.map Instruction.text ++ [""]) := by
  rw [textOf_eq_ofLines, List.flatMap_map]
  exact congrArg ofLines (List.flatMap_congr fun fragment hmem => (h fragment hmem).lines_eq)

theorem lines_textOf :
    lines (Fragment.textOf false fragments)
      = fragments.flatMap fun fragment => fragment.code.map Instruction.text ++ [""] := by
  rw [textOf_eq h]
  refine lines_ofLines fun line hline => ?_
  obtain ⟨fragment, hfragment, hmem⟩ := List.mem_flatMap.1 hline
  rcases List.mem_append.1 hmem with hmem | hmem
  · obtain ⟨instruction, hinstruction, rfl⟩ := List.mem_map.1 hmem
    have hlegible := (h fragment hfragment).instruction hinstruction
    exact ⟨Instruction.not_mem_text hlegible (Or.inl rfl),
      Instruction.not_mem_text hlegible (Or.inr rfl)⟩
  · rw [List.mem_singleton.1 hmem]
    exact ⟨by decide, by decide⟩

/-- The blank lines are at the ends of the fragments. -/
theorem splitOn_lines_textOf :
    (lines (Fragment.textOf false fragments)).splitOn ""
      = fragments.map (fun fragment => fragment.code.map Instruction.text) ++ [[]] := by
  rw [lines_textOf h]
  induction fragments with
  | nil => rfl
  | cons fragment rest ih =>
      rw [List.forall_mem_cons] at h
      have hmem : "" ∉ fragment.code.map Instruction.text := by
        intro hmem
        obtain ⟨instruction, hinstruction, htext⟩ := List.mem_map.1 hmem
        exact text_ne_empty (h.1.instruction hinstruction) htext
      -- so the first blank line is the one at the end of the first fragment
      rw [List.flatMap_cons, List.append_assoc, List.singleton_append,
        List.splitOn_append_cons_self_of_not_mem hmem, ih h.2, List.map_cons, List.cons_append]

end Fragments

theorem mapM_map_eq_some {α β : Type} {read : β → Option α} {write : α → β} {values : List α}
    (h : ∀ value ∈ values, read (write value) = some value) :
    (values.map write).mapM read = some values := by
  induction values with
  | nil => rfl
  | cons value rest ih =>
      rw [List.forall_mem_cons] at h
      rw [List.map_cons, List.mapM_cons, h.1, ih h.2]
      rfl

/-- The code of fragments is read back from their text. -/
theorem read_textOf {fragments : List Fragment}
    (h : ∀ fragment ∈ fragments, Code.IsLegible fragment.code) :
    read (Fragment.textOf false fragments) = some (fragments.map Fragment.code) := by
  have hlines : ((lines (Fragment.textOf false fragments)).splitOn "").dropLast
      = (fragments.map Fragment.code).map fun code => code.map Instruction.text := by
    calc ((lines (Fragment.textOf false fragments)).splitOn "").dropLast
        = (fragments.map (fun fragment : Fragment => fragment.code.map Instruction.text)
            ++ [[]]).dropLast := by rw [splitOn_lines_textOf h]
      _ = fragments.map fun fragment => fragment.code.map Instruction.text :=
          List.dropLast_concat
      _ = (fragments.map Fragment.code).map fun code => code.map Instruction.text :=
          List.map_map.symm
  rw [read, hlines]
  refine mapM_map_eq_some fun code hcode => mapM_map_eq_some fun instruction hinstruction => ?_
  obtain ⟨fragment, hfragment, rfl⟩ := List.mem_map.1 hcode
  exact readLine_text ((h fragment hfragment).instruction hinstruction)

/-- **The text determines the code.** Fragments of code with symbols for names have a text with one
line for an instruction and a blank line at the end of each fragment, from which their code is read
back, and instructions with the same text are the same. So texts of two sources are the same exactly
if their fragments have the same code, and what a source does when it is run can be told from its
text. -/
theorem text_determines_code :
    (∀ fragments : List Fragment, (∀ fragment ∈ fragments, Code.IsLegible fragment.code) →
        read (Fragment.textOf false fragments) = some (fragments.map Fragment.code)
          ∧ Fragment.textOf false fragments = ofLines
              (fragments.flatMap fun fragment => fragment.code.map Instruction.text ++ [""])
          ∧ ∀ fragment ∈ fragments, ∀ instruction ∈ fragment.code,
              instruction.text ≠ "" ∧ '\n' ∉ instruction.text.toList)
      ∧ (∀ instruction other : Instruction, instruction.IsLegible → other.IsLegible →
          (instruction.text = other.text ↔ instruction = other))
      ∧ (∀ source text source' text', Source.assemble false source = .ok text →
          Source.assemble false source' = .ok text' →
          ∃ fragments fragments', Source.compile source = .ok fragments
            ∧ Source.compile source' = .ok fragments'
            ∧ (text = text' ↔ fragments.map Fragment.code = fragments'.map Fragment.code))
      ∧ ∀ source text, Source.assemble false source = .ok text →
          ∃ codes, read text = some codes
            ∧ ∀ cells, Machine.runSource source cells
                = .ok (Machine.runCode codes.flatten cells) := by
  have hread : ∀ {source fragments}, Source.compile source = .ok fragments →
      read (Fragment.textOf false fragments) = some (fragments.map Fragment.code) := by
    intro source fragments hcompile
    exact read_textOf fun fragment hmem => (Source.isCompiled_of_compile hcompile).isLegible hmem
  refine ⟨fun fragments h => ⟨read_textOf h, textOf_eq h, fun fragment hfragment instruction hmem =>
    ?_⟩, fun instruction other h h' => ⟨text_injective h h', congrArg _⟩,
    fun source text source' text' h h' => ?_, fun source text h => ?_⟩
  · have hlegible := (h fragment hfragment).instruction hmem
    exact ⟨text_ne_empty hlegible, Instruction.not_mem_text hlegible (Or.inl rfl)⟩
  · obtain ⟨fragments, hcompile, rfl⟩ := Source.assemble_eq_ok_iff.1 h
    obtain ⟨fragments', hcompile', rfl⟩ := Source.assemble_eq_ok_iff.1 h'
    refine ⟨fragments, fragments', hcompile, hcompile', fun htext => ?_, fun hcodes => ?_⟩
    · have hcodes := hread hcompile
      rw [htext, hread hcompile', Option.some.injEq] at hcodes
      exact hcodes.symm
    · rw [textOf_eq_ofLines, textOf_eq_ofLines, hcodes]
  · obtain ⟨fragments, hcompile, rfl⟩ := Source.assemble_eq_ok_iff.1 h
    refine ⟨fragments.map Fragment.code, hread hcompile, fun cells => ?_⟩
    rw [Machine.runSource, Source.code, hcompile, ← List.flatMap_def]
    rfl

/-- Two spellings of a command with one text, and code that no command has. -/
theorem text_determines_code_spellings :
    (∃ text, Source.assemble false "push constant 7" = .ok text
        ∧ Source.assemble false "// seven\n push  constant 007" = .ok text
        ∧ read text = some [[.loadConstant 7, .store .toD (.input .a)] ++ Code.pushD])
      ∧ read (Fragment.textOf false [⟨1, .comment, [.loadConstant 65535, .load "D.1", .label "$"]⟩])
        = some [[.loadConstant 65535, .load "D.1", .label "$"]]
      ∧ (Instruction.load "D.1").text ≠ (Instruction.loadConstant 65535).text := by
  obtain ⟨hfragments, hinstructions, hsources, -⟩ := text_determines_code
  let fragment (line : Nat) : Fragment :=
    ⟨line, .push (.cell .constant 7), [.loadConstant 7, .store .toD (.input .a)] ++ Code.pushD⟩
  have h : Source.compile "push constant 7" = .ok [fragment 1] := by
    rw [Source.compile_eq_yields]
    rfl
  have h' : Source.compile "// seven\n push  constant 007" = .ok [fragment 2] := by
    rw [Source.compile_eq_yields]
    rfl
  have hassemble : Source.assemble false "push constant 7"
      = .ok (Fragment.textOf false [fragment 1]) := Source.assemble_eq_ok_iff.2 ⟨_, h, rfl⟩
  have hassemble' : Source.assemble false "// seven\n push  constant 007"
      = .ok (Fragment.textOf false [fragment 2]) := Source.assemble_eq_ok_iff.2 ⟨_, h', rfl⟩
  have hsame : Fragment.textOf false [fragment 1] = Fragment.textOf false [fragment 2] := by
    obtain ⟨fragments, fragments', hcompile, hcompile', htext⟩ :=
      hsources _ _ _ _ hassemble hassemble'
    cases h.symm.trans hcompile
    cases h'.symm.trans hcompile'
    exact htext.2 rfl
  have hlegible : Code.IsLegible [.loadConstant 65535, .load "D.1", .label "$"] := by
    have hnames : ∀ name ∈ Code.names [.loadConstant 65535, .load "D.1", .label "$"],
        Symbol.isSymbol name = true := by decide
    exact ⟨by decide, fun name hname => Symbol.isSymbol_iff.1 (hnames name hname)⟩
  refine ⟨⟨_, hassemble, hsame ▸ hassemble', ?_⟩, ?_, fun htext => ?_⟩
  · have hcompiled := Source.isCompiled_of_compile h
    exact (hfragments _ fun fragment hmem => hcompiled.isLegible hmem).1
  · exact (hfragments _ fun fragment hmem => List.mem_singleton.1 hmem ▸ hlegible).1
  · have hload := hlegible.instruction (List.mem_cons_of_mem _ List.mem_cons_self)
    have hconstant := hlegible.instruction List.mem_cons_self
    cases (hinstructions _ _ hload hconstant).1 htext

end Disassembly

end HackStack
