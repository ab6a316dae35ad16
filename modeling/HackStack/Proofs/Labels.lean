import HackStack.Proofs.CompiledSource
import HackStack.Proofs.Loading

set_option autoImplicit false

/-! # Labels of compiled code

The code of a comparison declares three labels, made of a stem and the number of the source line.
Names of this form are closed to programs, and a line holds one command, so these labels meet
neither each other nor a label of the program nor a register. What loading compiled code can fail
at is therefore a matter of the program's own labels (`Source.labels_distinct`).
-/

namespace HackStack

/-! ## Names of generated labels -/

namespace LabelStem

theorem text_injective {stem other : LabelStem} (h : stem.text = other.text) : stem = other := by
  have hall : ∀ s ∈ all, ∀ t ∈ all, s.text = t.text → s = t := by decide
  exact hall stem (mem_all stem) other (mem_all other) h

theorem toList_label (stem : LabelStem) (line : Nat) :
    (stem.label line).toList = stem.text.toList ++ '_' :: (toString line).toList := by
  simp [label]

theorem takeWhile_label (stem : LabelStem) (line : Nat) :
    (stem.label line).toList.takeWhile (· != '_') = stem.text.toList := by
  rw [toList_label, List.takeWhile_append_of_pos fun _ hc => ne_underscore_of_mem_text hc]
  simp

/-- The stem and the line can be read off a generated label. -/
theorem label_injective {stem other : LabelStem} {line number : Nat}
    (h : stem.label line = other.label number) : stem = other ∧ line = number := by
  have hstem : stem = other := by
    have htake := takeWhile_label stem line
    rw [h, takeWhile_label] at htake
    exact text_injective (String.toList_injective htake.symm)
  subst hstem
  refine ⟨rfl, ?_⟩
  -- after the stem and the underscore the lists agree on the digits, and these on the numbers
  have hlist := congrArg String.toList h
  rw [toList_label, toList_label] at hlist
  have hdigits := (List.cons.inj (List.append_cancel_left hlist)).2
  have hvalue := Text.decimal?_toString line
  rw [hdigits, Text.decimal?_toString] at hvalue
  exact (Option.some.inj hvalue).symm

end LabelStem

namespace Symbol

/-- No register has a name of the form that generated labels have. -/
theorem not_isReserved_of_isRegister {name : String} (h : SymbolTable.isRegister name = true) :
    isReserved name = false := by
  have hall : ∀ entry ∈ SymbolTable.registers, isReserved entry.1 = false := by decide
  obtain ⟨value, hvalue⟩ := Option.isSome_iff_exists.1 h
  obtain ⟨before, after, hsplit, -⟩ := List.lookup_eq_some_iff.1 hvalue
  exact hall (name, value) (by simp [hsplit])

theorem not_isReserved_of_isLabelName {name : String} (h : Command.isLabelName name = true) :
    isReserved name = false := by
  simp only [Command.isLabelName, Bool.and_eq_true, Bool.not_eq_true'] at h
  exact h.2

end Symbol

/-! ## Labels by command -/

namespace Code

/-- The labels that a comparison on a line declares, in the order of its code. -/
def comparisonLabels (operator : Comparison) (line : Nat) : List String :=
  [(LabelStem.holds operator).label line, (LabelStem.fails operator).label line,
    LabelStem.done.label line]

theorem isReserved_of_mem_comparisonLabels {operator : Comparison} {line : Nat} {name : String}
    (h : name ∈ comparisonLabels operator line) : Symbol.isReserved name = true := by
  simp only [comparisonLabels, List.mem_cons, List.not_mem_nil, or_false] at h
  rcases h with rfl | rfl | rfl
  · exact Symbol.isReserved_label _ line
  · exact Symbol.isReserved_label _ line
  · exact Symbol.isReserved_label _ line

theorem exists_stem_of_mem_comparisonLabels {operator : Comparison} {line : Nat} {name : String}
    (h : name ∈ comparisonLabels operator line) : ∃ stem : LabelStem, name = stem.label line := by
  simp only [comparisonLabels, List.mem_cons, List.not_mem_nil, or_false] at h
  rcases h with rfl | rfl | rfl
  · exact ⟨_, rfl⟩
  · exact ⟨_, rfl⟩
  · exact ⟨_, rfl⟩

theorem nodup_comparisonLabels (operator : Comparison) (line : Nat) :
    (comparisonLabels operator line).Nodup := by
  have hne : ∀ stem other : LabelStem, stem ≠ other → stem.label line ≠ other.label line :=
    fun stem other h heq => h (LabelStem.label_injective heq).1
  simp only [comparisonLabels, List.nodup_cons, List.mem_cons, List.not_mem_nil, or_false,
    not_or, not_false_eq_true, List.nodup_nil, and_true]
  exact ⟨⟨hne _ _ (by simp), hne _ _ (by simp)⟩, hne _ _ (by simp)⟩

/-- The code that moves a word to the stack has neither labels nor jumps. -/
theorem plain_push {operand : Operand} {code : List Instruction}
    (h : push? operand = some code) : code.all Instruction.isPlain = true := by
  obtain ⟨fetched, hfetch, rfl⟩ := Option.map_eq_some_iff.1 h
  rw [List.all_append, Bool.and_eq_true]
  refine ⟨?_, by decide⟩
  cases operand with
  | pointer slot =>
      cases hfetch
      cases slot <;> decide
  | cell segment index =>
      simp only [fetch?] at hfetch
      split at hfetch
      · cases hfetch
        rfl
      · rename_i register _
        cases hfetch
        cases register <;> rfl
      · obtain ⟨address, -, rfl⟩ := Option.map_eq_some_iff.1 hfetch
        rfl

theorem plain_pop {operand : Operand} {code : List Instruction}
    (h : pop? operand = some code) : code.all Instruction.isPlain = true := by
  cases operand with
  | pointer slot =>
      cases h
      cases slot <;> decide
  | cell segment index =>
      simp only [pop?] at h
      split at h
      · cases h
      · rename_i register _
        cases h
        cases register <;> rfl
      · obtain ⟨address, -, rfl⟩ := Option.map_eq_some_iff.1 h
        rfl

theorem straight_of_plain {code : List Instruction} (h : code.all Instruction.isPlain = true) :
    code.all Instruction.isStraight = true := by
  rw [List.all_eq_true] at h ⊢
  exact fun instruction hmem => Instruction.isStraight_of_isPlain (h instruction hmem)

theorem straight_push {operand : Operand} {code : List Instruction}
    (h : push? operand = some code) : code.all Instruction.isStraight = true :=
  straight_of_plain (plain_push h)

theorem straight_pop {operand : Operand} {code : List Instruction}
    (h : pop? operand = some code) : code.all Instruction.isStraight = true :=
  straight_of_plain (plain_pop h)

end Code

namespace Command

/-- The labels that the code of a command declares for itself. -/
def ownLabels (line : Nat) : Command → List String
  | .arithmetic (.comparison operator) => Code.comparisonLabels operator line
  | _ => []

theorem labels_code {line : Nat} {command : Command} {code : List Instruction}
    (h : command.code? line = some code) :
    Code.labels code = command.ownLabels line ++ command.declared?.toList := by
  cases command with
  | push operand => exact Code.labels_eq_nil_of_straight (Code.straight_push h)
  | pop operand => exact Code.labels_eq_nil_of_straight (Code.straight_pop h)
  | arithmetic operator =>
      cases operator with
      | unary operator =>
          cases h
          rfl
      | binary operator =>
          cases h
          rfl
      | comparison operator =>
          cases h
          rfl
  | label name =>
      cases h
      rfl
  | goto name =>
      cases h
      rfl
  | ifGoto name =>
      cases h
      rfl
  | comment =>
      cases h
      rfl

theorem isReserved_of_mem_ownLabels {line : Nat} {command : Command} {name : String}
    (h : name ∈ command.ownLabels line) : Symbol.isReserved name = true := by
  unfold ownLabels at h
  split at h
  · exact Code.isReserved_of_mem_comparisonLabels h
  · cases h

theorem exists_stem_of_mem_ownLabels {line : Nat} {command : Command} {name : String}
    (h : name ∈ command.ownLabels line) : ∃ stem : LabelStem, name = stem.label line := by
  unfold ownLabels at h
  split at h
  · exact Code.exists_stem_of_mem_comparisonLabels h
  · cases h

theorem nodup_ownLabels (line : Nat) (command : Command) : (command.ownLabels line).Nodup := by
  unfold ownLabels
  split
  · exact Code.nodup_comparisonLabels _ line
  · exact List.nodup_nil

end Command

/-! ## Labels of a whole source -/

namespace Source

/-- The instructions of fragments, in order. -/
def instructions (fragments : List Fragment) : List Instruction := fragments.flatMap Fragment.code

/-- The labels that the program declares itself, in order. -/
def declaredLabels (fragments : List Fragment) : List String :=
  fragments.filterMap (·.command.declared?)

/-- The labels that the code of comparisons declares, in order. -/
def generatedLabels (fragments : List Fragment) : List String :=
  fragments.flatMap fun fragment => fragment.command.ownLabels fragment.line

end Source

namespace IsCompiled

open Source

variable {fragments : List Fragment}

theorem labels_code (h : IsCompiled fragments) {fragment : Fragment} (hmem : fragment ∈ fragments) :
    Code.labels fragment.code =
      fragment.command.ownLabels fragment.line ++ fragment.command.declared?.toList :=
  Command.labels_code (h.code fragment hmem)

theorem isReserved_of_mem_generatedLabels {name : String}
    (hname : name ∈ generatedLabels fragments) : Symbol.isReserved name = true := by
  obtain ⟨fragment, -, hlabel⟩ := List.mem_flatMap.1 hname
  exact Command.isReserved_of_mem_ownLabels hlabel

theorem not_isReserved_of_mem_declaredLabels (h : IsCompiled fragments) {name : String}
    (hname : name ∈ declaredLabels fragments) : Symbol.isReserved name = false := by
  obtain ⟨fragment, hmem, hdeclared⟩ := List.mem_filterMap.1 hname
  exact Symbol.not_isReserved_of_isLabelName
    (h.names fragment hmem name (Command.name?_of_declared? hdeclared))

/-- The labels of the program are those that are not reserved. -/
theorem filter_labels (h : IsCompiled fragments) :
    (Code.labels (instructions fragments)).filter (fun name => !Symbol.isReserved name)
      = declaredLabels fragments := by
  rw [Code.labels, instructions, List.filterMap_flatMap, List.filter_flatMap, declaredLabels,
    List.filterMap_eq_flatMap_toList]
  apply List.flatMap_congr
  intro fragment hmem
  have hown : (fragment.command.ownLabels fragment.line).filter
      (fun name => !Symbol.isReserved name) = [] := by
    rw [List.filter_eq_nil_iff]
    intro name hname
    simp [Command.isReserved_of_mem_ownLabels hname]
  have hdeclared : fragment.command.declared?.toList.filter (fun name => !Symbol.isReserved name)
      = fragment.command.declared?.toList := by
    rw [List.filter_eq_self]
    intro name hname
    have hmem' : name ∈ declaredLabels fragments :=
      List.mem_filterMap.2 ⟨fragment, hmem, by simpa using hname⟩
    simp [h.not_isReserved_of_mem_declaredLabels hmem']
  rw [← Code.labels, h.labels_code hmem, List.filter_append, hown, hdeclared, List.nil_append]

/-- The reserved ones are those of comparisons. -/
theorem filter_labels_reserved (h : IsCompiled fragments) :
    (Code.labels (instructions fragments)).filter Symbol.isReserved
      = generatedLabels fragments := by
  rw [Code.labels, instructions, List.filterMap_flatMap, List.filter_flatMap, generatedLabels]
  apply List.flatMap_congr
  intro fragment hmem
  have hown : (fragment.command.ownLabels fragment.line).filter Symbol.isReserved
      = fragment.command.ownLabels fragment.line := by
    rw [List.filter_eq_self]
    exact fun name hname => Command.isReserved_of_mem_ownLabels hname
  have hdeclared : fragment.command.declared?.toList.filter Symbol.isReserved = [] := by
    rw [List.filter_eq_nil_iff]
    intro name hname
    have hmem' : name ∈ declaredLabels fragments :=
      List.mem_filterMap.2 ⟨fragment, hmem, by simpa using hname⟩
    simp [h.not_isReserved_of_mem_declaredLabels hmem']
  rw [← Code.labels, h.labels_code hmem, List.filter_append, hown, hdeclared, List.append_nil]

/-- Labels of different lines differ in the line, labels of one line in the stem. -/
theorem nodup_generatedLabels (h : IsCompiled fragments) : (generatedLabels fragments).Nodup := by
  rw [generatedLabels, List.nodup_flatMap]
  refine ⟨fun fragment _ => Command.nodup_ownLabels _ _, h.lines.imp ?_⟩
  intro fragment later hlt name hname hname'
  obtain ⟨stem, rfl⟩ := Command.exists_stem_of_mem_ownLabels hname
  obtain ⟨other, hother⟩ := Command.exists_stem_of_mem_ownLabels hname'
  have hline := (LabelStem.label_injective hother).2
  omega

end IsCompiled

/-! ## What loading compiled code can fail at -/

/-- Labels that are distinct and not registers can be put aside when the first clash is sought. -/
theorem firstClash_filter_iff {labels : List String} {keep : String → Bool} {name : String}
    (hnodup : (labels.filter fun label => !keep label).Nodup)
    (hregister : ∀ label ∈ labels, keep label = false → SymbolTable.isRegister label = false) :
    FirstClash (labels.filter keep) name ↔ FirstClash labels name := by
  have hkept : ∀ other, FirstClash labels other → FirstClash (labels.filter keep) other := by
    rintro other ⟨before, after, rfl, hbefore, hclash⟩
    have hkeep : keep other = true := by
      by_contra hdrop
      rw [Bool.not_eq_true] at hdrop
      rcases hclash with hmem | htaken
      · -- a dropped label that is declared twice is twice among the dropped ones
        rw [List.filter_append, List.filter_cons_of_pos (by simp [hdrop])] at hnodup
        have hdisjoint := (List.nodup_append.1 hnodup).2.2
        exact hdisjoint other (List.mem_filter.2 ⟨hmem, by simp [hdrop]⟩) other (by simp) rfl
      · rw [hregister other (by simp) hdrop] at htaken
        cases htaken
    refine ⟨before.filter keep, after.filter keep, ?_, hbefore.sublist List.filter_sublist, ?_⟩
    · rw [List.filter_append, List.filter_cons_of_pos hkeep]
    · rcases hclash with hmem | htaken
      · exact Or.inl (List.mem_filter.2 ⟨hmem, hkeep⟩)
      · exact Or.inr htaken
  constructor
  · intro h
    have hnot : ¬ Declarable labels :=
      fun hdeclarable => h.not_declarable (hdeclarable.sublist List.filter_sublist)
    obtain ⟨other, hother⟩ := exists_firstClash_of_not_declarable hnot
    rwa [h.unique (hkept other hother)]
  · exact hkept name

namespace IsCompiled

open Source

variable {fragments : List Fragment}

theorem not_isRegister_of_reserved {name : String} (h : Symbol.isReserved name = true) :
    SymbolTable.isRegister name = false := by
  by_contra hregister
  rw [Bool.not_eq_false] at hregister
  rw [Symbol.not_isReserved_of_isRegister hregister] at h
  cases h

theorem firstClash_labels_iff (h : IsCompiled fragments) {name : String} :
    FirstClash (Code.labels (instructions fragments)) name
      ↔ FirstClash (declaredLabels fragments) name := by
  rw [← h.filter_labels, firstClash_filter_iff]
  · have hreserved := h.nodup_generatedLabels
    rw [← h.filter_labels_reserved] at hreserved
    simpa using hreserved
  · intro label _ hlabel
    exact not_isRegister_of_reserved (by simpa using hlabel)

/-- Compiled code has labels that can be declared if those of the program can. -/
theorem declarable_labels (h : IsCompiled fragments)
    (hdeclared : Declarable (declaredLabels fragments)) :
    Declarable (Code.labels (instructions fragments)) := by
  by_contra hnot
  obtain ⟨name, hname⟩ := exists_firstClash_of_not_declarable hnot
  exact (h.firstClash_labels_iff.1 hname).not_declarable hdeclared

end IsCompiled

namespace Fragment

/-- The labels in the code of a comparison; none for any other command. -/
def comparisonLabels (fragment : Fragment) : List String :=
  match fragment.command with
  | .arithmetic (.comparison _) => Code.labels fragment.code
  | _ => []

end Fragment

namespace IsCompiled

variable {fragments : List Fragment}

theorem comparisonLabels_eq (h : IsCompiled fragments) {fragment : Fragment}
    (hmem : fragment ∈ fragments) :
    fragment.comparisonLabels = fragment.command.ownLabels fragment.line := by
  have hlabels := h.labels_code hmem
  unfold Fragment.comparisonLabels
  split
  · rename_i operator hcommand
    rw [hlabels, hcommand]
    rfl
  · rename_i hother
    rw [Command.ownLabels.eq_def]
    split
    · rename_i operator hcommand
      exact absurd hcommand (hother operator)
    · rfl

theorem flatMap_comparisonLabels (h : IsCompiled fragments) :
    fragments.flatMap Fragment.comparisonLabels = Source.generatedLabels fragments :=
  List.flatMap_congr fun _ hmem => h.comparisonLabels_eq hmem

end IsCompiled

namespace Source

theorem count_declaredLabels (fragments : List Fragment) (name : String) :
    (declaredLabels fragments).count name
      = (fragments.map Fragment.command).count (.label name) := by
  induction fragments with
  | nil => rfl
  | cons fragment rest ih =>
      rw [declaredLabels] at ih
      rw [declaredLabels, List.filterMap_cons, List.map_cons, List.count_cons, ← ih]
      cases hcommand : fragment.command with
      | label other => simp [Command.declared?, List.count_cons]
      | _ => simp [Command.declared?]

theorem mem_declaredLabels_iff {fragments : List Fragment} {name : String} :
    name ∈ declaredLabels fragments ↔ .label name ∈ fragments.map Fragment.command := by
  rw [← List.count_pos_iff, count_declaredLabels, List.count_pos_iff]

/-- Declarations clash if a name is declared twice or is the name of a register. -/
theorem exists_firstClash_iff (fragments : List Fragment) :
    (∃ name, FirstClash (declaredLabels fragments) name) ↔
      ∃ name, 2 ≤ (fragments.map Fragment.command).count (.label name)
        ∨ .label name ∈ fragments.map Fragment.command ∧ SymbolTable.isRegister name = true := by
  constructor
  · rintro ⟨name, before, after, hsplit, -, hmem | hregister⟩
    · refine ⟨name, Or.inl ?_⟩
      rw [← count_declaredLabels, hsplit, List.count_append, List.count_cons_self]
      have hpos := List.count_pos_iff.2 hmem
      omega
    · refine ⟨name, Or.inr ⟨mem_declaredLabels_iff.1 ?_, hregister⟩⟩
      simp [hsplit]
  · rintro ⟨name, hname⟩
    apply exists_firstClash_of_not_declarable
    intro hdeclarable
    rcases hname with htwice | ⟨hmem, hregister⟩
    · have hle := List.nodup_iff_count_le_one.1 hdeclarable.nodup name
      rw [count_declaredLabels] at hle
      omega
    · rw [hdeclarable.not_register name (mem_declaredLabels_iff.2 hmem)] at hregister
      cases hregister

/-- Loading compiled code fails at the first label of the program that clashes. -/
theorem load_eq_error_iff {fragments : List Fragment} (h : IsCompiled fragments) {fault : Fault} :
    Program.load (instructions fragments) = .error fault ↔
      ∃ name, fault = .duplicateLabel name
        ∧ fault.message = "duplicate label (" ++ name ++ ")"
        ∧ FirstClash (declaredLabels fragments) name := by
  simp only [Program.load_eq_error_iff, h.firstClash_labels_iff]
  constructor
  · rintro ⟨name, rfl, hclash⟩
    exact ⟨name, rfl, rfl, hclash⟩
  · rintro ⟨name, rfl, -, hclash⟩
    exact ⟨name, rfl, hclash⟩

/-- The labels of comparisons meet neither labels of the program nor registers. -/
theorem not_mem_of_mem_generatedLabels {fragments : List Fragment} (h : IsCompiled fragments)
    {name : String} (hname : name ∈ generatedLabels fragments) :
    name ∉ declaredLabels fragments ∧ SymbolTable.isRegister name = false := by
  have hreserved := IsCompiled.isReserved_of_mem_generatedLabels hname
  refine ⟨fun hdeclared => ?_, IsCompiled.not_isRegister_of_reserved hreserved⟩
  rw [h.not_isReserved_of_mem_declaredLabels hdeclared] at hreserved
  cases hreserved

/-- **The labels of compiled code.** The code of each comparison declares three labels; all these
are distinct, and none is declared by the program or names a register. So loading fails at the
first label of the program that is declared before or names a register, and at nothing else. -/
theorem labels_distinct {source : String} {fragments : List Fragment}
    (h : compile source = .ok fragments) :
    (∀ fragment ∈ fragments, ∀ operator,
        fragment.command = .arithmetic (.comparison operator) →
          fragment.comparisonLabels.length = 3)
      ∧ (fragments.flatMap Fragment.comparisonLabels).Nodup
      ∧ (∀ name ∈ fragments.flatMap Fragment.comparisonLabels,
          name ∉ declaredLabels fragments ∧ SymbolTable.isRegister name = false)
      ∧ (∀ fault, Program.load (instructions fragments) = .error fault ↔
          ∃ name, fault = .duplicateLabel name
            ∧ fault.message = "duplicate label (" ++ name ++ ")"
            ∧ FirstClash (declaredLabels fragments) name)
      ∧ ((∃ fault, Program.load (instructions fragments) = .error fault) ↔
          ∃ name, 2 ≤ (fragments.map Fragment.command).count (.label name)
            ∨ .label name ∈ fragments.map Fragment.command
              ∧ SymbolTable.isRegister name = true) := by
  have hcompiled := isCompiled_of_compile h
  refine ⟨?_, ?_, ?_, fun fault => load_eq_error_iff hcompiled, ?_⟩
  · intro fragment hmem operator hcommand
    rw [hcompiled.comparisonLabels_eq hmem, hcommand]
    rfl
  · rw [hcompiled.flatMap_comparisonLabels]
    exact hcompiled.nodup_generatedLabels
  · rw [hcompiled.flatMap_comparisonLabels]
    exact fun name hname => not_mem_of_mem_generatedLabels hcompiled hname
  · rw [← exists_firstClash_iff]
    constructor
    · rintro ⟨fault, hfault⟩
      obtain ⟨name, -, -, hclash⟩ := (load_eq_error_iff hcompiled).1 hfault
      exact ⟨name, hclash⟩
    · rintro ⟨name, hclash⟩
      exact ⟨_, (load_eq_error_iff hcompiled).2 ⟨name, rfl, rfl, hclash⟩⟩

/-- A source with a comparison between two declarations of one label. -/
theorem labels_distinct_repeated :
    ∃ fragments, compile "label A\neq // x\nlabel A" = .ok fragments
      ∧ (fragments.flatMap Fragment.comparisonLabels).Nodup
      ∧ Program.load (instructions fragments) = .error (.duplicateLabel "A") := by
  have h : compile "label A\neq // x\nlabel A" = .ok
      [⟨1, .label "A", [.label "A"]⟩,
        ⟨2, .arithmetic (.comparison .eq), Code.comparison .eq 2⟩,
        ⟨3, .label "A", [.label "A"]⟩] := by
    rw [compile_eq_yields]
    rfl
  obtain ⟨-, hnodup, -, hload, -⟩ := labels_distinct h
  refine ⟨_, h, hnodup, (hload _).2 ⟨"A", rfl, rfl, ["A"], [], rfl, ?_, Or.inl (by decide)⟩⟩
  exact ⟨by decide, by decide⟩

end Source

end HackStack
