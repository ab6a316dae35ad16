import HackStack.Proofs.Grammar

set_option autoImplicit false

/-! # The text of a command

Commands are written with single spaces between their words and without leading zeros. The text of
any command of the grammar is neat (`Text.IsNeat`): nothing in it is a comment or ends a line, and
its ends are not blank. So what has been read from a line is read again from its text
(`Command.parse_text`).

Not every command can be read: an index may be too large, a name may be no label, and there is no
pop to `constant`. The commands without these faults (`Command.IsExpressible`) are the ones that are
read from their own texts, and the ones that are read from any text at all
(`Command.text_round_trip`).
-/

namespace HackStack

namespace Text

/-! ## Neat texts -/

/-- A character that can be seen and begins no comment. -/
def isVisible (c : Char) : Bool := !isBlank c && c != '/'

/-- A text of visible characters and gaps, with visible characters at its ends. -/
structure IsNeat (s : List Char) : Prop where
  chars : ∀ c ∈ s, isVisible c = true ∨ isGap c = true
  head : ∃ c rest, s = c :: rest ∧ isVisible c = true
  last : ∃ rest c, s = rest ++ [c] ∧ isVisible c = true

theorem isBlank_of_isVisible {c : Char} (h : isVisible c = true) : isBlank c = false := by
  simp only [isVisible, Bool.and_eq_true, Bool.not_eq_true'] at h
  exact h.1

namespace IsNeat

variable {s word gap : List Char}

theorem of_word (hne : word ≠ []) (h : ∀ c ∈ word, isVisible c = true) : IsNeat word := by
  refine ⟨fun c hc => Or.inl (h c hc), ?_, ?_⟩
  · obtain ⟨c, rest, rfl⟩ := List.exists_cons_of_ne_nil hne
    exact ⟨c, rest, rfl, h c List.mem_cons_self⟩
  · refine ⟨word.dropLast, word.getLast hne, (List.dropLast_concat_getLast hne).symm, ?_⟩
    exact h _ (List.getLast_mem hne)

theorem append (hword : IsNeat word) (hgap : IsGap gap) (hs : IsNeat s) :
    IsNeat (word ++ gap ++ s) := by
  refine ⟨fun c hc => ?_, ?_, ?_⟩
  · rcases List.mem_append.1 hc with hc | hc
    · rcases List.mem_append.1 hc with hc | hc
      · exact hword.chars c hc
      · exact Or.inr (isGap_iff.2 (hgap.2 c hc))
    · exact hs.chars c hc
  · obtain ⟨c, rest, rfl, hc⟩ := hword.head
    exact ⟨c, rest ++ gap ++ s, rfl, hc⟩
  · obtain ⟨rest, c, rfl, hc⟩ := hs.last
    exact ⟨word ++ gap ++ rest, c, (List.append_assoc _ _ _).symm, hc⟩

theorem slash_not_mem (h : IsNeat s) : '/' ∉ s := by
  intro hmem
  rcases h.chars '/' hmem with hvisible | hgap
  · exact absurd hvisible (by decide)
  · exact absurd hgap (by decide)

theorem lineFeed_not_mem (h : IsNeat s) : '\n' ∉ s := by
  intro hmem
  rcases h.chars '\n' hmem with hvisible | hgap
  · exact absurd hvisible (by decide)
  · exact absurd hgap (by decide)

theorem return_not_mem (h : IsNeat s) : '\r' ∉ s := by
  intro hmem
  rcases h.chars '\r' hmem with hvisible | hgap
  · exact absurd hvisible (by decide)
  · exact absurd hgap (by decide)

theorem ne_nil (h : IsNeat s) : s ≠ [] := by
  obtain ⟨c, rest, rfl, -⟩ := h.head
  exact List.cons_ne_nil c rest

theorem isBlank_head? (h : IsNeat s) : ∀ c, s.head? = some c → isBlank c = false := by
  obtain ⟨c, rest, rfl, hc⟩ := h.head
  rintro d ⟨⟩
  exact isBlank_of_isVisible hc

theorem trim_eq (h : IsNeat s) : trim s = s := by
  refine IsTrimmed.trim_eq ⟨⟨[], [], by simp, by simp, by simp⟩, h.isBlank_head?, ?_⟩
  obtain ⟨rest, c, rfl, hc⟩ := h.last
  intro d hd
  rw [List.getLast?_concat, Option.some.injEq] at hd
  rw [← hd]
  exact isBlank_of_isVisible hc

end IsNeat

/-- The code on a neat line is the line. -/
theorem IsNeat.trim_beforeComment {s : List Char} (h : IsNeat s) : trim (beforeComment s) = s := by
  rw [beforeComment_of_not_mem h.slash_not_mem, h.trim_eq]

/-! ## The characters of words -/

/-- Characters whose numbers are those of letters, digits, `$`, `.` and `_` can be seen. -/
theorem isVisible_of_isPart {c : Char} (h : Symbol.isPart c = true) : isVisible c = true := by
  have hrange : ∀ low high : Char, low ≤ c → c ≤ high →
      low.toNat ≤ c.toNat ∧ c.toNat ≤ high.toNat :=
    fun low high hlow hhigh => ⟨Char.le_def.1 hlow, Char.le_def.1 hhigh⟩
  have hvisible : 48 ≤ c.toNat → c.toNat ≤ 122 → isVisible c = true := by
    intro hlow hhigh
    have hslash : c ≠ '/' := by
      rintro rfl
      exact absurd hlow (by decide)
    have hblank : ¬ isBlank c = true := by
      intro hblank
      simp only [isBlank, blankRanges, List.any_cons, List.any_nil, Bool.or_eq_true,
        Bool.and_eq_true, decide_eq_true_eq, Bool.false_eq_true, or_false] at hblank
      omega
    simpa [isVisible, hslash] using hblank
  rcases Symbol.isPart_iff.1 h with (⟨hlow, hhigh⟩ | ⟨hlow, hhigh⟩ | rfl | rfl | rfl) |
    ⟨hlow, hhigh⟩
  · obtain ⟨hlow, hhigh⟩ := hrange _ _ hlow hhigh
    exact hvisible (Nat.le_trans (by decide) hlow) (Nat.le_trans hhigh (by decide))
  · obtain ⟨hlow, hhigh⟩ := hrange _ _ hlow hhigh
    exact hvisible (Nat.le_trans (by decide) hlow) (Nat.le_trans hhigh (by decide))
  · decide
  · decide
  · decide
  · obtain ⟨hlow, hhigh⟩ := hrange _ _ hlow hhigh
    exact hvisible (Nat.le_trans (by decide) hlow) (Nat.le_trans hhigh (by decide))

theorem IsDigits.isNeat {s : List Char} (h : IsDigits s) : IsNeat s := by
  refine .of_word h.1 fun c hc => isVisible_of_isPart ?_
  exact Symbol.isPart_iff.2 (Or.inr (h.2 c hc))

theorem isDigits_toString (n : Nat) : IsDigits (toString n).toList :=
  isNumeral_iff.1 (isNumeral_toString n)

/-- A literal word is neat if its characters are. -/
theorem isNeat_of_all {word : List Char} (h : (!word.isEmpty && word.all isVisible) = true) :
    IsNeat word := by
  simp only [Bool.and_eq_true, Bool.not_eq_true', List.isEmpty_eq_false_iff,
    List.all_eq_true] at h
  exact .of_word h.1 h.2

/-- One space. -/
theorem isGap_space : IsGap [' '] := ⟨by simp, by simp⟩

end Text

open Text

theorem Symbol.IsSymbol.isNeat {s : List Char} (h : Symbol.IsSymbol s) : IsNeat s := by
  obtain ⟨c, rest, rfl, hstart, hrest⟩ := h
  refine .of_word (List.cons_ne_nil c rest) ?_
  rw [List.forall_mem_cons]
  refine ⟨isVisible_of_isPart (Symbol.isPart_iff.2 (Or.inl hstart)), fun d hd => ?_⟩
  exact isVisible_of_isPart (Symbol.isPart_iff.2 (hrest d hd))

/-! ## Texts of commands are neat -/

theorem Segment.isNeat_name (segment : Segment) : IsNeat segment.name.toList := by
  cases segment <;> exact isNeat_of_all (by decide)

theorem Operator.isNeat_keyword (operator : Operator) : IsNeat operator.keyword.toList := by
  have hall : ∀ operator ∈ Operator.all, (!operator.keyword.toList.isEmpty
      && operator.keyword.toList.all isVisible) = true := by decide
  exact isNeat_of_all (hall operator (Operator.mem_all operator))

theorem IsOperand.isNeat {text : List Char} {operand : Operand} (h : IsOperand text operand) :
    IsNeat text := by
  cases h with
  | @cell segment _ _ _ hgap hdigits _ _ => exact segment.isNeat_name.append hgap hdigits.isNeat
  | @pointer _ slot hgap =>
      refine (isNeat_of_all (by decide)).append hgap ?_
      cases slot <;> exact isNeat_of_all (by decide)

theorem IsCommand.isNeat {text : List Char} {command : Command} (h : IsCommand text command)
    (hcommand : command ≠ .comment) : IsNeat text := by
  cases h with
  | comment => exact absurd rfl hcommand
  | arithmetic operator => exact operator.isNeat_keyword
  | push hgap hoperand => exact (isNeat_of_all (by decide)).append hgap hoperand.isNeat
  | pop hgap hoperand => exact (isNeat_of_all (by decide)).append hgap hoperand.isNeat
  | label hgap hname => exact (isNeat_of_all (by decide)).append hgap hname.1.isNeat
  | goto hgap hname => exact (isNeat_of_all (by decide)).append hgap hname.1.isNeat
  | ifGoto hgap hname => exact (isNeat_of_all (by decide)).append hgap hname.1.isNeat

/-! ## Commands that programs can say -/

namespace Segment

/-- The largest index that a program can name in a segment. -/
def lastIndex : Segment → Nat
  | .temp => 32762
  | .static => 32751
  | _ => 32767

theorem hasIndex_iff_le {segment : Segment} {n : Nat} :
    segment.HasIndex n ↔ n ≤ segment.lastIndex := by
  cases segment with
  | temp =>
      simp only [HasIndex, lastIndex]
      omega
  | static =>
      simp only [HasIndex, lastIndex]
      omega
  | _ => rfl

end Segment

/-- An operand that a program can name: its index is not beyond the last one of its segment. -/
def Operand.IsExpressible : Operand → Prop
  | .cell segment index => index.toNat ≤ segment.lastIndex
  | .pointer _ => True

/-- A command that a program can say: its operand can be named and, for a pop, be written to, or its
name can be that of a label. -/
def Command.IsExpressible : Command → Prop
  | .push operand => operand.IsExpressible
  | .pop operand => operand.IsExpressible ∧ ∀ index, operand ≠ .cell .constant index
  | .arithmetic _ => True
  | .label name => IsLabel name.toList
  | .goto name => IsLabel name.toList
  | .ifGoto name => IsLabel name.toList
  | .comment => True

theorem IsOperand.isExpressible {text : List Char} {operand : Operand}
    (h : IsOperand text operand) : operand.IsExpressible := by
  cases h with
  | cell _ _ _ hindex => exact Segment.hasIndex_iff_le.1 hindex
  | pointer slot _ => exact trivial

theorem IsCommand.isExpressible {text : List Char} {command : Command}
    (h : IsCommand text command) : command.IsExpressible := by
  cases h with
  | comment => exact trivial
  | arithmetic operator => exact trivial
  | push _ hoperand => exact hoperand.isExpressible
  | pop _ hoperand hwritable => exact ⟨hoperand.isExpressible, hwritable⟩
  | label _ hname => exact hname
  | goto _ hname => exact hname
  | ifGoto _ hname => exact hname

/-! ## Commands are read from their texts -/

/-- The grammar has an operand for its text. -/
theorem Operand.isOperand_text {operand : Operand} (h : operand.IsExpressible) :
    IsOperand operand.text.toList operand := by
  cases operand with
  | cell segment index =>
      have htext : (Operand.cell segment index).text.toList
          = segment.name.toList ++ [' '] ++ (toString index.toNat).toList := by
        simp [Operand.text]
      rw [htext]
      refine .cell isGap_space (isDigits_toString index.toNat) ?_ (Segment.hasIndex_iff_le.2 h)
      rw [toList_toString_nat, Nat.ofDigitChars_toDigits (by decide) (by decide)]
  | pointer slot =>
      have htext : (Operand.pointer slot).text.toList
          = "pointer".toList ++ [' '] ++ slot.digit.toList := by
        simp [Operand.text]
      rw [htext]
      exact .pointer slot isGap_space

namespace Command

variable {line : Nat} {text : String} {command : Command}

/-- The grammar has a command for its text, but the text of a line without one is no code. -/
theorem isCommand_text (h : command.IsExpressible) (hcommand : command ≠ .comment) :
    IsCommand command.text.toList command := by
  cases command with
  | comment => exact absurd rfl hcommand
  | arithmetic operator => exact .arithmetic operator
  | push operand =>
      have htext : (Command.push operand).text.toList
          = "push".toList ++ [' '] ++ operand.text.toList := by simp [Command.text]
      rw [htext]
      exact .push isGap_space (Operand.isOperand_text h)
  | pop operand =>
      have htext : (Command.pop operand).text.toList
          = "pop".toList ++ [' '] ++ operand.text.toList := by simp [Command.text]
      rw [htext]
      exact .pop isGap_space (Operand.isOperand_text h.1) h.2
  | label name =>
      have htext : (Command.label name).text.toList
          = "label".toList ++ [' '] ++ name.toList := by simp [Command.text]
      rw [htext]
      exact .label isGap_space h
  | goto name =>
      have htext : (Command.goto name).text.toList
          = "goto".toList ++ [' '] ++ name.toList := by simp [Command.text]
      rw [htext]
      exact .goto isGap_space h
  | ifGoto name =>
      have htext : (Command.ifGoto name).text.toList
          = "if-goto".toList ++ [' '] ++ name.toList := by simp [Command.text]
      rw [htext]
      exact .ifGoto isGap_space h

theorem isExpressible_of_parse (h : parse line text = .ok command) : command.IsExpressible :=
  (parse_eq_ok_iff.1 h).isExpressible

theorem isNeat_text (h : parse line text = .ok command) (hcommand : command ≠ .comment) :
    IsNeat command.text.toList :=
  (isCommand_text (isExpressible_of_parse h) hcommand).isNeat hcommand

/-- What a program can say is read from its text, on every line. -/
theorem parse_text_of_isExpressible (h : command.IsExpressible) (number : Nat) :
    parse number command.text = .ok command := by
  by_cases hcommand : command = .comment
  · -- the slashes that stand for a line without a command are cut off as a comment
    rw [hcommand]
    rfl
  · have hcode := isCommand_text h hcommand
    rw [parse_eq_ok_iff, (hcode.isNeat hcommand).trim_beforeComment]
    exact hcode

/-- What is read from a line is read from its text, on every line. -/
theorem parse_text (h : parse line text = .ok command) (number : Nat) :
    parse number command.text = .ok command :=
  parse_text_of_isExpressible (isExpressible_of_parse h) number

/-- What can be popped to can be pushed from. -/
theorem parse_text_push {operand : Operand} (h : parse line text = .ok (.pop operand))
    (number : Nat) : parse number (Command.push operand).text = .ok (.push operand) := by
  have hpop : (Command.pop operand).IsExpressible := isExpressible_of_parse h
  have hpush : (Command.push operand).IsExpressible := hpop.1
  exact parse_text_of_isExpressible hpush number

/-- **Writing and reading.** A command is read from its own text exactly if a program can say it,
and no text yields any other command. So whatever has been read is read again from its text. -/
theorem text_round_trip (number : Nat) (command : Command) :
    (parse number command.text = .ok command ↔ command.IsExpressible)
      ∧ ((∃ line text, parse line text = .ok command) ↔ command.IsExpressible)
      ∧ ∀ line text, parse line text = .ok command →
        parse number command.text = .ok command := by
  refine ⟨⟨isExpressible_of_parse, fun h => parse_text_of_isExpressible h number⟩, ?_, ?_⟩
  · constructor
    · rintro ⟨line, text, h⟩
      exact isExpressible_of_parse h
    · intro h
      exact ⟨number, command.text, parse_text_of_isExpressible h number⟩
  · intro line text h
    exact parse_text h number

/-- A name that looks like a reserved one is kept on the way; a comment in a name is not. -/
theorem text_round_trip_label :
    parse 3 " label\tEQ_1x// y" = .ok (.label "EQ_1x")
      ∧ parse 9 (Command.label "EQ_1x").text = .ok (.label "EQ_1x")
      ∧ ¬ (Command.label "A//B").IsExpressible
      ∧ ∀ line text, parse line text ≠ .ok (.label "A//B") := by
  have hread : parse 3 " label\tEQ_1x// y" = .ok (.label "EQ_1x") := rfl
  have hnot : ¬ (Command.label "A//B").IsExpressible := by
    intro h
    exact absurd (isLabelName_iff.2 h) (by decide)
  refine ⟨hread, (text_round_trip 9 (.label "EQ_1x")).2.2 3 _ hread, hnot, fun line text h => ?_⟩
  exact hnot ((text_round_trip 1 (.label "A//B")).2.1.1 ⟨line, text, h⟩)

end Command

end HackStack
