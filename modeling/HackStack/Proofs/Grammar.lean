import HackStack.Proofs.LineText

set_option autoImplicit false

/-! # The grammar of commands

The texts that are commands, as an inductive relation over characters (`IsCommand`) that knows
nothing of words. Reading a line accepts the code on it exactly if the grammar does, and yields the
command that the grammar has for it (`Command.parse_accepts`).
-/

namespace HackStack

open Text

/-! ## Numerals and symbols -/

namespace Text

/-- One or more ASCII digits. -/
def IsDigits (s : List Char) : Prop := s ≠ [] ∧ ∀ c ∈ s, '0' ≤ c ∧ c ≤ '9'

theorem isDigit_iff {c : Char} : c.isDigit = true ↔ '0' ≤ c ∧ c ≤ '9' := by
  simp [Char.isDigit, Char.le_def]

theorem isNumeral_iff {s : List Char} : isNumeral s = true ↔ IsDigits s := by
  simp [isNumeral, IsDigits, isDigit_iff]

theorem IsDigits.isWord {s : List Char} (h : IsDigits s) : IsWord s := by
  refine ⟨h.1, fun c hc => ?_⟩
  have hdigit := isDigit_iff.2 (h.2 c hc)
  cases hgap : isGap c with
  | false => rfl
  | true =>
      rcases isGap_iff.1 hgap with rfl | rfl
      · cases hdigit
      · cases hdigit

end Text

namespace Symbol

/-- The characters that a symbol begins with. -/
def IsStart (c : Char) : Prop :=
  ('A' ≤ c ∧ c ≤ 'Z') ∨ ('a' ≤ c ∧ c ≤ 'z') ∨ c = '_' ∨ c = '.' ∨ c = '$'

/-- A symbol: characters of the first kind and, but for the first one, digits. -/
def IsSymbol (s : List Char) : Prop :=
  ∃ c rest, s = c :: rest ∧ IsStart c ∧ ∀ d ∈ rest, IsStart d ∨ ('0' ≤ d ∧ d ≤ '9')

/-- A text of the form that labels of comparisons have. -/
def IsGenerated (s : List Char) : Prop :=
  ∃ stem ∈ ["EQ", "GT", "LT", "NEQ", "NGT", "NLT", "CONT"], ∃ digits,
    IsDigits digits ∧ s = stem.toList ++ '_' :: digits

theorem isUpper_iff {c : Char} : c.isUpper = true ↔ 'A' ≤ c ∧ c ≤ 'Z' := by
  have hval : c.isUpper = decide ('A' ≤ c ∧ c ≤ 'Z') := rfl
  rw [hval, decide_eq_true_iff]

theorem isLower_iff {c : Char} : c.isLower = true ↔ 'a' ≤ c ∧ c ≤ 'z' := by
  have hval : c.isLower = (decide ('a' ≤ c) && decide (c ≤ 'z')) := rfl
  rw [hval, Bool.and_eq_true, decide_eq_true_iff, decide_eq_true_iff]

theorem isStart_iff {c : Char} : isStart c = true ↔ IsStart c := by
  have halpha : c.isAlpha = (c.isUpper || c.isLower) := rfl
  simp only [isStart, IsStart, halpha, Bool.or_eq_true, isUpper_iff, isLower_iff, beq_iff_eq,
    or_assoc]

theorem isPart_iff {c : Char} : isPart c = true ↔ IsStart c ∨ ('0' ≤ c ∧ c ≤ '9') := by
  simp [isPart, isStart_iff, isDigit_iff]

theorem isSymbol_iff {name : String} : isSymbol name = true ↔ IsSymbol name.toList := by
  unfold isSymbol IsSymbol
  cases name.toList with
  | nil => simp
  | cons c rest =>
      simp only [Bool.and_eq_true, List.all_eq_true, isStart_iff, isPart_iff]
      constructor
      · exact fun h => ⟨c, rest, rfl, h⟩
      · rintro ⟨d, more, heq, h⟩
        cases heq
        exact h

theorem mem_stems_iff {stem : String} :
    stem ∈ ["EQ", "GT", "LT", "NEQ", "NGT", "NLT", "CONT"] ↔ ∃ s : LabelStem, s.text = stem := by
  have hall : ["EQ", "GT", "LT", "NEQ", "NGT", "NLT", "CONT"] = LabelStem.all.map LabelStem.text :=
    rfl
  rw [hall, List.mem_map]
  exact ⟨fun ⟨s, _, hs⟩ => ⟨s, hs⟩, fun ⟨s, hs⟩ => ⟨s, LabelStem.mem_all s, hs⟩⟩

theorem isReserved_iff {name : String} : isReserved name = true ↔ IsGenerated name.toList := by
  simp only [isReserved, Bool.and_eq_true, List.any_eq_true, beq_iff_eq, isNumeral_iff]
  constructor
  · rintro ⟨⟨stem, -, hstem⟩, hdigits⟩
    have hsplit : name.toList.takeWhile (· != '_') ++ name.toList.dropWhile (· != '_')
        = name.toList := List.takeWhile_append_dropWhile
    cases hdrop : name.toList.dropWhile (· != '_') with
    | nil =>
        rw [hdrop] at hdigits
        exact absurd rfl hdigits.1
    | cons c digits =>
        have hhead := List.head?_dropWhile_not (· != '_') name.toList
        rw [hdrop] at hhead hdigits
        have hunderscore : c = '_' := by simpa using hhead
        rw [hdrop, ← hstem, hunderscore] at hsplit
        exact ⟨stem.text, mem_stems_iff.2 ⟨stem, rfl⟩, digits, hdigits, hsplit.symm⟩
  · rintro ⟨_, hmem, digits, hdigits, hname⟩
    obtain ⟨stem, rfl⟩ := mem_stems_iff.1 hmem
    have hstem : ∀ c ∈ stem.text.toList, (c != '_') = true :=
      fun _ hc => LabelStem.ne_underscore_of_mem_text hc
    rw [hname, List.takeWhile_append_of_pos hstem, List.dropWhile_append_of_pos hstem]
    exact ⟨⟨stem, LabelStem.mem_all stem, by simp⟩, by simpa using hdigits⟩

theorem IsSymbol.isWord {s : List Char} (h : IsSymbol s) : IsWord s := by
  obtain ⟨c, rest, rfl, hstart, hrest⟩ := h
  have hpart : ∀ d, isPart d = true → isGap d = false := by
    intro d hd
    cases hgap : isGap d with
    | false => rfl
    | true =>
        rcases isGap_iff.1 hgap with rfl | rfl
        · cases hd
        · cases hd
  refine ⟨by simp, List.forall_mem_cons.2 ⟨?_, fun d hd => ?_⟩⟩
  · exact hpart c (isPart_iff.2 (Or.inl hstart))
  · exact hpart d (isPart_iff.2 (hrest d hd))

end Symbol

/-! ## The grammar -/

namespace Segment

/-- The numbers that are indexes of a segment. -/
def HasIndex : Segment → Nat → Prop
  | .temp, n => 5 + n ≤ 32767
  | .static, n => 16 + n ≤ 32767
  | _, n => n ≤ 32767

end Segment

/-- The texts of operands: a segment and an index, or `pointer` and a slot. -/
inductive IsOperand : List Char → Operand → Prop
  | cell {segment : Segment} {gap digits : List Char} {index : Word} (hgap : IsGap gap)
      (hdigits : IsDigits digits) (hvalue : Nat.ofDigitChars 10 digits 0 = index.toNat)
      (hindex : segment.HasIndex index.toNat) :
      IsOperand (segment.name.toList ++ gap ++ digits) (.cell segment index)
  | pointer {gap : List Char} (slot : PointerSlot) (hgap : IsGap gap) :
      IsOperand ("pointer".toList ++ gap ++ slot.digit.toList) (.pointer slot)

/-- The names that programs may use for labels. -/
def IsLabel (s : List Char) : Prop := Symbol.IsSymbol s ∧ ¬ Symbol.IsGenerated s

/-- The texts of commands. -/
inductive IsCommand : List Char → Command → Prop
  | comment : IsCommand [] .comment
  | arithmetic (operator : Operator) : IsCommand operator.keyword.toList (.arithmetic operator)
  | push {gap text : List Char} {operand : Operand} (hgap : IsGap gap)
      (hoperand : IsOperand text operand) : IsCommand ("push".toList ++ gap ++ text) (.push operand)
  | pop {gap text : List Char} {operand : Operand} (hgap : IsGap gap)
      (hoperand : IsOperand text operand) (hwritable : ∀ index, operand ≠ .cell .constant index) :
      IsCommand ("pop".toList ++ gap ++ text) (.pop operand)
  | label {gap : List Char} {name : String} (hgap : IsGap gap) (hname : IsLabel name.toList) :
      IsCommand ("label".toList ++ gap ++ name.toList) (.label name)
  | goto {gap : List Char} {name : String} (hgap : IsGap gap) (hname : IsLabel name.toList) :
      IsCommand ("goto".toList ++ gap ++ name.toList) (.goto name)
  | ifGoto {gap : List Char} {name : String} (hgap : IsGap gap) (hname : IsLabel name.toList) :
      IsCommand ("if-goto".toList ++ gap ++ name.toList) (.ifGoto name)

/-! ## Operands -/

namespace Operand

theorem isReachable_iff {segment : Segment} {index : Word} :
    isReachable segment index = true ↔ segment.HasIndex index.toNat := by
  cases segment with
  | temp => simp [isReachable, Segment.base, Segment.HasIndex, directAddress, Word.maxLoadable]
  | static => simp [isReachable, Segment.base, Segment.HasIndex, directAddress, Word.maxLoadable]
  | _ => exact decide_eq_true_iff

theorem index?_eq_some_iff {word : String} {index : Word} : index? word = some index ↔
    IsDigits word.toList ∧ Nat.ofDigitChars 10 word.toList 0 = index.toNat := by
  rw [index?, Option.bind_eq_some_iff]
  simp only [decimal?, Word.ofNat?_eq_some_iff, ← isNumeral_iff]
  constructor
  · rintro ⟨n, hn, hindex⟩
    split at hn
    · rename_i hnumeral
      cases hn
      exact ⟨hnumeral, hindex.symm⟩
    · cases hn
  · rintro ⟨hnumeral, hvalue⟩
    exact ⟨_, if_pos hnumeral, hvalue.symm⟩

theorem isWritable_iff {operand : Operand} :
    operand.isWritable = true ↔ ∀ index, operand ≠ .cell .constant index := by
  cases operand with
  | pointer slot => simp [isWritable]
  | cell segment index => cases segment <;> simp [isWritable]

theorem name_ne_pointer (segment : Segment) : segment.name ≠ "pointer" := by
  cases segment <;> decide

/-- The words of operands. -/
theorem ofWords?_eq_some_iff {place index : String} {operand : Operand} :
    ofWords? place index = some operand ↔
      (∃ slot : PointerSlot, place = "pointer" ∧ index = slot.digit ∧ operand = .pointer slot)
      ∨ ∃ segment value, place = segment.name ∧ index? index = some value
        ∧ isReachable segment value = true ∧ operand = .cell segment value := by
  unfold ofWords?
  constructor
  · intro h
    split at h
    · rename_i hplace
      obtain ⟨slot, hslot, rfl⟩ := Option.map_eq_some_iff.1 h
      exact Or.inl ⟨slot, hplace, PointerSlot.ofDigit?_eq_some_iff.1 hslot, rfl⟩
    · split at h
      · rename_i segment value hsegment hvalue
        split at h
        · rename_i hreach
          cases h
          exact Or.inr ⟨segment, value, Segment.ofName?_eq_some_iff.1 hsegment, hvalue, hreach, rfl⟩
        · cases h
      · cases h
  · rintro (⟨slot, rfl, rfl, rfl⟩ | ⟨segment, value, rfl, hvalue, hreach, rfl⟩)
    · rw [if_pos rfl, PointerSlot.ofDigit?_digit, Option.map_some]
    · rw [if_neg (name_ne_pointer segment), Segment.ofName?_name, hvalue]
      exact if_pos hreach

theorem isWord_name (segment : Segment) : IsWord segment.name.toList := by
  cases segment <;> decide

theorem isWord_digit (slot : PointerSlot) : IsWord slot.digit.toList := by
  cases slot <;> decide

/-- The text of an operand is two words that stand for it. -/
theorem exists_words_of_isOperand {text : List Char} {operand : Operand}
    (h : IsOperand text operand) :
    ∃ place index, IsSpaced text [place, index]
      ∧ ofWords? (String.ofList place) (String.ofList index) = some operand := by
  cases h with
  | @cell segment gap digits index hgap hdigits hvalue hindex =>
      refine ⟨segment.name.toList, digits,
        .cons (isWord_name segment) hgap (.last hdigits.isWord), ?_⟩
      rw [String.ofList_toList, ofWords?_eq_some_iff]
      refine Or.inr ⟨segment, index, rfl, ?_, isReachable_iff.2 hindex, rfl⟩
      rw [index?_eq_some_iff, String.toList_ofList]
      exact ⟨hdigits, hvalue⟩
  | @pointer gap slot hgap =>
      refine ⟨"pointer".toList, slot.digit.toList,
        .cons (by decide) hgap (.last (isWord_digit slot)), ?_⟩
      rw [String.ofList_toList, String.ofList_toList, ofWords?_eq_some_iff]
      exact Or.inl ⟨slot, rfl, rfl, rfl⟩

theorem isOperand_of_words {place gap index : List Char} {operand : Operand} (hgap : IsGap gap)
    (h : ofWords? (String.ofList place) (String.ofList index) = some operand) :
    IsOperand (place ++ gap ++ index) operand := by
  rcases ofWords?_eq_some_iff.1 h with
    ⟨slot, hplace, hdigit, rfl⟩ | ⟨segment, value, hplace, hvalue, hreach, rfl⟩
  · obtain rfl : place = "pointer".toList := by rw [← hplace, String.toList_ofList]
    obtain rfl : index = slot.digit.toList := by rw [← hdigit, String.toList_ofList]
    exact .pointer slot hgap
  · obtain rfl : place = segment.name.toList := by rw [← hplace, String.toList_ofList]
    rw [index?_eq_some_iff, String.toList_ofList] at hvalue
    exact .cell hgap hvalue.1 hvalue.2 (isReachable_iff.1 hreach)

end Operand

/-! ## Commands -/

namespace Command

theorem isLabelName_iff {name : String} : isLabelName name = true ↔ IsLabel name.toList := by
  rw [isLabelName, Bool.and_eq_true, Bool.not_eq_true', IsLabel, Symbol.isSymbol_iff,
    ← Symbol.isReserved_iff, Bool.not_eq_true]

theorem isWord_keyword (operator : Operator) : IsWord operator.keyword.toList := by
  have hall : ∀ operator ∈ Operator.all, IsWord operator.keyword.toList := by decide
  exact hall operator (Operator.mem_all operator)

theorem exists_words_of_label {word name : String} {gap : List Char} {command : Command}
    (hword : IsWord word.toList) (hgap : IsGap gap) (hname : IsLabel name.toList)
    (h : ofLabelWord? word name = some command) :
    ∃ pieces, IsSpaced (word.toList ++ gap ++ name.toList) pieces
      ∧ ofWords? (pieces.map String.ofList) = some command := by
  refine ⟨[word.toList, name.toList], .cons hword hgap (.last hname.1.isWord), ?_⟩
  rw [List.map_cons, List.map_cons, String.ofList_toList, String.ofList_toList, List.map_nil,
    ofWords?, if_pos (isLabelName_iff.2 hname), h]

theorem exists_words_of_move {word : String} {gap text : List Char} {operand : Operand}
    {command : Command} (hword : IsWord word.toList) (hgap : IsGap gap)
    (hoperand : IsOperand text operand) (h : ofMoveWord? word operand = some command) :
    ∃ pieces, IsSpaced (word.toList ++ gap ++ text) pieces
      ∧ ofWords? (pieces.map String.ofList) = some command := by
  obtain ⟨place, index, hspaced, hwords⟩ := Operand.exists_words_of_isOperand hoperand
  refine ⟨[word.toList, place, index], .cons hword hgap hspaced, ?_⟩
  rw [List.map_cons, List.map_cons, List.map_cons, String.ofList_toList, List.map_nil,
    ofWords?, hwords, Option.bind_some, h]

/-- The text of a command is words that stand for it. -/
theorem exists_words_of_isCommand {text : List Char} {command : Command}
    (h : IsCommand text command) (hcommand : command ≠ .comment) :
    ∃ pieces, IsSpaced text pieces ∧ ofWords? (pieces.map String.ofList) = some command := by
  cases h with
  | comment => exact absurd rfl hcommand
  | arithmetic operator =>
      refine ⟨[operator.keyword.toList], .last (isWord_keyword operator), ?_⟩
      rw [List.map_cons, List.map_nil, String.ofList_toList, ofWords?,
        Operator.ofKeyword?_keyword, Option.map_some]
  | push hgap hoperand => exact exists_words_of_move (by decide) hgap hoperand rfl
  | pop hgap hoperand hwritable =>
      refine exists_words_of_move (by decide) hgap hoperand ?_
      rw [ofMoveWord?, if_neg (by decide), if_pos ⟨rfl, Operand.isWritable_iff.2 hwritable⟩]
  | label hgap hname => exact exists_words_of_label (by decide) hgap hname rfl
  | goto hgap hname => exact exists_words_of_label (by decide) hgap hname rfl
  | ifGoto hgap hname => exact exists_words_of_label (by decide) hgap hname rfl

theorem isCommand_of_labelWords {word gap name : List Char} {command : Command}
    (hgap : IsGap gap) (hname : isLabelName (String.ofList name) = true)
    (h : ofLabelWord? (String.ofList word) (String.ofList name) = some command) :
    IsCommand (word ++ gap ++ name) command := by
  have hlabel := isLabelName_iff.1 hname
  have hlist : (String.ofList name).toList = name := String.toList_ofList
  rw [← hlist]
  unfold ofLabelWord? at h
  split at h
  · rename_i hword
    cases h
    obtain rfl : word = "label".toList := by rw [← hword, String.toList_ofList]
    exact .label hgap hlabel
  · split at h
    · rename_i hword
      cases h
      obtain rfl : word = "goto".toList := by rw [← hword, String.toList_ofList]
      exact .goto hgap hlabel
    · split at h
      · rename_i hword
        cases h
        obtain rfl : word = "if-goto".toList := by rw [← hword, String.toList_ofList]
        exact .ifGoto hgap hlabel
      · cases h

theorem isCommand_of_moveWord {word gap text : List Char} {operand : Operand} {command : Command}
    (hgap : IsGap gap) (hoperand : IsOperand text operand)
    (h : ofMoveWord? (String.ofList word) operand = some command) :
    IsCommand (word ++ gap ++ text) command := by
  unfold ofMoveWord? at h
  split at h
  · rename_i hword
    cases h
    obtain rfl : word = "push".toList := by rw [← hword, String.toList_ofList]
    exact .push hgap hoperand
  · split at h
    · rename_i hpop
      cases h
      obtain rfl : word = "pop".toList := by rw [← hpop.1, String.toList_ofList]
      exact .pop hgap hoperand (Operand.isWritable_iff.1 hpop.2)
    · cases h

/-- Words that stand for a command are its text, whatever the gaps are. -/
theorem isCommand_of_words {text : List Char} {pieces : List (List Char)} {command : Command}
    (h : IsSpaced text pieces) (hwords : ofWords? (pieces.map String.ofList) = some command) :
    IsCommand text command := by
  cases h with
  | last hword =>
      obtain ⟨operator, hoperator, rfl⟩ := Option.map_eq_some_iff.1 hwords
      obtain rfl : text = operator.keyword.toList := by
        rw [← Operator.ofKeyword?_eq_some_iff.1 hoperator, String.toList_ofList]
      exact .arithmetic operator
  | cons hword hgap hrest =>
      cases hrest with
      | last hname =>
          simp only [List.map_cons, List.map_nil, ofWords?] at hwords
          split at hwords
          · rename_i hlabel
            exact isCommand_of_labelWords hgap hlabel hwords
          · cases hwords
      | cons hplace hgap' hrest' =>
          cases hrest' with
          | last hindex =>
              obtain ⟨operand, hoperand, hmove⟩ := Option.bind_eq_some_iff.1 hwords
              exact isCommand_of_moveWord hgap (Operand.isOperand_of_words hgap' hoperand) hmove
          | cons _ _ hmore =>
              -- no command has more than three words
              cases hmore with
              | last _ => cases hwords
              | cons _ _ _ => cases hwords

end Command

/-! ## Lines -/

namespace Text

/-- The code on a line: what stands before the first `//`, without blank ends. -/
def IsCode (line code : List Char) : Prop := ∃ part, IsBeforeComment line part ∧ IsTrimmed part code

theorem isCode_iff {line code : List Char} :
    IsCode line code ↔ trim (beforeComment line) = code := by
  simp [IsCode, isBeforeComment_iff, isTrimmed_iff]

end Text

namespace Command

theorem isCommand_nil_iff {command : Command} : IsCommand [] command ↔ command = .comment := by
  constructor
  · intro h
    by_cases hcommand : command = .comment
    · exact hcommand
    · obtain ⟨pieces, hspaced, -⟩ := exists_words_of_isCommand h hcommand
      exact absurd rfl hspaced.ne_nil
  · rintro rfl
    exact .comment

/-- A text without blank ends is a command as its words say. -/
theorem isCommand_iff_words {text : List Char} {command : Command} (h : IsTight text)
    (hne : text ≠ []) :
    IsCommand text command ↔ ofWords? ((words text).map String.ofList) = some command := by
  constructor
  · intro hcommand
    have hcomment : command ≠ .comment := by
      rintro rfl
      cases hcommand
      exact hne rfl
    obtain ⟨pieces, hspaced, hwords⟩ := exists_words_of_isCommand hcommand hcomment
    rwa [hspaced.words_eq]
  · exact isCommand_of_words (h.isSpaced_words hne)

theorem parse_eq_ok_iff {line : Nat} {text : String} {command : Command} :
    parse line text = .ok command ↔ IsCommand (trim (beforeComment text.toList)) command := by
  have htight := (isTrimmed_trim (beforeComment text.toList)).isTight
  unfold parse wordsOf
  generalize trim (beforeComment text.toList) = code at htight
  by_cases hempty : code = []
  · -- a line without code is a comment, in the grammar and to the reader
    rw [hempty, isCommand_nil_iff, if_pos List.isEmpty_nil, Except.ok.injEq, eq_comm]
  · rw [isCommand_iff_words htight hempty, if_neg (by simpa using hempty)]
    cases ofWords? ((words code).map String.ofList) with
    | none => simp
    | some other => simp

/-- Whatever is not a command is reported. -/
theorem parse_eq_error_of_not_isCommand {line : Nat} {text : String}
    (h : ∀ command, ¬ IsCommand (trim (beforeComment text.toList)) command) :
    parse line text = .error (.malformed line (String.ofList (trim text.toList))) := by
  cases hparse : parse line text with
  | ok command => exact absurd (parse_eq_ok_iff.1 hparse) (h command)
  | error error =>
      rw [parse] at hparse
      split at hparse
      · cases hparse
      · split at hparse
        · cases hparse
        · exact hparse.symm

/-- **Reading a line.** A line has one code on it, and reading it yields a command exactly if the
grammar has the command for that code; otherwise the whole line is reported, without blank ends. -/
theorem parse_accepts (line : Nat) (text : String) :
    ∃ code whole, IsCode text.toList code ∧ (∀ other, IsCode text.toList other → other = code)
      ∧ IsTrimmed text.toList whole
      ∧ (∀ command, parse line text = .ok command ↔ IsCommand code command)
      ∧ ((∀ command, ¬ IsCommand code command) →
        parse line text = .error (.malformed line (String.ofList whole))) :=
  ⟨trim (beforeComment text.toList), trim text.toList, isCode_iff.2 rfl,
    fun _ hother => (isCode_iff.1 hother).symm, isTrimmed_trim text.toList,
    fun _ => parse_eq_ok_iff, parse_eq_error_of_not_isCommand⟩

end Command

end HackStack
