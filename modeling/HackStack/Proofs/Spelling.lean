import Mathlib.Logic.Relation
import HackStack.Proofs.CommandText
import HackStack.Proofs.EntryPoints

set_option autoImplicit false

/-! # Other spellings of a source

A command has many spellings: with blank characters around it, with other gaps between its words,
with zeros before an index, with a comment after it; and a source has its lines ended in one way or
another. Edits from one spelling to another (`Text.LineEdit`, `Text.Edit`) leave the commands and
the numbers of their lines as they are, so what a source compiles to survives any number of them
(`Source.edits_keep_output`).

The edits have a direction. A line that is no command may become one by an edit, because a slash
before a comment belongs to the comment only if another one follows it; so only sources that
compile are the same under edits.
-/

namespace HackStack

/-! ## Edits -/

namespace Text

/-- An edit within a line. -/
inductive LineEdit : List Char → List Char → Prop
  /-- blank characters at the ends -/
  | pad {left line right : List Char} (hleft : ∀ c ∈ left, isBlank c = true)
      (hright : ∀ c ∈ right, isBlank c = true) : LineEdit line (left ++ line ++ right)
  /-- another gap in place of a gap -/
  | gap {left gap gap' right : List Char} (hgap : IsGap gap) (hgap' : IsGap gap') :
      LineEdit (left ++ gap ++ right) (left ++ gap' ++ right)
  /-- zeros before the index of a cell -/
  | zeros {left word gap gap' right : List Char} {segment : Segment} {digit : Char} (n : Nat)
      (hleft : ∀ c ∈ left, isBlank c = true) (hword : word = "push".toList ∨ word = "pop".toList)
      (hgap : IsGap gap) (hgap' : IsGap gap') (hdigit : '0' ≤ digit ∧ digit ≤ '9') :
      LineEdit (left ++ (word ++ gap ++ (segment.name.toList ++ gap' ++ digit :: right)))
        (left ++ (word ++ gap
          ++ (segment.name.toList ++ gap' ++ (List.replicate n '0' ++ digit :: right))))
  /-- a comment at the end -/
  | comment {line : List Char} (remark : List Char) : LineEdit line (line ++ '/' :: '/' :: remark)

/-- Whether a line begins after a text: at its beginning, or after a line feed. -/
def IsLineStart (before : List Char) : Prop := ∀ c, before.getLast? = some c → c = '\n'

/-- Whether a line ends before a text: at the end of the source, or before a line ending. -/
def IsLineEnd (after : List Char) : Prop :=
  after = [] ∨ (∃ rest, after = '\n' :: rest) ∨ ∃ rest, after = '\r' :: '\n' :: rest

/-- An edit of a source. -/
inductive Edit : List Char → List Char → Prop
  /-- an edit within one of its lines -/
  | line {before line line' after : List Char} (hbefore : IsLineStart before)
      (hafter : IsLineEnd after) (hline : '\n' ∉ line) (hline' : '\n' ∉ line')
      (hedit : LineEdit line line') : Edit (before ++ (line ++ after)) (before ++ (line' ++ after))
  /-- a carriage return before a line feed -/
  | carriageReturn (before after : List Char) :
      Edit (before ++ '\n' :: after) (before ++ '\r' :: '\n' :: after)
  /-- a line feed after the last line -/
  | ended {before line : List Char} (hbefore : IsLineStart before) (hline : '\n' ∉ line)
      (hne : line ≠ []) : Edit (before ++ line) (before ++ (line ++ ['\n']))
  /-- no line feed after the last line -/
  | unended {before line : List Char} (hbefore : IsLineStart before) (hline : '\n' ∉ line)
      (hne : line ≠ []) : Edit (before ++ (line ++ ['\n'])) (before ++ line)

/-! ## The words on a line -/

/-- The words of the code on a line. -/
def codeWords (line : List Char) : List (List Char) := words (trim (beforeComment line))

theorem codeWords_pad {left right : List Char} (hleft : ∀ c ∈ left, isBlank c = true)
    (hright : ∀ c ∈ right, isBlank c = true) (line : List Char) :
    codeWords (left ++ line ++ right) = codeWords line := by
  rw [codeWords, trim_beforeComment_pad hleft hright, codeWords]

/-- A text keeps what is between two parts that are not blank where they begin and end. -/
theorem trim_enclosed {left front inner back right : List Char}
    (hleft : ∀ c ∈ left, isBlank c = true) (hright : ∀ c ∈ right, isBlank c = true)
    (hfront : front ≠ []) (hhead : ∀ c, front.head? = some c → isBlank c = false)
    (hback : back ≠ []) (hlast : ∀ c, back.getLast? = some c → isBlank c = false) :
    trim (left ++ (front ++ inner ++ back) ++ right) = front ++ inner ++ back := by
  refine IsTrimmed.trim_eq ⟨⟨left, right, rfl, hleft, hright⟩, fun c hc => ?_, fun c hc => ?_⟩
  · obtain ⟨d, rest, rfl⟩ := List.exists_cons_of_ne_nil hfront
    exact hhead c hc
  · rw [List.getLast?_append, List.getLast?_eq_some_getLast hback, Option.some_or] at hc
    exact hlast c ((List.getLast?_eq_some_getLast hback).trans hc)

theorem IsGap.isBlank {gap : List Char} (h : IsGap gap) : ∀ c ∈ gap, isBlank c = true :=
  fun c hc => isBlank_of_isGap (isGap_iff.2 (h.2 c hc))

/-- The words around a gap do not depend on the gap. -/
theorem exists_words_trim_gap (left right : List Char) :
    ∃ pieces, ∀ gap, IsGap gap → words (trim (left ++ gap ++ right)) = pieces := by
  by_cases hleft : ∀ c ∈ left, isBlank c = true
  · -- the gap is at the beginning
    refine ⟨words (trim right), fun gap hgap => ?_⟩
    have hblank : ∀ c ∈ left ++ gap, isBlank c = true :=
      List.forall_mem_append.2 ⟨hleft, hgap.isBlank⟩
    have htrim : trim (left ++ gap ++ right ++ []) = trim right :=
      trim_pad hblank (by simp) right
    rw [List.append_nil] at htrim
    rw [htrim]
  by_cases hright : ∀ c ∈ right, isBlank c = true
  · -- the gap is at the end
    refine ⟨words (trim left), fun gap hgap => ?_⟩
    have hblank : ∀ c ∈ gap ++ right, isBlank c = true :=
      List.forall_mem_append.2 ⟨hgap.isBlank, hright⟩
    have htrim : trim ([] ++ left ++ (gap ++ right)) = trim left :=
      trim_pad (by simp) hblank left
    rw [List.nil_append, ← List.append_assoc] at htrim
    rw [htrim]
  · rw [← trim_eq_nil_iff] at hleft hright
    obtain ⟨⟨first, inner, hsplit, hfirst, -⟩, hhead, -⟩ := isTrimmed_trim left
    obtain ⟨⟨inner', last, hsplit', -, hlast⟩, -, hend⟩ := isTrimmed_trim right
    refine ⟨words (trim left ++ inner) ++ words (inner' ++ trim right), fun gap hgap => ?_⟩
    have hall : left ++ gap ++ right
        = first ++ (trim left ++ (inner ++ gap ++ inner') ++ trim right) ++ last := by
      conv => lhs; rw [hsplit, hsplit']
      simp only [List.append_assoc]
    have hgroup : trim left ++ (inner ++ gap ++ inner') ++ trim right
        = (trim left ++ inner) ++ gap ++ (inner' ++ trim right) := by
      simp only [List.append_assoc]
    rw [hall, trim_enclosed hfirst hlast hleft hhead hright hend, hgroup,
      words_append_gap_append hgap]

/-- The words of the code do not depend on a gap. -/
theorem exists_codeWords_gap (left right : List Char) :
    ∃ pieces, ∀ gap, IsGap gap → codeWords (left ++ gap ++ right) = pieces := by
  have hhead : ∀ gap, IsGap gap → (gap ++ right).head? ≠ some '/' := by
    rintro gap ⟨hne, hgap⟩ heq
    obtain ⟨c, rest, rfl⟩ := List.exists_cons_of_ne_nil hne
    rcases hgap c List.mem_cons_self with rfl | rfl
    · cases heq
    · cases heq
  rcases beforeComment_append left with hcode | hcomment
  · obtain ⟨pieces, hpieces⟩ := exists_words_trim_gap left (beforeComment right)
    refine ⟨pieces, fun gap hgap => ?_⟩
    rw [codeWords, List.append_assoc, hcode _ (hhead gap hgap),
      beforeComment_append_of_not_mem (slash_not_mem_of_blank hgap.isBlank), ← List.append_assoc,
      hpieces gap hgap]
  · refine ⟨codeWords left, fun gap hgap => ?_⟩
    rw [codeWords, List.append_assoc, hcomment _ (hhead gap hgap), codeWords]

/-- A comment is cut off again, unless a slash is before it. -/
theorem beforeComment_append_comment {line : List Char} (h : '/' ∉ beforeComment line)
    (remark : List Char) : beforeComment (line ++ '/' :: '/' :: remark) = beforeComment line := by
  have hpart := isBeforeComment_beforeComment line
  generalize beforeComment line = part at h hpart
  cases hpart with
  | all _ =>
      rw [beforeComment_append_of_not_mem h, beforeComment_slashes, List.append_nil]
  | first _ =>
      rw [List.append_assoc, beforeComment_append_of_not_mem h, List.cons_append,
        List.cons_append, beforeComment_slashes, List.append_nil]

theorem slash_not_mem_of_trim {s : List Char} (h : '/' ∉ trim s) : '/' ∉ s := by
  obtain ⟨left, right, hsplit, hleft, hright⟩ := (isTrimmed_trim s).split
  rw [hsplit, List.mem_append, List.mem_append]
  rintro ((hmem | hmem) | hmem)
  · exact slash_not_mem_of_blank hleft hmem
  · exact h hmem
  · exact slash_not_mem_of_blank hright hmem

/-! ## Zeros before a number -/

theorem decimal?_zeros_append {s : List Char} (h : isNumeral s = true) (n : Nat) :
    isNumeral (List.replicate n '0' ++ s) = true
      ∧ decimal? (List.replicate n '0' ++ s) = decimal? s := by
  induction n with
  | zero => exact ⟨h, rfl⟩
  | succ n ih =>
      obtain ⟨hnumeral, hvalue⟩ := ih
      rw [List.replicate_succ, List.cons_append, decimal?_zero_cons hnumeral]
      refine ⟨?_, hvalue⟩
      rw [isNumeral_iff] at hnumeral ⊢
      exact ⟨List.cons_ne_nil _ _, List.forall_mem_cons.2 ⟨by decide, hnumeral.2⟩⟩

/-- What is put before a text without a gap goes into its first word. -/
theorem IsTight.exists_words_append {s : List Char} (h : IsTight s) (hne : s ≠ []) :
    ∃ first others, ∀ front : List Char, (∀ c ∈ front, isGap c = false) →
      words (front ++ s) = (front ++ first) :: others := by
  have hword : ∀ {word front : List Char}, IsWord word → (∀ c ∈ front, isGap c = false) →
      IsWord (front ++ word) :=
    fun hword hfront => ⟨List.append_ne_nil_of_right_ne_nil _ hword.1,
      List.forall_mem_append.2 ⟨hfront, hword.2⟩⟩
  rcases h.cases hne with hs | ⟨first, gap, rest, rfl, hfirst, hgap, -, -⟩
  · exact ⟨s, [], fun front hfront => (hword hs hfront).words_eq⟩
  · refine ⟨first, words rest, fun front hfront => ?_⟩
    rw [← List.append_assoc, ← List.append_assoc,
      words_word_gap_append (hword hfirst hfront) hgap]

end Text

open Text

/-! ## Edits within a line -/

namespace Command

variable {number : Nat} {line line' : List Char} {command : Command}

/-- What is read from a line depends on the words on it. -/
theorem parse_eq_ok_iff_words : parse number (String.ofList line) = .ok command ↔
    (codeWords line = [] ∧ command = .comment)
      ∨ ofWords? ((codeWords line).map String.ofList) = some command := by
  rw [parse_eq_ok_iff, String.toList_ofList, codeWords]
  have htight := (isTrimmed_trim (beforeComment line)).isTight
  generalize trim (beforeComment line) = code at htight
  by_cases hcode : code = []
  · rw [hcode, isCommand_nil_iff, words_nil]
    simp [ofWords?]
  · have hwords : words code ≠ [] := by
      intro hnil
      have hspaced := htight.isSpaced_words hcode
      rw [hnil] at hspaced
      cases hspaced
    rw [isCommand_iff_words htight hcode]
    simp [hwords]

theorem parse_congr_words (hwords : codeWords line' = codeWords line)
    (h : parse number (String.ofList line) = .ok command) :
    parse number (String.ofList line') = .ok command := by
  rw [parse_eq_ok_iff_words] at h ⊢
  rwa [hwords]

/-- There is no slash in front of the comment on a line that is read. -/
theorem slash_not_mem_of_parse (h : parse number (String.ofList line) = .ok command) :
    '/' ∉ beforeComment line := by
  rw [parse_eq_ok_iff, String.toList_ofList] at h
  apply slash_not_mem_of_trim
  generalize trim (beforeComment line) = code at h
  by_cases hcommand : command = .comment
  · subst hcommand
    cases h
    exact List.not_mem_nil
  · exact (h.isNeat hcommand).slash_not_mem

/-- Zeros before an index are no part of its value. -/
theorem ofWords?_zeros {word place digits : List Char} {others : List (List Char)}
    (hplace : String.ofList place ≠ "pointer")
    (h : ofWords? ((word :: place :: digits :: others).map String.ofList) = some command)
    (n : Nat) :
    ofWords? ((word :: place :: (List.replicate n '0' ++ digits) :: others).map String.ofList)
      = some command := by
  cases others with
  | cons _ _ => cases h
  | nil =>
      obtain ⟨operand, hoperand, hmove⟩ := Option.bind_eq_some_iff.1 h
      refine Option.bind_eq_some_iff.2 ⟨operand, ?_, hmove⟩
      rw [Operand.ofWords?_eq_some_iff] at hoperand ⊢
      rcases hoperand with ⟨slot, hpointer, -⟩ | ⟨segment, value, hsegment, hvalue, hrest⟩
      · exact absurd hpointer hplace
      · refine Or.inr ⟨segment, value, hsegment, ?_, hrest⟩
        have hnumeral := isNumeral_iff.2 (Operand.index?_eq_some_iff.1 hvalue).1
        rw [String.toList_ofList] at hnumeral
        rw [Operand.index?, String.toList_ofList] at hvalue ⊢
        rwa [(decimal?_zeros_append hnumeral n).2]

end Command

namespace Text

/-- A text that does not begin with a blank character loses only blank characters at its end. -/
theorem exists_trim_cons {c : Char} (hc : isBlank c = false) (rest : List Char) :
    trim (c :: rest) ≠ []
      ∧ ∃ last, c :: rest = trim (c :: rest) ++ last ∧ ∀ d ∈ last, isBlank d = true := by
  obtain ⟨⟨first, last, hsplit, hfirst, hlast⟩, -, -⟩ := isTrimmed_trim (c :: rest)
  constructor
  · rw [ne_eq, trim_eq_nil_iff, List.forall_mem_cons, hc]
    exact fun h => Bool.false_ne_true h.1
  · cases first with
    | nil => exact ⟨last, hsplit, hlast⟩
    | cons d first =>
        have hd := hfirst d List.mem_cons_self
        rw [← (List.cons.inj hsplit).1, hc] at hd
        cases hd

/-- The words of a line with an operand. Zeros before the index go into its word. -/
theorem exists_codeWords_operand {left word gap gap' : List Char} {segment : Segment}
    {digit : Char} (hleft : ∀ c ∈ left, isBlank c = true)
    (hword : word = "push".toList ∨ word = "pop".toList) (hgap : IsGap gap) (hgap' : IsGap gap')
    (hdigit : '0' ≤ digit ∧ digit ≤ '9') (right : List Char) :
    ∃ digits others, ∀ n, codeWords (left ++ (word ++ gap
        ++ (segment.name.toList ++ gap' ++ (List.replicate n '0' ++ digit :: right))))
      = word :: segment.name.toList :: (List.replicate n '0' ++ digits) :: others := by
  have hneat : IsNeat word := by
    rcases hword with rfl | rfl
    · exact isNeat_of_all (by decide)
    · exact isNeat_of_all (by decide)
  have hsolid : IsWord word := by
    rcases hword with rfl | rfl
    · decide
    · decide
  have hvisible : isVisible digit = true :=
    isVisible_of_isPart (Symbol.isPart_iff.2 (Or.inr hdigit))
  -- the index, perhaps with more words after it, and the blank characters at the end
  obtain ⟨hindex, last, hsplit, hlast⟩ :=
    exists_trim_cons (isBlank_of_isVisible hvisible) (beforeComment right)
  have htrimmed := isTrimmed_trim (digit :: beforeComment right)
  generalize trim (digit :: beforeComment right) = index at hindex hsplit htrimmed
  obtain ⟨digits, others, hwords⟩ := htrimmed.isTight.exists_words_append hindex
  refine ⟨digits, others, fun n => ?_⟩
  have hzeros : ∀ c ∈ List.replicate n '0', isGap c = false := by
    intro c hc
    rw [List.eq_of_mem_replicate hc]
    rfl
  -- no comment begins before the digit
  have hslash : '/' ∉ left ++ (word ++ gap
      ++ (segment.name.toList ++ gap' ++ (List.replicate n '0' ++ [digit]))) := by
    have hdigit' : '/' ≠ digit := by
      rintro rfl
      cases hvisible
    simp [slash_not_mem_of_blank hleft, hneat.slash_not_mem,
      slash_not_mem_of_blank hgap.isBlank, segment.isNeat_name.slash_not_mem,
      slash_not_mem_of_blank hgap'.isBlank, hdigit']
  have hcode : beforeComment (left ++ (word ++ gap
        ++ (segment.name.toList ++ gap' ++ (List.replicate n '0' ++ digit :: right))))
      = left ++ (word ++ (gap ++ segment.name.toList ++ gap' ++ List.replicate n '0') ++ index)
        ++ last := by
    have hbefore := beforeComment_append_of_not_mem hslash right
    simp only [List.append_assoc, List.cons_append, List.nil_append, hsplit] at hbefore ⊢
    exact hbefore
  calc codeWords (left ++ (word ++ gap
        ++ (segment.name.toList ++ gap' ++ (List.replicate n '0' ++ digit :: right))))
    _ = words (word ++ (gap ++ segment.name.toList ++ gap' ++ List.replicate n '0') ++ index) := by
        rw [codeWords, hcode, trim_enclosed hleft hlast hsolid.1 hneat.isBlank_head? hindex
          htrimmed.last]
    _ = words (word ++ gap
          ++ (segment.name.toList ++ gap' ++ (List.replicate n '0' ++ index))) := by
        simp only [List.append_assoc]
    _ = word :: segment.name.toList :: (List.replicate n '0' ++ digits) :: others := by
        rw [words_word_gap_append hsolid hgap,
          words_word_gap_append (Operand.isWord_name segment) hgap', hwords _ hzeros]

/-- **An edit within a line** leaves the command that is read from it. -/
theorem LineEdit.parse {line line' : List Char} (h : LineEdit line line') {number : Nat}
    {command : Command} (hparse : Command.parse number (String.ofList line) = .ok command) :
    Command.parse number (String.ofList line') = .ok command := by
  cases h with
  | pad hleft hright =>
      exact Command.parse_congr_words (codeWords_pad hleft hright line) hparse
  | @gap left _ _ right hgap hgap' =>
      obtain ⟨pieces, hpieces⟩ := exists_codeWords_gap left right
      exact Command.parse_congr_words ((hpieces _ hgap').trans (hpieces _ hgap).symm) hparse
  | comment remark =>
      have hslash := Command.slash_not_mem_of_parse hparse
      refine Command.parse_congr_words ?_ hparse
      rw [codeWords, beforeComment_append_comment hslash, codeWords]
  | @zeros left word gap gap' right segment digit n hleft hword hgap hgap' hdigit =>
      obtain ⟨digits, others, hpieces⟩ :=
        @exists_codeWords_operand left word gap gap' segment digit hleft hword hgap hgap' hdigit right
      have hplain := hpieces 0
      rw [List.replicate_zero, List.nil_append, List.nil_append] at hplain
      rw [Command.parse_eq_ok_iff_words, hplain] at hparse
      rw [Command.parse_eq_ok_iff_words, hpieces n]
      refine Or.inr (Command.ofWords?_zeros ?_ (hparse.resolve_left (by simp)) n)
      rw [String.ofList_toList]
      exact Operand.name_ne_pointer segment

-- a line that is no command may become one when a comment is added to it
example : Command.parse 1 "add/" = .error (.malformed 1 "add/")
    ∧ Command.parse 1 "add///" = .ok (.arithmetic (.binary .add)) := ⟨rfl, rfl⟩

end Text

/-! ## Edits of a source -/

namespace Text

/-- The last line of a text, and what is before it. -/
theorem exists_last_line (s : List Char) :
    ∃ before line, s = before ++ line ∧ IsLineStart before ∧ '\n' ∉ line := by
  obtain ⟨run, hsplit, hrun, hhead⟩ := exists_run (fun c => c != '\n') s.reverse
  refine ⟨(s.reverse.dropWhile fun c => c != '\n').reverse, run.reverse, ?_, fun c hc => ?_,
    fun hmem => ?_⟩
  · rw [← List.reverse_append, ← hsplit, List.reverse_reverse]
  · rw [List.getLast?_reverse] at hc
    simpa using hhead c hc
  · simpa using hrun '\n' (List.mem_reverse.1 hmem)

theorem lines_append_return_cons {line : List Char} (h : '\n' ∉ line) (rest : List Char) :
    lines (String.ofList (line ++ '\r' :: '\n' :: rest))
      = String.ofList line :: lines (String.ofList rest) := by
  have hreturn : '\n' ∉ line ++ ['\r'] := by simp [h]
  have hlines := lines_append_cons hreturn rest
  rwa [dropReturn_append_return, List.append_assoc] at hlines

/-- Where a line begins, the lines before it are complete. -/
theorem lines_append {before : List Char} (h : IsLineStart before) (after : List Char) :
    lines (String.ofList (before ++ after))
      = lines (String.ofList before) ++ lines (String.ofList after) := by
  have hstart : ∀ line rest : List Char, IsLineStart (line ++ rest) → IsLineStart rest := by
    intro line rest h c hc
    exact h c (by rw [List.getLast?_append, hc, Option.some_or])
  obtain ⟨ended, rest, hcut⟩ := exists_isCut '\n' '\r' before
  induction hcut with
  | @rest s hmem =>
      have hnil : s = [] := by
        cases hlast : s.getLast? with
        | none => exact List.getLast?_eq_none_iff.1 hlast
        | some c =>
            rw [h c hlast] at hlast
            exact absurd (List.mem_of_getLast? hlast) hmem
      rw [hnil]
      rfl
  | @lineFeed line s rest more hline hreturn hmore ih =>
      have hs : IsLineStart s := hstart (line ++ ['\n']) s (by simpa using h)
      rw [List.append_assoc, List.cons_append, lines_append_cons hline, lines_append_cons hline,
        ih hs, List.cons_append]
  | @returnLineFeed line s rest more hline hmore ih =>
      have hs : IsLineStart s := hstart (line ++ ['\r', '\n']) s (by simpa using h)
      rw [List.append_assoc, List.cons_append, List.cons_append, lines_append_return_cons hline,
        lines_append_return_cons hline, ih hs, List.cons_append]

/-- A carriage return at the end of a line is a blank character like others. -/
theorem parse_dropReturn {number : Nat} {line : List Char} {command : Command} :
    Command.parse number (String.ofList (dropReturn '\r' line)) = .ok command
      ↔ Command.parse number (String.ofList line) = .ok command := by
  by_cases hreturn : line.getLast? = some '\r'
  · obtain ⟨body, rfl⟩ := List.getLast?_eq_some_iff.1 hreturn
    have hwords : codeWords ([] ++ body ++ ['\r']) = codeWords body :=
      codeWords_pad (by simp) (List.forall_mem_singleton.2 rfl) body
    rw [List.nil_append] at hwords
    rw [dropReturn_append_return]
    exact ⟨Command.parse_congr_words hwords, Command.parse_congr_words hwords.symm⟩
  · rw [dropReturn_of_ne hreturn]

end Text

namespace Compilation

/-- Lines that compile to what other lines compile to, wherever these compile. -/
def Respells (texts texts' : List String) : Prop :=
  ∀ (number : Nat) (fragments : List Fragment),
    yields number (texts.map .ok) = fragments.map .ok →
      yields number (texts'.map .ok) = fragments.map .ok

namespace Respells

variable {texts texts' : List String}

theorem refl (texts : List String) : Respells texts texts := fun _ _ h => h

theorem trans {texts'' : List String} (h : Respells texts texts') (h' : Respells texts' texts'') :
    Respells texts texts'' := fun number fragments hyields =>
  h' number fragments (h number fragments hyields)

/-- One line after another line that is read alike. -/
theorem cons {text text' : String} (h : ∀ {number : Nat} {command : Command},
    Command.parse number text = .ok command → Command.parse number text' = .ok command)
    (rest : List String) : Respells (text :: rest) (text' :: rest) := by
  intro number fragments hyields
  rw [List.map_cons] at hyields ⊢
  cases hparse : Command.parse number text with
  | error error =>
      have hline : compileLine number text = .error error := by rw [compileLine, hparse]
      rw [yields_line_of_error hline] at hyields
      cases fragments with
      | nil => cases hyields
      | cons _ _ => cases hyields
  | ok command =>
      have hline : compileLine number text' = compileLine number text := by
        rw [compileLine, compileLine, hparse, h hparse]
      rw [yields] at hyields ⊢
      rwa [hline]

theorem append_left (h : Respells texts texts') (before : List String) :
    Respells (before ++ texts) (before ++ texts') := by
  induction before with
  | nil => exact h
  | cons text before ih =>
      intro number fragments hyields
      rw [List.cons_append, List.map_cons] at hyields ⊢
      cases hline : compileLine number text with
      | error error =>
          rw [yields_line_of_error hline] at hyields ⊢
          exact hyields
      | ok fragment =>
          by_cases hempty : fragment.isEmpty = true
          · rw [yields_line_of_isEmpty hline hempty] at hyields ⊢
            exact ih (number + 1) fragments hyields
          · rw [yields_line_of_not_isEmpty hline hempty] at hyields ⊢
            cases fragments with
            | nil => cases hyields
            | cons first fragments =>
                obtain ⟨hfirst, hrest⟩ := List.cons.inj hyields
                rw [List.map_cons, hfirst, ih (number + 1) fragments hrest]

end Respells

end Compilation

namespace Text

open Compilation

/-- The last line of a source without a line ending. An empty one is no line, and yields nothing. -/
theorem yields_last_line {line : List Char} (h : '\n' ∉ line) (number : Nat) :
    yields number ((lines (String.ofList line)).map .ok)
      = yields number [.ok (String.ofList line)] := by
  by_cases hne : line = []
  · rw [hne]
    rfl
  · rw [lines_of_not_mem h hne]
    rfl

theorem respells_line {line line' after : List Char} (hafter : IsLineEnd after)
    (hline : '\n' ∉ line) (hline' : '\n' ∉ line')
    (h : ∀ {number : Nat} {command : Command}, Command.parse number (String.ofList line)
      = .ok command → Command.parse number (String.ofList line') = .ok command) :
    Respells (lines (String.ofList (line ++ after))) (lines (String.ofList (line' ++ after))) := by
  rcases hafter with rfl | ⟨rest, rfl⟩ | ⟨rest, rfl⟩
  · intro number fragments
    rw [List.append_nil, List.append_nil, yields_last_line hline, yields_last_line hline']
    exact Respells.cons h [] number fragments
  · rw [lines_append_cons hline, lines_append_cons hline']
    exact Respells.cons (fun hparse => parse_dropReturn.2 (h (parse_dropReturn.1 hparse))) _
  · rw [lines_append_return_cons hline, lines_append_return_cons hline']
    exact Respells.cons h _

/-- **One edit** leaves what the lines of a source compile to. -/
theorem Edit.respells {source edited : List Char} (h : Edit source edited) :
    Respells (lines (String.ofList source)) (lines (String.ofList edited)) := by
  cases h with
  | line hbefore hafter hline hline' hedit =>
      rw [lines_append hbefore, lines_append hbefore]
      exact (respells_line hafter hline hline' hedit.parse).append_left _
  | carriageReturn before after =>
      obtain ⟨before, line, rfl, hbefore, hline⟩ := exists_last_line before
      rw [List.append_assoc, List.append_assoc, lines_append hbefore, lines_append hbefore,
        lines_append_cons hline, lines_append_return_cons hline]
      exact (Respells.cons parse_dropReturn.1 _).append_left _
  | ended hbefore hline hne =>
      rw [lines_append hbefore, lines_append hbefore, lines_of_not_mem hline hne,
        lines_append_cons hline]
      exact (Respells.cons parse_dropReturn.2 _).append_left _
  | unended hbefore hline hne =>
      rw [lines_append hbefore, lines_append hbefore, lines_of_not_mem hline hne,
        lines_append_cons hline]
      exact (Respells.cons parse_dropReturn.1 _).append_left _

/-- **Any number of edits** leave what the lines of a source compile to. -/
theorem respells_of_edits {source edited : List Char}
    (h : Relation.ReflTransGen Edit source edited) :
    Respells (lines (String.ofList source)) (lines (String.ofList edited)) := by
  induction h with
  | refl => exact Respells.refl _
  | tail _ hedit ih => exact ih.trans hedit.respells

end Text

/-! ## The main result -/

namespace Source

open Text

/-- **Edits change nothing of the output.** Let a source compile, and another one be made from it by
edits: blank characters around lines, other gaps between words, zeros before indexes, comments after
lines, other line endings. Then it compiles to the same fragments on the same lines, and to the same
text, with and without annotations. -/
theorem edits_keep_output {source edited : String}
    (hedits : Relation.ReflTransGen Edit source.toList edited.toList) {annotate : Bool}
    {text : String} (h : assemble annotate source = .ok text) :
    ∃ fragments, compile source = .ok fragments ∧ compile edited = .ok fragments
      ∧ ∀ annotate, assemble annotate edited = assemble annotate source
        ∧ assemble annotate source = .ok (Fragment.textOf annotate fragments) := by
  obtain ⟨fragments, hcompile, -⟩ := assemble_eq_ok_iff.1 h
  have hrespells := Text.respells_of_edits hedits
  rw [String.ofList_toList, String.ofList_toList] at hrespells
  have hedited : compile edited = .ok fragments :=
    compile_eq_ok_iff_yields.2 (hrespells 1 fragments (compile_eq_ok_iff_yields.1 hcompile))
  refine ⟨fragments, hcompile, hedited, fun annotate => ?_⟩
  have htext : assemble annotate source = .ok (Fragment.textOf annotate fragments) :=
    assemble_eq_ok_iff.2 ⟨fragments, hcompile, rfl⟩
  exact ⟨(assemble_eq_ok_iff.2 ⟨fragments, hedited, rfl⟩).trans htext.symm, htext⟩

/-- A gap, an index, the ends of a line, a comment and both line endings are edited, one after the
other. -/
theorem edits_keep_output_comparison :
    assemble false "\u00a0push temp \t007 // x\r\neq\n" = assemble false "push temp 7\neq"
      ∧ assemble true "\u00a0push temp \t007 // x\r\neq\n"
        = assemble true "push temp 7\neq" := by
  have hstart : IsLineStart [] := by simp [IsLineStart]
  have hend : IsLineEnd "\neq".toList := Or.inr (Or.inl ⟨"eq".toList, rfl⟩)
  have hgap : Edit "push temp 7\neq".toList "push temp \t7\neq".toList :=
    .line hstart hend (by decide) (by decide)
      (@LineEdit.gap "push temp".toList " ".toList " \t".toList "7".toList
        (by simp [IsGap]) (by simp [IsGap]))
  have hzeros : Edit "push temp \t7\neq".toList "push temp \t007\neq".toList :=
    .line hstart hend (by decide) (by decide)
      (@LineEdit.zeros [] "push".toList " ".toList " \t".toList [] .temp '7' 2 (by simp)
        (Or.inl rfl) (by simp [IsGap]) (by simp [IsGap]) (by decide))
  have hpad : Edit "push temp \t007\neq".toList "\u00a0push temp \t007 \neq".toList :=
    .line hstart hend (by decide) (by decide)
      (@LineEdit.pad ['\u00a0'] "push temp \t007".toList [' '] (List.forall_mem_singleton.2 rfl)
        (List.forall_mem_singleton.2 rfl))
  have hcomment : Edit "\u00a0push temp \t007 \neq".toList
      "\u00a0push temp \t007 // x\neq".toList :=
    .line hstart hend (by decide) (by decide)
      (@LineEdit.comment "\u00a0push temp \t007 ".toList " x".toList)
  have hreturn : Edit "\u00a0push temp \t007 // x\neq".toList
      "\u00a0push temp \t007 // x\r\neq".toList :=
    .carriageReturn "\u00a0push temp \t007 // x".toList "eq".toList
  have hended : Edit "\u00a0push temp \t007 // x\r\neq".toList
      "\u00a0push temp \t007 // x\r\neq\n".toList :=
    @Edit.ended "\u00a0push temp \t007 // x\r\n".toList "eq".toList
      (by simp [IsLineStart]) (by decide) (by decide)
  have hedits := (((((Relation.ReflTransGen.single hgap).tail hzeros).tail hpad).tail
    hcomment).tail hreturn).tail hended
  have hcompile : compile "push temp 7\neq" = .ok
      [⟨1, .push (.cell .temp 7), [.loadConstant 12, .store .toD (.input .m)] ++ Code.pushD⟩,
        ⟨2, .arithmetic (.comparison .eq), Code.comparison .eq 2⟩] := by
    rw [compile_eq_yields]
    rfl
  have hassemble : assemble false "push temp 7\neq" = .ok _ :=
    assemble_eq_ok_iff.2 ⟨_, hcompile, rfl⟩
  obtain ⟨fragments, -, -, hsame⟩ := edits_keep_output hedits hassemble
  exact ⟨(hsame false).1, (hsame true).1⟩

end Source

end HackStack
