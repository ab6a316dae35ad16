import HackStack.Proofs.BlankLines
import HackStack.Proofs.CommandText
import HackStack.Proofs.Disassembly

set_option autoImplicit false

/-! # Annotated text

With annotations, the text of a fragment begins with its command, on a line of its own that is
marked as a remark. No other line looks like one, so the remarks can be taken out again, and they
are all the difference that annotations make (`withoutRemarks_textOf`, `remarks_textOf`). The
remarks are themselves a source, the listing of the annotated text: it has the commands of the
source that was compiled, it is its own listing, and it runs alike
(`Source.annotations_list_commands`).
-/

namespace HackStack

/-! ## Remarks -/

namespace Text

/-- Whether a line begins with `//`. -/
def isRemark (line : String) : Bool := "//".toList.isPrefixOf line.toList

/-- The text without the lines that are remarks. -/
def withoutRemarks (text : String) : String :=
  ofLines ((lines text).filter fun line => !isRemark line)

/-- What the remarks in a text say: their lines without the first three characters, `//` and a
space. -/
def remarks (text : String) : List String :=
  ((lines text).filter isRemark).map fun line => String.ofList (line.toList.drop 3)

/-- The source that the remarks in a text are, one line each. -/
def listing (text : String) : String := "\n".intercalate (remarks text)

theorem isRemark_append (text : String) : isRemark ("// " ++ text) = true := by
  simp [isRemark]

theorem isRemark_of_head {line : String} (h : line.toList.head? ≠ some '/') :
    isRemark line = false := by
  unfold isRemark
  cases hline : line.toList with
  | nil => rfl
  | cons c rest =>
      rw [hline] at h
      have hc : ('/' == c) = false := by
        rw [beq_eq_false_iff_ne]
        rintro rfl
        exact h rfl
      show ('/' == c && _) = false
      rw [hc, Bool.false_and]

/-- Neat lines between line feeds are the lines of the text. -/
theorem lines_intercalate {texts : List String} (h : ∀ text ∈ texts, IsNeat text.toList) :
    lines ("\n".intercalate texts) = texts := by
  induction texts with
  | nil => rfl
  | cons text rest ih =>
      rw [List.forall_mem_cons] at h
      obtain ⟨htext, hrest⟩ := h
      cases rest with
      | nil =>
          have hline := lines_of_not_mem htext.lineFeed_not_mem htext.ne_nil
          rwa [String.ofList_toList] at hline
      | cons next rest =>
          have hlist : "\n".intercalate (text :: next :: rest) = String.ofList
              (text.toList ++ '\n' :: ("\n".intercalate (next :: rest)).toList) := by
            rw [String.intercalate_cons_cons, ← String.toList_inj]
            simp
          have hreturn : text.toList.getLast? ≠ some '\r' :=
            fun hlast => htext.return_not_mem (List.mem_of_getLast? hlast)
          rw [hlist, lines_append_cons htext.lineFeed_not_mem, dropReturn_of_ne hreturn,
            String.ofList_toList, String.ofList_toList, ih hrest]

end Text

open Text

namespace Instruction

/-- No instruction looks like a remark. -/
theorem isRemark_text {instruction : Instruction} (h : instruction.IsLegible) :
    isRemark instruction.text = false := by
  apply isRemark_of_head
  cases instruction with
  | label name => simp [toList_text_label]
  | operation op =>
      cases op with
      | constant value => simp [toList_text_constant]
      | symbol name => simp [toList_text_symbol]
      | compute dest comp jump =>
          -- a slash is in no part of a computation
          have hdest : ∀ dest ∈ Dest.all, '/' ∉ dest.part := by decide
          have hcomp : ∀ comp ∈ Comp.all, '/' ∉ comp.text.toList := by decide
          have hjump : ∀ jump ∈ Jump.all, '/' ∉ Jump.part (some jump) := by decide
          intro hhead
          have hmem := List.mem_of_head? hhead
          rw [toList_text_compute, List.mem_append, List.mem_append] at hmem
          rcases hmem with hmem | hmem | hmem
          · exact hdest dest (Dest.mem_all dest) hmem
          · exact hcomp comp (Comp.mem_all comp) hmem
          · cases jump with
            | none => cases hmem
            | some jump => exact hjump jump (Jump.mem_all jump) hmem

end Instruction

/-! ## The lines of annotated text -/

namespace Fragment

/-- There is code, the names in it are symbols, and the text of the command is neat. -/
structure IsPrintable (fragment : Fragment) : Prop where
  code : Code.IsLegible fragment.code
  command : IsNeat fragment.command.text.toList

/-- The lines for the command and for the instructions of a fragment. -/
theorem IsPrintable.lines_eq {fragment : Fragment} (h : fragment.IsPrintable) (annotate : Bool) :
    fragment.lines annotate = (if annotate then ["// " ++ fragment.command.text] else [])
      ++ fragment.code.map Instruction.text ++ [""] :=
  lines_of_code_ne_nil h.code.ne_nil annotate

/-- No line of a fragment ends within its text. -/
theorem IsPrintable.not_mem_line {fragment : Fragment} (h : fragment.IsPrintable) {annotate : Bool}
    {line : String} (hline : line ∈ fragment.lines annotate) :
    '\n' ∉ line.toList ∧ '\r' ∉ line.toList := by
  rw [h.lines_eq, List.mem_append, List.mem_append] at hline
  rcases hline with (hline | hline) | hline
  · cases annotate with
    | false => cases hline
    | true =>
        rw [if_pos rfl, List.mem_singleton] at hline
        rw [hline]
        exact ⟨by simp [h.command.lineFeed_not_mem], by simp [h.command.return_not_mem]⟩
  · obtain ⟨instruction, hinstruction, rfl⟩ := List.mem_map.1 hline
    have hlegible := h.code.instruction hinstruction
    exact ⟨Instruction.not_mem_text hlegible (Or.inl rfl),
      Instruction.not_mem_text hlegible (Or.inr rfl)⟩
  · rw [List.mem_singleton.1 hline]
    exact ⟨by decide, by decide⟩

section Printable

variable {fragments : List Fragment} (h : ∀ fragment ∈ fragments, fragment.IsPrintable)

include h

theorem lines_textOf (annotate : Bool) :
    Text.lines (textOf annotate fragments) = fragments.flatMap (Fragment.lines annotate) := by
  rw [textOf_eq_ofLines]
  refine lines_ofLines fun line hline => ?_
  obtain ⟨fragment, hmem, hline⟩ := List.mem_flatMap.1 hline
  exact (h fragment hmem).not_mem_line hline

theorem withoutRemarks_textOf :
    withoutRemarks (textOf true fragments) = textOf false fragments := by
  rw [withoutRemarks, lines_textOf h, List.filter_flatMap, textOf_eq_ofLines]
  refine congrArg ofLines (List.flatMap_congr fun fragment hmem => ?_)
  have hcode : ∀ line ∈ fragment.code.map Instruction.text, (!isRemark line) = true := by
    rw [List.forall_mem_map]
    intro instruction hinstruction
    rw [Instruction.isRemark_text ((h fragment hmem).code.instruction hinstruction)]
    rfl
  rw [(h fragment hmem).lines_eq, (h fragment hmem).lines_eq, List.filter_append,
    List.filter_append, List.filter_eq_self.2 hcode]
  simp [isRemark_append, isRemark_of_head]

/-- The remarks are the lines of the commands. -/
theorem filter_isRemark_textOf : (Text.lines (textOf true fragments)).filter isRemark
    = fragments.map fun fragment => "// " ++ fragment.command.text := by
  have hfragment : ∀ fragment ∈ fragments,
      (fragment.lines true).filter isRemark = ["// " ++ fragment.command.text] := by
    intro fragment hmem
    have hcode : (fragment.code.map Instruction.text).filter isRemark = [] := by
      rw [List.filter_eq_nil_iff, List.forall_mem_map]
      intro instruction hinstruction
      rw [Instruction.isRemark_text ((h fragment hmem).code.instruction hinstruction)]
      exact Bool.false_ne_true
    rw [(h fragment hmem).lines_eq, List.filter_append, List.filter_append, hcode]
    simp [isRemark_append, isRemark_of_head]
  rw [lines_textOf h, List.filter_flatMap, List.flatMap_congr hfragment, List.map_eq_flatMap]

theorem remarks_textOf :
    remarks (textOf true fragments) = fragments.map fun fragment => fragment.command.text := by
  rw [remarks, filter_isRemark_textOf h, List.map_map]
  refine List.map_congr_left fun fragment _ => ?_
  rw [← String.toList_inj]
  simp

end Printable

end Fragment

/-! ## The listing as a source -/

namespace Compilation

/-- Commands are compiled from their texts, one on each line. -/
theorem exists_yields_texts {commands : List Command}
    (h : ∀ command ∈ commands, command ≠ .comment
      ∧ ∃ line text, Command.parse line text = .ok command) (number : Nat) :
    ∃ fragments : List Fragment,
      yields number ((commands.map Command.text).map .ok) = fragments.map .ok
        ∧ fragments.map Fragment.command = commands := by
  induction commands generalizing number with
  | nil => exact ⟨[], rfl, rfl⟩
  | cons command rest ih =>
      rw [List.forall_mem_cons] at h
      obtain ⟨⟨hcommand, line, text, hparse⟩, hrest⟩ := h
      obtain ⟨code, -, hline, hempty⟩ :=
        exists_compileLine_of_read (Command.parse_text hparse number)
      obtain ⟨fragments, hyields, hcommands⟩ := ih hrest (number + 1)
      refine ⟨⟨number, command, code⟩ :: fragments, ?_, by rw [List.map_cons, hcommands]⟩
      rw [List.map_cons, List.map_cons,
        yields_line_of_not_isEmpty hline (mt hempty.1 hcommand), hyields, List.map_cons]

end Compilation

namespace Source

variable {source : String} {fragments : List Fragment}

theorem exists_parse_of_compile (h : compile source = .ok fragments) {fragment : Fragment}
    (hmem : fragment ∈ fragments) : fragment.command ≠ .comment
      ∧ ∃ text, Command.parse fragment.line text = .ok fragment.command := by
  obtain ⟨-, rfl⟩ := compile_eq_ok_iff.1 h
  exact (exists_parse_of_mem_accepted hmem).2

theorem isPrintable_of_compile (h : compile source = .ok fragments) :
    ∀ fragment ∈ fragments, fragment.IsPrintable := by
  intro fragment hmem
  obtain ⟨hcommand, text, hparse⟩ := exists_parse_of_compile h hmem
  exact ⟨(isCompiled_of_compile h).isLegible hmem, Command.isNeat_text hparse hcommand⟩

/-- Commands are the commands of a source, their texts on one line each. -/
theorem exists_compile_texts {commands : List Command}
    (h : ∀ command ∈ commands, command ≠ .comment
      ∧ ∃ line text, Command.parse line text = .ok command) :
    ∃ fragments, compile ("\n".intercalate (commands.map Command.text)) = .ok fragments
      ∧ fragments.map Fragment.command = commands := by
  have hneat : ∀ text ∈ commands.map Command.text, IsNeat text.toList := by
    rw [List.forall_mem_map]
    intro command hmem
    obtain ⟨hcommand, line, text, hparse⟩ := h command hmem
    exact Command.isNeat_text hparse hcommand
  obtain ⟨fragments, hyields, hcommands⟩ := Compilation.exists_yields_texts h 1
  refine ⟨fragments, compile_eq_ok_iff_yields.2 ?_, hcommands⟩
  rw [lines, lines_intercalate hneat, hyields]

/-- The remarks of an annotated text compile to the commands that they name. -/
theorem exists_compile_listing (h : compile source = .ok fragments) :
    ∃ others, compile (listing (Fragment.textOf true fragments)) = .ok others
      ∧ others.map Fragment.command = fragments.map Fragment.command := by
  have hcommands : ∀ command ∈ fragments.map Fragment.command, command ≠ .comment
      ∧ ∃ line text, Command.parse line text = .ok command := by
    rw [List.forall_mem_map]
    intro fragment hmem
    obtain ⟨hcommand, text, hparse⟩ := exists_parse_of_compile h hmem
    exact ⟨hcommand, fragment.line, text, hparse⟩
  have hlisting : listing (Fragment.textOf true fragments)
      = "\n".intercalate ((fragments.map Fragment.command).map Command.text) := by
    rw [listing, Fragment.remarks_textOf (isPrintable_of_compile h), List.map_map]
    rfl
  rw [hlisting]
  exact exists_compile_texts hcommands

/-- A listing depends on the commands alone. -/
theorem listing_eq_of_commands {others : List Fragment}
    (h : ∀ fragment ∈ fragments, fragment.IsPrintable)
    (hothers : ∀ fragment ∈ others, fragment.IsPrintable)
    (hcommands : others.map Fragment.command = fragments.map Fragment.command) :
    listing (Fragment.textOf true others) = listing (Fragment.textOf true fragments) := by
  have htexts := congrArg (List.map Command.text) hcommands
  rw [List.map_map, List.map_map] at htexts
  rw [listing, Fragment.remarks_textOf hothers, listing, Fragment.remarks_textOf h]
  exact congrArg _ htexts

/-- **What annotations say.** Annotations change nothing of whether a source compiles, nor of its
error. Annotated text is made of lines; the remarks among them are the texts of the commands, in
order, each after `//` and a space, and without them the text is the one without annotations. Taken
as a source, what the remarks say compiles to the same commands, is its own listing, and runs like
the source from every memory. -/
theorem annotations_list_commands (source : String) :
    (∀ error, assemble true source = .error error ↔ assemble false source = .error error)
      ∧ ∀ annotated, assemble true source = .ok annotated →
        annotated = ofLines (Text.lines annotated)
          ∧ assemble false source = .ok (withoutRemarks annotated)
          ∧ ∃ fragments others again, compile source = .ok fragments
            ∧ (Text.lines annotated).filter isRemark
              = fragments.map (fun fragment => "// " ++ fragment.command.text)
            ∧ listing annotated
              = "\n".intercalate (fragments.map fun fragment => fragment.command.text)
            ∧ compile (listing annotated) = .ok others
            ∧ others.map Fragment.command = fragments.map Fragment.command
            ∧ assemble true (listing annotated) = .ok again
            ∧ listing again = listing annotated
            ∧ ∀ cells, Machine.runSource (listing annotated) cells
                = Machine.runSource source cells := by
  refine ⟨fun error => by rw [assemble_eq_error_iff, assemble_eq_error_iff],
    fun annotated hannotated => ?_⟩
  obtain ⟨fragments, hcompile, rfl⟩ := assemble_eq_ok_iff.1 hannotated
  obtain ⟨others, hothers, hcommands⟩ := exists_compile_listing hcompile
  have hprintable := isPrintable_of_compile hcompile
  refine ⟨?_, ?_, fragments, others, Fragment.textOf true others, hcompile,
    Fragment.filter_isRemark_textOf hprintable, ?_, hothers, hcommands,
    assemble_eq_ok_iff.2 ⟨others, hothers, rfl⟩,
    listing_eq_of_commands hprintable (isPrintable_of_compile hothers) hcommands,
    fun cells => runSource_eq_of_commands hcompile hothers hcommands.symm cells⟩
  · rw [Fragment.lines_textOf hprintable, Fragment.textOf_eq_ofLines]
  · rw [Fragment.withoutRemarks_textOf hprintable]
    exact assemble_eq_ok_iff.2 ⟨fragments, hcompile, rfl⟩
  · rw [listing, Fragment.remarks_textOf hprintable]

/-- Comments, a blank line and other spellings are not in the listing, so the comparison is on
another line of it. -/
theorem annotations_list_commands_spellings :
    ∃ annotated, assemble true "// x\n push  constant 007 // y\n\neq" = .ok annotated
      ∧ assemble false "// x\n push  constant 007 // y\n\neq" = .ok (withoutRemarks annotated)
      ∧ listing annotated = "push constant 7\neq"
      ∧ ∀ cells, Machine.runSource "push constant 7\neq" cells
        = Machine.runSource "// x\n push  constant 007 // y\n\neq" cells := by
  have hcompile : compile "// x\n push  constant 007 // y\n\neq" = .ok
      [⟨2, .push (.cell .constant 7), [.loadConstant 7, .store .toD (.input .a)] ++ Code.pushD⟩,
        ⟨4, .arithmetic (.comparison .eq), Code.comparison .eq 4⟩] := by
    rw [compile_eq_yields]
    rfl
  obtain ⟨-, hannotated⟩ := annotations_list_commands "// x\n push  constant 007 // y\n\neq"
  have hassemble : assemble true "// x\n push  constant 007 // y\n\neq" = .ok _ :=
    assemble_eq_ok_iff.2 ⟨_, hcompile, rfl⟩
  obtain ⟨-, hplain, fragments, -, -, hfragments, -, hlisting, -, -, -, -, hrun⟩ :=
    hannotated _ hassemble
  cases hcompile.symm.trans hfragments
  have htext : "\n".intercalate
      [(Command.push (.cell .constant 7)).text, (Command.arithmetic (.comparison .eq)).text]
        = "push constant 7\neq" := rfl
  have hlisting' := hlisting.trans htext
  rw [hlisting'] at hrun
  exact ⟨_, hassemble, hplain, hlisting', hrun⟩

end Source

end HackStack
