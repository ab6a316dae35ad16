import HackStack.Proofs.Delivery

set_option autoImplicit false

/-! # One reading behind all ways to compile

A source text can be compiled fragment by fragment, from bytes to bytes, or to an assembly text. All
three come down to the same reading of its lines, one by one (`entry_points_agree`), so the only
error that a text can have is that of its first malformed line. Errors of other kinds are left to
commands that no line yields (`supported_and_encodable`).
-/

namespace HackStack

/-! ## The lines of a text -/

namespace Command

/-- Whether a line has a command on it, and which, does not depend on its number. -/
theorem parse_eq_ok_congr {line number : Nat} {text : String} {command : Command} :
    parse line text = .ok command ↔ parse number text = .ok command := by
  rw [parse_eq_ok_iff, parse_eq_ok_iff]

/-- The error of a line has the number of the line, and the line without blank ends. -/
theorem eq_malformed_of_parse {line : Nat} {text : String} {error : CompileError}
    (h : parse line text = .error error) :
    error = .malformed line (String.ofList (Text.trim text.toList)) := by
  unfold parse at h
  split at h
  · cases h
  · split at h
    · cases h
    · exact (Except.error.inj h).symm

end Command

namespace Source

/-- The commands on the lines before the first malformed one, with the numbers of their lines. -/
def commands (source : String) : List (Command × Nat) := Line.commandsFrom 1 (lines source)

/-- The code of these commands. -/
def accepted (source : String) : List Fragment := Line.fragmentsFrom 1 (lines source)

/-- The error of the first malformed line. -/
def failure? (source : String) : Option CompileError := Line.firstError? 1 (lines source)

theorem failure?_eq_some_iff {source : String} {error : CompileError} :
    failure? source = some error ↔
      ∃ before text after, Text.lines source = before ++ text :: after
        ∧ (∀ entry ∈ before.zipIdx 1, ∃ command, Command.parse entry.2 entry.1 = .ok command)
        ∧ (∀ command, Command.parse (before.length + 1) text ≠ .ok command)
        ∧ error = .malformed (before.length + 1) (String.ofList (Text.trim text.toList)) := by
  have hread : ∀ before : List String,
      (∀ entry ∈ (before.map .ok : List Line).zipIdx 1, ∃ command, Line.read entry = .ok command)
        ↔ ∀ entry ∈ before.zipIdx 1, ∃ command, Command.parse entry.2 entry.1 = .ok command := by
    intro before
    rw [List.zipIdx_map, List.forall_mem_map]
    rfl
  rw [failure?, Line.firstError?_eq_some_iff]
  constructor
  · rintro ⟨before, line, after, hsplit, hbefore, hline⟩
    obtain ⟨before, tail, htext, rfl, htail⟩ := List.map_eq_append_iff.1 hsplit
    obtain ⟨text, after, rfl, rfl, rfl⟩ := List.map_eq_cons_iff.1 htail
    rw [List.length_map, Nat.add_comm] at hline
    have hparse : Command.parse (before.length + 1) text = .error error := hline
    refine ⟨before, text, after, htext, (hread before).1 hbefore, fun command hcommand => ?_,
      Command.eq_malformed_of_parse hparse⟩
    rw [hparse] at hcommand
    cases hcommand
  · rintro ⟨before, text, after, hsplit, hbefore, hnone, rfl⟩
    refine ⟨before.map .ok, .ok text, after.map .ok, ?_, (hread before).2 hbefore, ?_⟩
    · rw [lines, hsplit, List.map_append, List.map_cons]
    · rw [List.length_map, Nat.add_comm]
      show Command.parse (before.length + 1) text = _
      cases hparse : Command.parse (before.length + 1) text with
      | ok command => exact absurd hparse (hnone command)
      | error error => rw [Command.eq_malformed_of_parse hparse]

/-! ## The three ways -/

theorem mapM_id_append {ε α : Type} (values : List α) (failure : Option ε) :
    (values.map .ok ++ failure.toList.map .error : List (Except ε α)).mapM id =
      match failure with
      | some error => .error error
      | none => .ok values := by
  induction values with
  | nil => cases failure <;> rfl
  | cons value rest ih =>
      rw [List.map_cons, List.cons_append, List.mapM_cons, ih]
      cases failure <;> rfl

theorem fragments_eq (source : String) :
    fragments source = (accepted source).map .ok ++ (failure? source).toList.map .error := by
  rw [fragments, run, events_eq_map_event]
  exact Compilation.fst_drain_eq .start rfl (lines source)

theorem request_eq (source : String) (n : Nat) :
    Compilation.request n .start (events source) = (fragments source)[n]? := by
  rw [events_eq_map_event, Compilation.request_eq, fragments, run, events_eq_map_event]

theorem output_eq (annotate : Bool) (source : String) :
    Stream.output annotate { data := source.toUTF8 }
      = (Fragment.textOf annotate (accepted source)).toUTF8 := by
  rw [Stream.output, lines_toUTF8, accepted]

/-- A destination without a capacity takes everything. -/
theorem write_output (annotate : Bool) (source : String) :
    Sink.write {} (Stream.output annotate { data := source.toUTF8 })
      = (.ok (), { written := .empty ++ Stream.output annotate { data := source.toUTF8 } }) :=
  Sink.write_unbounded

/-- The stream of a text into memory: nothing but a malformed line can end it early. -/
theorem stream_eq (annotate : Bool) (source : String) :
    (stream annotate source).sink.written = (Fragment.textOf annotate (accepted source)).toUTF8
      ∧ (stream annotate source).outcome =
        match failure? source with
        | some error => .error error
        | none => .ok (Stream.summaryOf (lines source)) := by
  obtain ⟨houtcome, hsink⟩ := Stream.compile_of_write_ok (write_output annotate source)
  rw [lines_toUTF8] at houtcome
  rw [stream, houtcome, hsink, ← output_eq]
  refine ⟨ByteArray.empty_append, ?_⟩
  rw [failure?]
  cases Line.firstError? 1 (lines source) with
  | some error => rfl
  | none => rfl

theorem assemble_eq (annotate : Bool) (source : String) :
    assemble annotate source =
      match failure? source with
      | some error => .error error
      | none => .ok (Fragment.textOf annotate (accepted source)) := by
  obtain ⟨hwritten, houtcome⟩ := stream_eq annotate source
  simp only [assemble, hwritten, houtcome, Text.fromUTF8?_toUTF8, Option.getD_some]
  cases failure? source with
  | some error => rfl
  | none => rfl

/-- What a text compiles to, or its error. -/
theorem compile_eq (source : String) :
    compile source =
      match failure? source with
      | some error => .error error
      | none => .ok (accepted source) := by
  rw [compile, fragments_eq, mapM_id_append]
  cases failure? source <;> rfl

/-- A source compiles exactly if its lines yield fragments only. -/
theorem compile_eq_ok_iff_yields {source : String} {fragments : List Fragment} :
    compile source = .ok fragments
      ↔ Compilation.yields 1 (lines source) = fragments.map .ok := by
  constructor
  · intro h
    rw [← fragments_eq_yields]
    exact mapM_id_eq_ok h
  · intro h
    have hok := mapM_id_append fragments (none : Option CompileError)
    rw [Option.toList_none, List.map_nil, List.append_nil] at hok
    rw [compile_eq_yields, h, hok]

theorem compile_eq_ok_iff {source : String} {fragments : List Fragment} :
    compile source = .ok fragments ↔ failure? source = none ∧ accepted source = fragments := by
  rw [compile_eq]
  cases failure? source with
  | some error => simp
  | none => simp

theorem compile_eq_error_iff {source : String} {error : CompileError} :
    compile source = .error error ↔ failure? source = some error := by
  rw [compile_eq]
  cases failure? source with
  | some found => simp
  | none => simp

/-- The summary of a source without errors. -/
theorem outcome_of_compile {source : String} {fragments : List Fragment}
    (h : compile source = .ok fragments) (annotate : Bool) :
    (stream annotate source).outcome = .ok
      { lines := (lines source).length
        commands := fragments.length
        instructions := (fragments.flatMap Fragment.code).length } := by
  obtain ⟨hfailure, rfl⟩ := compile_eq_ok_iff.1 h
  rw [(stream_eq annotate source).2, hfailure, Stream.summaryOf, accepted]

/-- The text of a source is that of its fragments. -/
theorem assemble_eq_ok_iff {annotate : Bool} {source text : String} :
    assemble annotate source = .ok text ↔
      ∃ fragments, compile source = .ok fragments ∧ text = Fragment.textOf annotate fragments := by
  rw [assemble_eq, compile_eq]
  cases failure? source with
  | some error => simp
  | none => simp [eq_comm]

theorem assemble_eq_error_iff {annotate : Bool} {source : String} {error : CompileError} :
    assemble annotate source = .error error ↔ compile source = .error error := by
  rw [assemble_eq, compile_eq]
  cases failure? source with
  | none => simp
  | some found => simp

/-- The fragments of a source are the code of commands that have been read. -/
theorem exists_parse_of_mem_accepted {source : String} {fragment : Fragment}
    (h : fragment ∈ accepted source) :
    fragment.command.compile fragment.line = .ok fragment ∧ fragment.command ≠ .comment
      ∧ ∃ text, Command.parse fragment.line text = .ok fragment.command := by
  have hitem : .ok fragment ∈ (accepted source).map (Except.ok : Fragment → Item) :=
    List.mem_map_of_mem h
  rw [accepted, ← Line.compile_commandsFrom] at hitem
  obtain ⟨entry, hentry, hfragment⟩ := List.mem_map.1 hitem
  obtain ⟨text, hparse, hcommand⟩ := Line.exists_parse_of_mem_commandsFrom hentry
  obtain ⟨hline, hsame, -⟩ := Command.compile_eq_ok_iff.1 hfragment
  rw [hline, hsame]
  exact ⟨hfragment, hcommand, text, hparse⟩

/-- What the text of a source consists of: for each command a comment with it, if that is asked for,
then a line for each instruction of its code, and an empty line. -/
theorem textOf_accepted (annotate : Bool) (source : String) :
    Fragment.textOf annotate (accepted source) = Text.ofLines ((accepted source).flatMap
      fun fragment => (if annotate then ["// " ++ fragment.command.text] else [])
        ++ fragment.code.map Instruction.text ++ [""]) := by
  rw [Fragment.textOf_eq_ofLines]
  refine congrArg Text.ofLines (List.flatMap_congr fun fragment hmem => ?_)
  obtain ⟨hcompile, hcommand, -⟩ := exists_parse_of_mem_accepted hmem
  obtain ⟨-, -, hcode⟩ := Command.compile_eq_ok_iff.1 hcompile
  exact Fragment.lines_of_code_ne_nil (Command.code_ne_nil hcode hcommand) annotate

/-- **All ways to compile a text are one reading of its lines.** The text that they give is that of
the fragments (`textOf_accepted`). -/
theorem entry_points_agree (annotate : Bool) (source : String) :
    (∃ ended rest, Text.IsCut '\n' '\r' source.toList ended rest
        ∧ Text.lines source = (ended ++ if rest = [] then [] else [rest]).map String.ofList)
      ∧ (commands source).map (fun entry => entry.1.compile entry.2) = (accepted source).map .ok
      ∧ (∀ error, failure? source = some error ↔
          ∃ before text after, Text.lines source = before ++ text :: after
            ∧ (∀ entry ∈ before.zipIdx 1, ∃ command, Command.parse entry.2 entry.1 = .ok command)
            ∧ (∀ command, Command.parse (before.length + 1) text ≠ .ok command)
            ∧ error = .malformed (before.length + 1) (String.ofList (Text.trim text.toList)))
      ∧ fragments source = (accepted source).map .ok ++ (failure? source).toList.map .error
      ∧ (∀ n, Compilation.request n .start (events source) = (fragments source)[n]?)
      ∧ assemble annotate source =
          (match failure? source with
          | some error => .error error
          | none => .ok (Fragment.textOf annotate (accepted source)))
      ∧ (stream annotate source).sink.written
          = (Fragment.textOf annotate (accepted source)).toUTF8
      ∧ (stream annotate source).outcome =
          (match failure? source with
          | some error => .error error
          | none => .ok
              { lines := (Text.lines source).length
                commands := (accepted source).length
                instructions := ((accepted source).flatMap Fragment.code).length })
      ∧ ∀ line number text command,
          Command.parse line text = .ok command ↔ Command.parse number text = .ok command := by
  obtain ⟨hwritten, houtcome⟩ := stream_eq annotate source
  obtain ⟨ended, rest, hcut⟩ := Text.exists_isCut '\n' '\r' source.toList
  refine ⟨⟨ended, rest, hcut, Text.lines_of_isCut hcut⟩, Line.compile_commandsFrom 1 (lines source),
    fun error => failure?_eq_some_iff, fragments_eq source, request_eq source,
    assemble_eq annotate source, hwritten, ?_,
    fun line number text command => Command.parse_eq_ok_congr⟩
  have hlength : (lines source).length = (Text.lines source).length := List.length_map _
  rw [houtcome, Stream.summaryOf, hlength, accepted]

/-! ## Errors of other kinds -/

theorem exists_malformed_of_assemble {annotate : Bool} {source : String} {error : CompileError}
    (h : assemble annotate source = .error error) :
    ∃ line text, error = .malformed line text := by
  rw [assemble_eq] at h
  cases hfailure : failure? source with
  | none =>
      rw [hfailure] at h
      cases h
  | some other =>
      rw [hfailure] at h
      obtain ⟨before, text, after, -, -, -, hother⟩ := failure?_eq_some_iff.1 hfailure
      exact ⟨_, _, (Except.error.inj h).symm.trans hother⟩

end Source

namespace Command

/-- **What is read is supported and can be encoded.** A line that is read has code, the numbers in
it have 15 bits and the names in it are symbols; so compiling a text can fail only at a malformed
line. Over all commands, those without code are the ones in `IsUnsupported`, those whose code loads
a larger number are the ones in `IsOversized`, and no line yields any of them. -/
theorem supported_and_encodable :
    (∀ line text command, parse line text = .ok command →
        ∃ fragment, command.compile line = .ok fragment
          ∧ (∀ value, .operation (.constant value) ∈ fragment.code → value.toNat ≤ 32767)
          ∧ ∀ name, .operation (.symbol name) ∈ fragment.code ∨ .label name ∈ fragment.code →
            Symbol.IsSymbol name.toList)
      ∧ (∀ annotate source error, Source.assemble annotate source = .error error →
          ∃ line text, error = .malformed line text)
      ∧ (∀ (line : Nat) (command : Command) error, command.compile line = .error error ↔
          error = .unsupported line command ∧ command.IsUnsupported)
      ∧ (∀ (line : Nat) (command : Command),
          (∃ fragment, command.compile line = .ok fragment
            ∧ ∃ value, .operation (.constant value) ∈ fragment.code ∧ 32767 < value.toNat)
          ↔ command.IsOversized)
      ∧ ∀ line text command, parse line text = .ok command →
          ¬ command.IsUnsupported ∧ ¬ command.IsOversized := by
  refine ⟨fun line text command h => ?_, fun annotate source error h => ?_,
    fun line command error => compile_eq_error_iff, fun line command => exists_compile_large_iff,
    fun line text command h => not_isUnsupported_of_parse h⟩
  · obtain ⟨code, hcode, hconstants, hnames⟩ := exists_compile_of_parse h
    exact ⟨⟨line, command, code⟩, compile_eq_ok_iff.2 ⟨rfl, rfl, hcode⟩, hconstants,
      fun name hname => hnames name (Code.mem_names_iff.2 hname)⟩
  · exact Source.exists_malformed_of_assemble h

/-- At the bounds: the last cell of `temp` that a line can name, the cell after it, and the first
index beyond those of lines for a segment with a base register. -/
theorem supported_and_encodable_bounds :
    parse 4 "pop temp 32762" = .ok (.pop (.cell .temp 32762))
      ∧ (∃ fragment, (Command.pop (.cell .temp 32762)).compile 4 = .ok fragment
        ∧ ∀ value, .operation (.constant value) ∈ fragment.code → value.toNat ≤ 32767)
      ∧ (Command.pop (.cell .temp 32763)).compile 4
        = .error (.unsupported 4 (.pop (.cell .temp 32763)))
      ∧ ∃ fragment, (Command.pop (.cell .locals 32768)).compile 4 = .ok fragment
        ∧ ∃ value, .operation (.constant value) ∈ fragment.code ∧ 32767 < value.toNat := by
  obtain ⟨hread, -, hunsupported, hoversized, -⟩ := supported_and_encodable
  have hparse : parse 4 "pop temp 32762" = .ok (.pop (.cell .temp 32762)) := rfl
  obtain ⟨fragment, hfragment, hconstants, -⟩ := hread _ _ _ hparse
  refine ⟨hparse, ⟨fragment, hfragment, hconstants⟩, (hunsupported 4 _ _).2 ⟨rfl, ?_⟩,
    (hoversized 4 _).2 ?_⟩
  · show 32767 < 5 + (32763 : Word).toNat
    decide
  · show 32767 < (32768 : Word).toNat
    decide

end Command

end HackStack
