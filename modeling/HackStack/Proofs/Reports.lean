import Mathlib.Algebra.GroupWithZero.Nat
import HackStack.CommandLine.Log
import HackStack.Proofs.Annotations

set_option autoImplicit false

/-! # What is reported of a compilation

A compilation reports each fragment that it yields and the malformed line that it ends at, and
nothing else. One request adds the report of its item to those before it (`diagnostics_next`), so
the reports of a whole run are those of its items (`diagnostics_drain`). Together with the counts of
the summary and the lines of the text they give one account of a source
(`Source.reports_match_output`).
-/

namespace HackStack

/-! ## Reports -/

/-- The report of a fragment. -/
def Fragment.report (fragment : Fragment) : Diagnostic :=
  .compiled fragment.line fragment.command fragment.code.length

/-- The entry in the log for a fragment. -/
def Fragment.logEntry (fragment : Fragment) : CommandLine.LogEntry :=
  ⟨.debug, "vm_translator::driver", "translated",
    [("line", toString fragment.line), ("command", fragment.command.text),
      ("instructions", toString fragment.code.length)]⟩

/-- The report of an item. That a source has failed is not reported. -/
def Item.report? : Item → Option Diagnostic
  | .ok fragment => some fragment.report
  | .error error => error.line?.map fun line => .aborted line error

namespace Diagnostic

/-- The line that is reported on. -/
def line : Diagnostic → Nat
  | .compiled line _ _ => line
  | .aborted line _ => line

/-- The number of instructions that are reported. -/
def instructions : Diagnostic → Nat
  | .compiled _ _ instructions => instructions
  | .aborted _ _ => 0

end Diagnostic

namespace Compilation

theorem line?_of_compileLine {number : Nat} {text : String} {error : CompileError}
    (h : compileLine number text = .error error) : error.line? = some number := by
  unfold compileLine at h
  split at h
  · rw [(Command.compile_eq_error_iff.1 h).1]
    rfl
  · rename_i other hparse
    rw [← Except.error.inj h, Command.eq_malformed_of_parse hparse]
    rfl

/-- The report of what a line yields is on that line. -/
theorem report?_compileLine (number : Nat) (text : String) :
    Item.report? (compileLine number text) =
      match compileLine number text with
      | .ok fragment => some (.compiled number fragment.command fragment.code.length)
      | .error error => some (.aborted number error) := by
  cases hline : compileLine number text with
  | ok fragment =>
      show some fragment.report = _
      rw [Fragment.report, (compileLine_eq_ok hline).1]
  | error error =>
      show error.line?.map _ = _
      rw [line?_of_compileLine hline, Option.map_some]

/-! ## The reports of a run -/

theorem diagnostics_takeLine (c : Compilation) (text : String) :
    (c.takeLine text).2.diagnostics.toList
      = c.diagnostics.toList ++ ((c.takeLine text).1.bind Item.report?).toList := by
  have hreport := report?_compileLine (c.line + 1) text
  rw [takeLine_eq]
  cases hline : compileLine (c.line + 1) text with
  | error error =>
      rw [hline] at hreport
      simp [hreport]
  | ok fragment =>
      rw [hline] at hreport
      by_cases hempty : fragment.isEmpty = true
      · simp [hempty]
      · simp [hempty, hreport]

/-- **One request** adds the report of its item. -/
theorem diagnostics_next (c : Compilation) (source : List LineEvent) :
    (c.next source).state.diagnostics.toList
      = c.diagnostics.toList ++ ((c.next source).item.bind Item.report?).toList := by
  have hadvance : ∀ c : Compilation, (c.advance source).state.diagnostics.toList
      = c.diagnostics.toList ++ ((c.advance source).item.bind Item.report?).toList := by
    induction source with
    | nil => intro c; simp [advance]
    | cons event rest ih =>
        intro c
        cases event with
        | exhausted => simp [advance]
        | failure error => simp [advance, Item.report?, CompileError.line?]
        | line text =>
            have htake := diagnostics_takeLine c text
            rw [advance]
            split
            · rename_i c' heq
              rw [heq] at htake
              rw [ih c', htake]
              simp
            · rename_i item c' heq
              rw [heq] at htake
              exact htake
  unfold next
  split
  · simp
  · exact hadvance c

/-- **A whole run** reports its items, one after the other. -/
theorem diagnostics_drain (c : Compilation) (source : List LineEvent) :
    (c.drain source).2.diagnostics.toList
      = c.diagnostics.toList ++ (c.drain source).1.filterMap Item.report? := by
  -- what is left of the source after an item is shorter
  induction hlength : source.length using Nat.strongRecOn generalizing c source with
  | _ length ih =>
      have hstep := diagnostics_next c source
      match hnext : c.next source with
      | ⟨none, last, rest⟩ =>
          rw [hnext] at hstep
          rw [drain_of_next_none hnext]
          simpa using hstep
      | ⟨some item, c', rest⟩ =>
          rw [hnext] at hstep
          have hshorter : rest.length < length := hlength ▸ length_rest_of_next hnext
          rw [drain_of_next_some hnext]
          show (c'.drain rest).2.diagnostics.toList = _
          rw [ih rest.length hshorter c' rest rfl, hstep, List.append_assoc, List.filterMap_cons]
          congr 1
          cases hreport : Item.report? item <;> simp [hreport]

/-- Reports are on ascending lines. -/
theorem pairwise_reports (number : Nat) (lines : List Line) :
    (∀ report ∈ (yields number lines).filterMap Item.report?, number ≤ report.line)
      ∧ ((yields number lines).filterMap Item.report?).Pairwise
        fun report later => report.line < later.line := by
  induction lines generalizing number with
  | nil => simp [yields]
  | cons line rest ih =>
      obtain ⟨hle, hascend⟩ := ih (number + 1)
      cases line with
      | error error =>
          -- that the source has failed is the last item, and it is not reported
          have hnone : (yields number (Except.error error :: rest)).filterMap Item.report? = [] :=
            rfl
          simp [hnone]
      | ok text =>
          have hreport := report?_compileLine number text
          cases hline : compileLine number text with
          | error error =>
              rw [hline] at hreport
              rw [yields_line_of_error hline]
              simp [hreport, Diagnostic.line]
          | ok fragment =>
              rw [hline] at hreport
              by_cases hempty : fragment.isEmpty = true
              · rw [yields_line_of_isEmpty hline hempty]
                exact ⟨fun report hmem => Nat.le_of_succ_le (hle report hmem), hascend⟩
              · rw [yields_line_of_not_isEmpty hline hempty, List.filterMap_cons_some hreport,
                  List.forall_mem_cons, List.pairwise_cons]
                exact ⟨⟨Nat.le_refl number, fun report hmem => Nat.le_of_succ_le (hle report hmem)⟩,
                  hle, hascend⟩

end Compilation

/-! ## The lines of a text, counted -/

namespace Text

theorem count_lineFeed_ofLines {texts : List String} (h : ∀ line ∈ texts, '\n' ∉ line.toList) :
    (ofLines texts).toList.count '\n' = texts.length := by
  induction texts with
  | nil => rfl
  | cons line rest ih =>
      rw [List.forall_mem_cons] at h
      rw [ofLines_cons, String.toList_append, String.toList_append, List.count_append,
        List.count_append, List.count_eq_zero_of_not_mem h.1, ih h.2, List.length_cons]
      show 0 + 1 + rest.length = rest.length + 1
      omega

end Text

namespace Fragment

variable {fragments : List Fragment} (h : ∀ fragment ∈ fragments, fragment.IsPrintable)

include h

/-- There is a line for each instruction, one for the end of each fragment and, with annotations,
one for each command. -/
theorem length_lines (annotate : Bool) : (fragments.flatMap (Fragment.lines annotate)).length
    = (fragments.flatMap Fragment.code).length
      + (if annotate then 2 else 1) * fragments.length := by
  induction fragments with
  | nil => rfl
  | cons fragment rest ih =>
      rw [List.forall_mem_cons] at h
      rw [List.flatMap_cons, List.flatMap_cons, List.length_append, List.length_append, ih h.2,
        h.1.lines_eq, List.length_append, List.length_append, List.length_map, List.length_cons]
      cases annotate with
      | true =>
          show 1 + fragment.code.length + 1 + (_ + 2 * rest.length) = _ + 2 * (rest.length + 1)
          omega
      | false =>
          show 0 + fragment.code.length + 1 + (_ + 1 * rest.length) = _ + 1 * (rest.length + 1)
          omega

/-- The blank lines are those at the ends of fragments. -/
theorem count_blank_lines (annotate : Bool) :
    (fragments.flatMap (Fragment.lines annotate)).count "" = fragments.length := by
  induction fragments with
  | nil => rfl
  | cons fragment rest ih =>
      rw [List.forall_mem_cons] at h
      have hcode : (fragment.code.map Instruction.text).count "" = 0 := by
        rw [List.count_eq_zero]
        intro hmem
        obtain ⟨instruction, hinstruction, htext⟩ := List.mem_map.1 hmem
        exact Disassembly.text_ne_empty (h.1.code.instruction hinstruction) htext
      have hremark : (if annotate then ["// " ++ fragment.command.text] else []).count "" = 0 := by
        rw [List.count_eq_zero]
        cases annotate <;> simp
      rw [List.flatMap_cons, List.count_append, ih h.2, h.1.lines_eq, List.count_append,
        List.count_append, hcode, hremark, List.length_cons]
      show 0 + 0 + 1 + rest.length = rest.length + 1
      omega

end Fragment

/-! ## The main result -/

namespace Source

open CommandLine

/-- The stream of a text reports the items of the text. -/
theorem diagnostics_stream (annotate : Bool) (source : String) :
    (stream annotate source).diagnostics.toList = (fragments source).filterMap Item.report? := by
  obtain ⟨last, hdrain, -⟩ := Stream.exists_drain { data := source.toUTF8 }
  have hreports := Compilation.diagnostics_drain .start
    (ByteSource.events { data := source.toUTF8 })
  rw [stream, Stream.compile, Stream.pump_of_write_ok hdrain (write_output annotate source)]
  rw [hdrain, lines_toUTF8] at hreports
  rw [fragments_eq]
  exact hreports.trans (List.nil_append _)

theorem sum_instructions_report (fragments : List Fragment) :
    ((fragments.map Fragment.report).map Diagnostic.instructions).sum
      = (fragments.flatMap Fragment.code).length := by
  rw [List.length_flatMap, List.map_map]
  rfl

theorem map_ofDiagnostic_report (fragments : List Fragment) :
    (fragments.map Fragment.report).map LogEntry.ofDiagnostic
      = fragments.map Fragment.logEntry := by
  rw [List.map_map]
  rfl

theorem line?_of_failure? {source : String} {error : CompileError}
    (h : failure? source = some error) : ∃ line, error.line? = some line := by
  obtain ⟨before, text, after, -, -, -, rfl⟩ := failure?_eq_some_iff.1 h
  exact ⟨before.length + 1, rfl⟩

/-- The reports of a source with an error. -/
theorem diagnostics_of_failure? {source : String} {error : CompileError} {line : Nat}
    (h : failure? source = some error) (hline : error.line? = some line) (annotate : Bool) :
    (stream annotate source).diagnostics.toList
      = (accepted source).map Fragment.report ++ [.aborted line error] := by
  have herror : Item.report? (.error error) = some (.aborted line error) := by
    rw [Item.report?, hline, Option.map_some]
  have hcompiled : ((accepted source).map .ok).filterMap Item.report?
      = (accepted source).map Fragment.report := by
    rw [List.filterMap_map]
    exact congrFun List.filterMap_eq_map _
  rw [diagnostics_stream, fragments_eq, h, List.filterMap_append, hcompiled, Option.toList_some,
    List.map_singleton, List.filterMap_cons_some herror, List.filterMap_nil]

/-- The reports of a source without errors. -/
theorem diagnostics_of_compile {source : String} {fragments : List Fragment}
    (h : compile source = .ok fragments) (annotate : Bool) :
    (stream annotate source).diagnostics.toList = fragments.map Fragment.report := by
  rw [diagnostics_stream, mapM_id_eq_ok h, List.filterMap_map]
  exact congrFun List.filterMap_eq_map _

/-- **Reports, items, counts and text agree.** Reports are on ascending lines. When a source is
refused, there is one for each fragment before the error and one for the error; when it is accepted,
there is one for each fragment and nothing else, the summary counts the reports and the instructions
in them, and the text has a line for each instruction, a blank line for each report and, with
annotations, one more line for each report. -/
theorem reports_match_output (annotate : Bool) (source : String) :
    ((stream annotate source).diagnostics.toList.Pairwise
        fun report later => report.line < later.line)
      ∧ (∀ error, assemble annotate source = .error error →
          ∃ (compiled : List Fragment) (line : Nat),
            fragments source = compiled.map .ok ++ [.error error]
              ∧ error.line? = some line
              ∧ (stream annotate source).diagnostics.toList
                = compiled.map Fragment.report ++ [.aborted line error]
              ∧ (stream annotate source).diagnostics.toList.map LogEntry.ofDiagnostic
                = compiled.map Fragment.logEntry
                  ++ [⟨.warn, "vm_translator::driver", "translation aborted: " ++ error.message,
                    [("line", toString line)]⟩])
      ∧ ∀ text, assemble annotate source = .ok text →
          ∃ (compiled : List Fragment) (summary : Summary),
            fragments source = compiled.map .ok
              ∧ (stream annotate source).outcome = .ok summary
              ∧ (stream annotate source).diagnostics.toList = compiled.map Fragment.report
              ∧ (stream annotate source).diagnostics.toList.map LogEntry.ofDiagnostic
                = compiled.map Fragment.logEntry
              ∧ (stream annotate source).diagnostics.toList.length = summary.commands
              ∧ ((stream annotate source).diagnostics.toList.map Diagnostic.instructions).sum
                = summary.instructions
              ∧ text.toList.count '\n'
                = summary.instructions + (if annotate then 2 else 1) * summary.commands
              ∧ (Text.lines text).count "" = summary.commands := by
  refine ⟨?_, fun error herror => ?_, fun text htext => ?_⟩
  · rw [diagnostics_stream, fragments_eq_yields]
    exact (Compilation.pairwise_reports 1 (lines source)).2
  · have hfailure : failure? source = some error :=
      compile_eq_error_iff.1 (assemble_eq_error_iff.1 herror)
    obtain ⟨line, hline⟩ := line?_of_failure? hfailure
    have hreports := diagnostics_of_failure? hfailure hline annotate
    refine ⟨accepted source, line, ?_, hline, hreports, ?_⟩
    · rw [fragments_eq, hfailure, Option.toList_some, List.map_singleton]
    · rw [hreports, List.map_append, map_ofDiagnostic_report]
      rfl
  · obtain ⟨compiled, hcompile, rfl⟩ := assemble_eq_ok_iff.1 htext
    have hreports := diagnostics_of_compile hcompile annotate
    have hprintable := isPrintable_of_compile hcompile
    refine ⟨compiled, ⟨(lines source).length, compiled.length,
      (compiled.flatMap Fragment.code).length⟩, mapM_id_eq_ok hcompile,
      outcome_of_compile hcompile annotate, hreports, ?_, ?_, ?_, ?_, ?_⟩
    · rw [hreports, map_ofDiagnostic_report]
    · rw [hreports, List.length_map]
    · rw [hreports, sum_instructions_report]
    · have hlines : ∀ line ∈ compiled.flatMap (Fragment.lines annotate), '\n' ∉ line.toList := by
        intro line hline
        obtain ⟨fragment, hmem, hline⟩ := List.mem_flatMap.1 hline
        exact ((hprintable fragment hmem).not_mem_line hline).1
      rw [Fragment.textOf_eq_ofLines, Text.count_lineFeed_ofLines hlines,
        Fragment.length_lines hprintable]
    · rw [Fragment.lines_textOf hprintable, Fragment.count_blank_lines hprintable]

/-- The report of a malformed line is the last one. Without that line, there are lines for the
command, for its three instructions, and for its end. -/
theorem reports_match_output_neg :
    (stream true "// x\nneg // y\nfoo\nadd").diagnostics.toList.map LogEntry.ofDiagnostic
        = [⟨.debug, "vm_translator::driver", "translated",
            [("line", "2"), ("command", "neg"), ("instructions", "3")]⟩,
          ⟨.warn, "vm_translator::driver", "translation aborted: syntax error at line 3: \"foo\"",
            [("line", "3")]⟩]
      ∧ ∃ text, assemble true "// x\nneg // y" = .ok text
        ∧ text.toList.count '\n' = 5 ∧ (Text.lines text).count "" = 1 := by
  constructor
  · obtain ⟨-, hrefused, -⟩ := reports_match_output true "// x\nneg // y\nfoo\nadd"
    have hfragments : fragments "// x\nneg // y\nfoo\nadd"
        = [⟨2, .arithmetic (.unary .neg), Code.unary .neg⟩].map .ok
          ++ [.error (.malformed 3 "foo")] := by
      rw [fragments_eq_yields]
      rfl
    have herror : assemble true "// x\nneg // y\nfoo\nadd" = .error (.malformed 3 "foo") := by
      rw [assemble_eq_error_iff, compile, hfragments]
      rfl
    obtain ⟨compiled, line, hitems, hline, -, hentries⟩ := hrefused _ herror
    have hcompiled := List.append_cancel_right (hfragments.symm.trans hitems)
    obtain rfl := List.map_injective_iff.2 (fun _ _ => Except.ok.inj) hcompiled
    obtain rfl : 3 = line := Option.some.inj hline
    exact hentries
  · have hcompile : compile "// x\nneg // y"
        = .ok [⟨2, .arithmetic (.unary .neg), Code.unary .neg⟩] := by
      rw [compile_eq_yields]
      rfl
    have hassemble : assemble true "// x\nneg // y" = .ok _ :=
      assemble_eq_ok_iff.2 ⟨_, hcompile, rfl⟩
    obtain ⟨-, -, haccepted⟩ := reports_match_output true "// x\nneg // y"
    obtain ⟨compiled, summary, -, houtcome, -, -, -, -, hnewlines, hblank⟩ :=
      haccepted _ hassemble
    obtain rfl := Except.ok.inj ((outcome_of_compile hcompile true).symm.trans houtcome)
    exact ⟨_, hassemble, hnewlines, hblank⟩

end Source

end HackStack
