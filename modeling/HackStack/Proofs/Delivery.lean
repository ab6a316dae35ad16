import HackStack.Proofs.LineByLine
import HackStack.Proofs.LineEndings

set_option autoImplicit false

/-! # What reaches the destination

A compiled stream writes line after line of fragment after fragment. For the destination this is
one writing of the whole text (`Sink.write_append`, `writeLines_eq`): it takes the text up to its
capacity. So what a stream leaves behind depends on the text of the fragments before the first line
that cannot be read, and on the error of that line, in this order (`delivers_until_failure`).
-/

namespace HackStack

/-! ## Texts one after the other -/

namespace Fragment

/-- The assembly text of fragments, one after the other. -/
def textOf (annotate : Bool) (fragments : List Fragment) : String :=
  String.join (fragments.map (Fragment.text annotate))

theorem textOf_cons (annotate : Bool) (fragment : Fragment) (rest : List Fragment) :
    textOf annotate (fragment :: rest) = fragment.text annotate ++ textOf annotate rest :=
  String.join_cons

theorem textOf_eq_ofLines (annotate : Bool) (fragments : List Fragment) :
    textOf annotate fragments = Text.ofLines (fragments.flatMap (Fragment.lines annotate)) := by
  induction fragments with
  | nil => rfl
  | cons fragment rest ih => rw [textOf_cons, ih, List.flatMap_cons, Text.ofLines_append, text]

/-- The lines of a fragment with code: its command if that is asked for, its instructions, and an
empty line. -/
theorem lines_of_code_ne_nil {fragment : Fragment} (h : fragment.code ≠ []) (annotate : Bool) :
    fragment.lines annotate = (if annotate then ["// " ++ fragment.command.text] else [])
      ++ fragment.code.map Instruction.text ++ [""] := by
  have hne : ¬ fragment.isEmpty = true := by
    rw [isEmpty, List.isEmpty_iff]
    exact h
  rw [Fragment.lines, if_neg hne]

end Fragment

/-! ## Writing bytes in parts -/

theorem extract_of_size_le {bytes : ByteArray} {n : Nat} (h : bytes.size ≤ n) :
    bytes.extract 0 n = bytes := by
  apply ByteArray.ext
  rw [ByteArray.data_extract]
  exact Array.extract_eq_self_of_le h

namespace Sink

section Write

variable {written bytes : ByteArray} {capacity : Nat} {flushFault : Option IoError}

theorem write_unbounded :
    write ⟨written, none, flushFault⟩ bytes = (.ok (), ⟨written ++ bytes, none, flushFault⟩) :=
  if_pos (Nat.le_refl _)

theorem write_of_le (h : bytes.size ≤ capacity - written.size) :
    write ⟨written, some capacity, flushFault⟩ bytes =
      (.ok (), ⟨written ++ bytes, some capacity, flushFault⟩) :=
  if_pos h

theorem write_of_lt (h : capacity - written.size < bytes.size) :
    write ⟨written, some capacity, flushFault⟩ bytes =
      (.error .full, ⟨written ++ bytes.extract 0 (capacity - written.size), some capacity,
        flushFault⟩) :=
  if_neg (Nat.not_le.2 h)

end Write

theorem write_empty (sink : Sink) : sink.write .empty = (.ok (), sink) := by
  obtain ⟨written, capacity, flushFault⟩ := sink
  cases capacity with
  | none => rw [write_unbounded, ByteArray.append_empty]
  | some capacity => rw [write_of_le (Nat.zero_le _), ByteArray.append_empty]

/-- Bytes in two parts are taken like the same bytes in one, whatever there is room for. -/
theorem write_append (sink : Sink) (bytes more : ByteArray) :
    sink.write (bytes ++ more) =
      match sink.write bytes with
      | (.ok (), sink') => sink'.write more
      | (.error error, sink') => (.error error, sink') := by
  obtain ⟨written, capacity, flushFault⟩ := sink
  have hsize : (bytes ++ more).size = bytes.size + more.size := ByteArray.size_append
  have hsize' : (written ++ bytes).size = written.size + bytes.size := ByteArray.size_append
  cases capacity with
  | none =>
      rw [write_unbounded, write_unbounded]
      simp only [write_unbounded, ByteArray.append_assoc]
  | some capacity =>
      by_cases hfirst : bytes.size ≤ capacity - written.size
      · rw [@write_of_le written bytes _ _ hfirst]
        by_cases hsecond : more.size ≤ capacity - (written ++ bytes).size
        · have hboth : (bytes ++ more).size ≤ capacity - written.size := by omega
          simp only [write_of_le hboth, write_of_le hsecond, ByteArray.append_assoc]
        · -- the second part is cut off where the whole is
          have hboth : capacity - written.size < (bytes ++ more).size := by omega
          have hroom :
              capacity - written.size - bytes.size = capacity - (written ++ bytes).size := by
            omega
          have hcut : (bytes ++ more).extract 0 (capacity - written.size)
              = bytes ++ more.extract 0 (capacity - (written ++ bytes).size) := by
            rw [ByteArray.extract_append, extract_of_size_le hfirst, Nat.zero_sub, hroom]
          simp only [write_of_lt hboth, write_of_lt (Nat.not_le.1 hsecond), hcut,
            ByteArray.append_assoc]
      · have hboth : capacity - written.size < (bytes ++ more).size := by omega
        have hroom : capacity - written.size - bytes.size = 0 := by omega
        have hcut : (bytes ++ more).extract 0 (capacity - written.size)
            = bytes.extract 0 (capacity - written.size) := by
          rw [ByteArray.extract_append, Nat.zero_sub, hroom, ByteArray.extract_same,
            ByteArray.append_empty]
        simp only [write_of_lt hboth, write_of_lt (Nat.not_le.1 hfirst), hcut]

/-- Writing line by line, and giving up at the first line without room, is writing all the lines
at once. -/
theorem writeLines_eq (sink : Sink) (lines : List String) :
    sink.writeLines lines = sink.write (Text.ofLines lines).toUTF8 := by
  induction lines generalizing sink with
  | nil =>
      have hempty : (Text.ofLines []).toUTF8 = .empty := rfl
      rw [writeLines, hempty, write_empty]
  | cons line rest ih =>
      have hbytes : (Text.ofLines (line :: rest)).toUTF8
          = (line ++ "\n").toUTF8 ++ (Text.ofLines rest).toUTF8 := by
        rw [Text.ofLines_cons]
        exact String.toByteArray_append
      rw [writeLines, hbytes, write_append]
      cases hline : sink.write (line ++ "\n").toUTF8 with
      | mk outcome sink' =>
          cases outcome with
          | error error => rfl
          | ok done => exact ih sink'

theorem flushFault_write (sink : Sink) (bytes : ByteArray) :
    (sink.write bytes).2.flushFault = sink.flushFault := by
  simp only [write]
  split
  · rfl
  · rfl

end Sink

/-! ## A stream that is compiled -/

namespace Compilation

theorem next_of_drain_nil {c last : Compilation} {source : List LineEvent}
    (h : c.drain source = ([], last)) : ∃ rest, c.next source = ⟨none, last, rest⟩ := by
  match hnext : c.next source with
  | ⟨none, last', rest⟩ =>
      rw [drain_of_next_none hnext] at h
      cases h
      exact ⟨rest, rfl⟩
  | ⟨some item, c', rest⟩ =>
      rw [drain_of_next_some hnext] at h
      cases h

theorem next_of_drain_cons {c last : Compilation} {source : List LineEvent} {item : Item}
    {items : List Item} (h : c.drain source = (item :: items, last)) :
    ∃ c' rest, c.next source = ⟨some item, c', rest⟩ ∧ c'.drain rest = (items, last) := by
  match hnext : c.next source with
  | ⟨none, last', rest⟩ =>
      rw [drain_of_next_none hnext] at h
      cases h
  | ⟨some item', c', rest⟩ =>
      rw [drain_of_next_some hnext] at h
      cases h
      exact ⟨c', rest, rfl, rfl⟩

theorem finished_of_takeLine_error {c c' : Compilation} {text : String} {error : CompileError}
    (h : c.takeLine text = (some (.error error), c')) : c'.finished = true := by
  rw [takeLine_eq] at h
  split at h
  · split at h
    · cases h
    · cases h
  · cases h
    rfl

theorem finished_of_advance_error {c c' : Compilation} {source rest : List LineEvent}
    {error : CompileError} (h : c.advance source = ⟨some (.error error), c', rest⟩) :
    c'.finished = true := by
  induction source generalizing c with
  | nil => cases h
  | cons event source ih =>
      cases event with
      | exhausted => cases h
      | failure failure =>
          cases h
          rfl
      | line text =>
          rw [advance] at h
          split at h
          · exact ih h
          · rename_i htake
            cases h
            exact finished_of_takeLine_error htake

/-- An error is yielded once: it finishes the compilation. -/
theorem finished_of_next_error {c c' : Compilation} {source rest : List LineEvent}
    {error : CompileError} (h : c.next source = ⟨some (.error error), c', rest⟩) :
    c'.finished = true := by
  unfold next at h
  split at h
  · cases h
  · exact finished_of_advance_error h

end Compilation

namespace Stream

open Compilation

variable {annotate : Bool} {c c' last : Compilation} {sink : Sink} {summary : Summary}
  {source rest : List LineEvent}

/-- How a stream ends once all its fragments are written. -/
def ending (failure : Option CompileError) (flushFault : Option IoError) (summary : Summary) :
    Except CompileError Summary :=
  match failure, flushFault with
  | some error, _ => .error error
  | none, some error => .error (.io error)
  | none, none => .ok summary

theorem pump_of_next_none (h : c.next source = ⟨none, last, rest⟩) :
    pump annotate c sink summary source =
      ⟨ending none sink.flushFault { summary with lines := last.line }, sink,
        last.diagnostics⟩ := by
  rw [pump]
  split
  · rename_i heq
    rw [h] at heq
    cases heq
    rw [Sink.flush]
    cases sink.flushFault <;> rfl
  · rename_i heq
    rw [h] at heq
    cases heq
  · rename_i heq
    rw [h] at heq
    cases heq

theorem pump_of_next_error {error : CompileError}
    (h : c.next source = ⟨some (.error error), last, rest⟩) :
    pump annotate c sink summary source = ⟨.error error, sink, last.diagnostics⟩ := by
  rw [pump]
  split
  · rename_i heq
    rw [h] at heq
    cases heq
  · rename_i heq
    rw [h] at heq
    cases heq
    rfl
  · rename_i heq
    rw [h] at heq
    cases heq

theorem pump_of_next_fragment {fragment : Fragment}
    (h : c.next source = ⟨some (.ok fragment), c', rest⟩) :
    pump annotate c sink summary source =
      match sink.write (fragment.text annotate).toUTF8 with
      | (.error error, sink') => ⟨.error (.io error), sink', c'.diagnostics⟩
      | (.ok (), sink') => pump annotate c' sink' (summary.add fragment) rest := by
  rw [Fragment.text, ← Sink.writeLines_eq, pump]
  split
  · rename_i heq
    rw [h] at heq
    cases heq
  · rename_i heq
    rw [h] at heq
    cases heq
  · rename_i heq
    rw [h] at heq
    cases heq
    rfl

theorem toUTF8_textOf_cons (fragment : Fragment) (fragments : List Fragment) :
    (Fragment.textOf annotate (fragment :: fragments)).toUTF8
      = (fragment.text annotate).toUTF8 ++ (Fragment.textOf annotate fragments).toUTF8 := by
  rw [Fragment.textOf_cons]
  exact String.toByteArray_append

theorem write_textOf_nil (annotate : Bool) (sink : Sink) :
    sink.write (Fragment.textOf annotate []).toUTF8 = (.ok (), sink) := Sink.write_empty sink

section Drain

variable {fragments : List Fragment} {failure : Option CompileError} {sink' : Sink}

/-- If there is room for the text of all fragments, it is written, and the error comes after it. -/
theorem pump_of_write_ok
    (h : c.drain source = (fragments.map .ok ++ failure.toList.map .error, last))
    (hwrite : sink.write (Fragment.textOf annotate fragments).toUTF8 = (.ok (), sink')) :
    pump annotate c sink summary source =
      ⟨ending failure sink.flushFault
          { lines := last.line
            commands := summary.commands + fragments.length
            instructions := summary.instructions + (fragments.flatMap Fragment.code).length },
        sink', last.diagnostics⟩ := by
  -- the first fragment takes its part of the room, the others have the rest
  induction fragments generalizing c source sink summary with
  | nil =>
      rw [write_textOf_nil] at hwrite
      cases hwrite
      cases failure with
      | none =>
          obtain ⟨rest, hnext⟩ := next_of_drain_nil h
          exact pump_of_next_none hnext
      | some error =>
          obtain ⟨c', rest, hnext, hdrain⟩ := next_of_drain_cons h
          rw [drain_of_finished (finished_of_next_error hnext)] at hdrain
          cases hdrain
          exact pump_of_next_error hnext
  | cons fragment fragments ih =>
      obtain ⟨c', rest, hnext, hdrain⟩ := next_of_drain_cons h
      rw [toUTF8_textOf_cons, Sink.write_append] at hwrite
      rw [pump_of_next_fragment hnext]
      have hflush := Sink.flushFault_write sink (fragment.text annotate).toUTF8
      cases hfirst : sink.write (fragment.text annotate).toUTF8 with
      | mk outcome between =>
          rw [hfirst] at hwrite hflush
          cases outcome with
          | error error => cases hwrite
          | ok done =>
              show pump annotate c' between (summary.add fragment) rest = _
              rw [ih hdrain hwrite, hflush]
              simp only [Summary.add, List.length_cons, List.flatMap_cons, List.length_append,
                Nat.add_assoc, Nat.add_comm 1]

/-- If there is no room for the text of all fragments, no error of the source is reached. -/
theorem pump_of_write_error {error : IoError}
    (h : c.drain source = (fragments.map .ok ++ failure.toList.map .error, last))
    (hwrite : sink.write (Fragment.textOf annotate fragments).toUTF8 = (.error error, sink')) :
    (pump annotate c sink summary source).outcome = .error (.io error)
      ∧ (pump annotate c sink summary source).sink = sink' := by
  induction fragments generalizing c source sink summary with
  | nil =>
      rw [write_textOf_nil] at hwrite
      cases hwrite
  | cons fragment fragments ih =>
      obtain ⟨c', rest, hnext, hdrain⟩ := next_of_drain_cons h
      rw [toUTF8_textOf_cons, Sink.write_append] at hwrite
      rw [pump_of_next_fragment hnext]
      cases hfirst : sink.write (fragment.text annotate).toUTF8 with
      | mk outcome between =>
          rw [hfirst] at hwrite
          cases outcome with
          | error other =>
              -- the destination fills up in this fragment
              cases hwrite
              exact ⟨rfl, rfl⟩
          | ok done => exact ih hdrain hwrite

end Drain

/-- The text of the lines before the first one that cannot be read. -/
def output (annotate : Bool) (source : ByteSource) : ByteArray :=
  (Fragment.textOf annotate (Line.fragmentsFrom 1 source.lines)).toUTF8

/-- What has been done when all of a source is compiled. -/
def summaryOf (lines : List Line) : Summary :=
  { lines := lines.length
    commands := (Line.fragmentsFrom 1 lines).length
    instructions := ((Line.fragmentsFrom 1 lines).flatMap Fragment.code).length }

theorem exists_drain (source : ByteSource) :
    ∃ last, Compilation.start.drain source.events
        = ((Line.fragmentsFrom 1 source.lines).map .ok
          ++ (Line.firstError? 1 source.lines).toList.map .error, last)
      ∧ (Line.firstError? 1 source.lines = none → last.line = source.lines.length) := by
  have hfst := fst_drain_eq .start rfl source.lines
  have hline := @line_drain .start rfl source.lines
  rw [← ByteSource.events_eq] at hfst hline
  cases hdrain : Compilation.start.drain source.events with
  | mk items last =>
      rw [hdrain] at hfst hline
      obtain rfl : items = _ := hfst
      exact ⟨last, rfl, fun h => (hline h).trans (Nat.zero_add _)⟩

section Compile

variable {bytes : ByteSource} {sink' : Sink}

/-- With room for its text, a source ends with the error of the first line that cannot be read, or
else with flushing. -/
theorem compile_of_write_ok (hwrite : sink.write (output annotate bytes) = (.ok (), sink')) :
    (compile annotate bytes sink).outcome
        = ending (Line.firstError? 1 bytes.lines) sink.flushFault (summaryOf bytes.lines)
      ∧ (compile annotate bytes sink).sink = sink' := by
  obtain ⟨last, hdrain, hline⟩ := exists_drain bytes
  rw [compile, pump_of_write_ok hdrain hwrite]
  refine ⟨?_, rfl⟩
  cases hfailure : Line.firstError? 1 bytes.lines with
  | some error => rfl
  | none =>
      rw [hline hfailure, summaryOf]
      simp only [Nat.zero_add]

theorem compile_of_write_error {error : IoError}
    (hwrite : sink.write (output annotate bytes) = (.error error, sink')) :
    (compile annotate bytes sink).outcome = .error (.io error)
      ∧ (compile annotate bytes sink).sink = sink' := by
  obtain ⟨last, hdrain, -⟩ := exists_drain bytes
  exact pump_of_write_error hdrain hwrite

end Compile

/-- **What a stream leaves behind.** Its lines are those of the data, and the failure of reading
where there is one. If the destination has no room for the text of the lines before the first one
that cannot be read, it is filled with the beginning of that text and the stream ends with a full
destination, whatever would come later. Otherwise it has the whole text, and the stream ends with
the error of that line, or else with the failure to flush, or else with the summary. -/
theorem delivers_until_failure (annotate : Bool) (source : ByteSource) (capacity : Option Nat)
    (flushFault : Option IoError) :
    (∃ ended rest,
        Text.IsCut ByteSource.lineFeed ByteSource.carriageReturn source.data.data.toList ended rest
          ∧ source.lines = ended.map ByteSource.lineOf ++
            match source.fault with
            | some error => [.error error]
            | none => if rest = [] then [] else [ByteSource.lineOf rest])
      ∧ (Line.commandsFrom 1 source.lines).map (fun entry => entry.1.compile entry.2)
          = (Line.fragmentsFrom 1 source.lines).map .ok
      ∧ (∀ error, Line.firstError? 1 source.lines = some error ↔
          ∃ before line after, source.lines = before ++ line :: after
            ∧ (∀ entry ∈ before.zipIdx 1, ∃ command, Line.read entry = .ok command)
            ∧ Line.read (line, 1 + before.length) = .error error)
      ∧ (∀ n, capacity = some n → n < (output annotate source).size →
          (compile annotate source ⟨.empty, capacity, flushFault⟩).outcome = .error (.io .full)
            ∧ (compile annotate source ⟨.empty, capacity, flushFault⟩).sink.written
              = (output annotate source).extract 0 n)
      ∧ ((∀ n, capacity = some n → (output annotate source).size ≤ n) →
          (compile annotate source ⟨.empty, capacity, flushFault⟩).sink.written
              = output annotate source
            ∧ (compile annotate source ⟨.empty, capacity, flushFault⟩).outcome
              = ending (Line.firstError? 1 source.lines) flushFault (summaryOf source.lines)) := by
  refine ⟨?_, Line.compile_commandsFrom 1 source.lines, fun error => Line.firstError?_eq_some_iff,
    ?_, ?_⟩
  · obtain ⟨ended, rest, hcut⟩ := Text.exists_isCut ByteSource.lineFeed ByteSource.carriageReturn
      source.data.data.toList
    exact ⟨ended, rest, hcut, ByteSource.lines_of_isCut hcut⟩
  · rintro n rfl hsmall
    have hwrite : Sink.write ⟨.empty, some n, flushFault⟩ (output annotate source)
        = (.error .full, ⟨.empty ++ (output annotate source).extract 0 n, some n, flushFault⟩) :=
      Sink.write_of_lt hsmall
    obtain ⟨houtcome, hsink⟩ := compile_of_write_error hwrite
    rw [houtcome, hsink]
    exact ⟨rfl, ByteArray.empty_append⟩
  · intro hlarge
    have hwrite : Sink.write ⟨.empty, capacity, flushFault⟩ (output annotate source)
        = (.ok (), ⟨.empty ++ output annotate source, capacity, flushFault⟩) := by
      cases capacity with
      | none => exact Sink.write_unbounded
      | some n => exact Sink.write_of_le (hlarge n rfl)
    obtain ⟨houtcome, hsink⟩ := compile_of_write_ok hwrite
    rw [houtcome, hsink]
    exact ⟨ByteArray.empty_append, rfl⟩

/-- A negation and a line that is no command: with room for five bytes the stream does not get to
that line, with room for sixteen it does. -/
theorem delivers_until_failure_neg :
    (compile false { data := "neg\npop".toUTF8 } ⟨.empty, some 5, none⟩).outcome
        = .error (.io .full)
      ∧ (compile false { data := "neg\npop".toUTF8 } ⟨.empty, some 5, none⟩).sink.written
        = "@SP\nA".toUTF8
      ∧ (compile false { data := "neg\npop".toUTF8 } ⟨.empty, some 16, none⟩).outcome
        = .error (.malformed 2 "pop")
      ∧ (compile false { data := "neg\npop".toUTF8 } ⟨.empty, some 16, none⟩).sink.written
        = "@SP\nA=M-1\nM=-M\n\n".toUTF8 := by
  have hlines : ByteSource.lines { data := "neg\npop".toUTF8 } = [.ok "neg", .ok "pop"] := by
    rw [Source.lines_toUTF8]
    rfl
  have houtput : output false { data := "neg\npop".toUTF8 } = "@SP\nA=M-1\nM=-M\n\n".toUTF8 := by
    rw [output, hlines]
    rfl
  obtain ⟨-, -, -, hfull, -⟩ :=
    delivers_until_failure false { data := "neg\npop".toUTF8 } (some 5) none
  obtain ⟨-, -, -, -, hroom⟩ :=
    delivers_until_failure false { data := "neg\npop".toUTF8 } (some 16) none
  rw [houtput] at hfull hroom
  obtain ⟨houtcome, hwritten⟩ := hfull 5 rfl (by decide)
  obtain ⟨hwritten', houtcome'⟩ := hroom (by rintro n ⟨⟩; decide)
  refine ⟨houtcome, ?_, ?_, hwritten'⟩
  · rw [hwritten]
    rfl
  · rw [houtcome', hlines]
    rfl

end Stream

end HackStack
