import HackStack.Compilation
import HackStack.Text.Lines

set_option autoImplicit false

/-! # Compiling a stream

A compilation from bytes to bytes. The source may hold bytes that are not text or fail where its
data ends, the destination may be full or fail to flush. Each fragment is written, line by line,
before the next line of the source is looked at, so an error leaves in the destination what came
before it, and of two failures that one wins which is met first.
-/

namespace HackStack

/-- Bytes to read. With a fault, reading fails where the data ends, and the last line is lost if no
line feed ends it. -/
structure ByteSource where
  data : ByteArray
  fault : Option IoError := none

/-- A destination of bytes. -/
structure Sink where
  written : ByteArray := .empty
  /-- the number of bytes that it takes in all; any number if there is none -/
  capacity : Option Nat := none
  /-- the failure that flushing ends with -/
  flushFault : Option IoError := none

/-- What a compilation has done. -/
structure Summary where
  lines : Nat := 0
  commands : Nat := 0
  instructions : Nat := 0
  deriving DecidableEq, Repr

namespace ByteSource

def lineFeed : UInt8 := 10

def carriageReturn : UInt8 := 13

/-- The answer for the bytes of one line. -/
def lineEvent (line : List UInt8) : LineEvent :=
  match String.fromUTF8? line.toByteArray with
  | some text => .line text
  | none => .failure .notText

/-- The lines of the data, as answers of a source of lines. -/
def events (source : ByteSource) : List LineEvent :=
  let data := source.data.data.toList
  let rest := Text.lastPiece lineFeed data
  let last :=
    match source.fault with
    | some error => [.failure error]
    | none => if rest.isEmpty then [] else [lineEvent rest]
  (Text.endedLines lineFeed carriageReturn data).map lineEvent ++ last

end ByteSource

namespace Sink

/-- The number of bytes that the destination still takes, out of so many. -/
def room (sink : Sink) (size : Nat) : Nat :=
  match sink.capacity with
  | none => size
  | some capacity => capacity - sink.written.size

/-- Writes bytes, as many as the destination still takes. -/
def write (sink : Sink) (bytes : ByteArray) : Except IoError Unit × Sink :=
  let room := sink.room bytes.size
  if bytes.size ≤ room then (.ok (), { sink with written := sink.written ++ bytes })
  else (.error .full, { sink with written := sink.written ++ bytes.extract 0 room })

/-- Writes lines, each with a line feed, up to the first one for which there is no room. -/
def writeLines (sink : Sink) : List String → Except IoError Unit × Sink
  | [] => (.ok (), sink)
  | line :: rest =>
      match sink.write (line ++ "\n").toUTF8 with
      | (.ok (), sink') => sink'.writeLines rest
      | (.error error, sink') => (.error error, sink')

def flush (sink : Sink) : Except IoError Unit :=
  match sink.flushFault with
  | some error => .error error
  | none => .ok ()

end Sink

namespace Summary

/-- The summary with one more fragment. -/
def add (summary : Summary) (fragment : Fragment) : Summary :=
  { summary with
    commands := summary.commands + 1
    instructions := summary.instructions + fragment.code.length }

end Summary

/-- The end of a compilation from bytes to bytes. -/
structure StreamResult where
  outcome : Except CompileError Summary
  sink : Sink
  diagnostics : Array Diagnostic

namespace Stream

/-- Goes on with a compilation: writes fragment after fragment. -/
def pump (annotate : Bool) (c : Compilation) (sink : Sink) (summary : Summary)
    (source : List LineEvent) : StreamResult :=
  match h : c.next source with
  | ⟨none, last, _⟩ =>
      match sink.flush with
      | .ok () => ⟨.ok { summary with lines := last.line }, sink, last.diagnostics⟩
      | .error error => ⟨.error (.io error), sink, last.diagnostics⟩
  | ⟨some (.error error), last, _⟩ => ⟨.error error, sink, last.diagnostics⟩
  | ⟨some (.ok fragment), c', rest⟩ =>
      have := Compilation.length_rest_of_next h
      match sink.writeLines (fragment.lines annotate) with
      | (.error error, sink') => ⟨.error (.io error), sink', c'.diagnostics⟩
      | (.ok (), sink') => pump annotate c' sink' (summary.add fragment) rest
termination_by source.length

/-- Compiles the source into the destination. -/
def compile (annotate : Bool) (source : ByteSource) (sink : Sink) : StreamResult :=
  pump annotate .start sink {} source.events

end Stream

end HackStack
