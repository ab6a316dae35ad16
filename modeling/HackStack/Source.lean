import HackStack.Stream

set_option autoImplicit false

/-! # Compiling a text

A whole source text, held in memory: the fragments of its commands, one after the other, and its
assembly text, with what is reported on the way. The assembly text is what the stream of the
source's bytes leaves in memory. A source with an error has none.
-/

namespace HackStack.Source

/-- The lines of a source text, as answers of a source of lines. -/
def events (source : String) : List LineEvent := (Text.lines source).map .line

/-- The compilation of a source text: all that it yields, and its state at the end. -/
def run (source : String) : List Item × Compilation := Compilation.start.drain (events source)

/-- The fragments of the commands of a source text, up to and with the first error. -/
def fragments (source : String) : List Item := (run source).1

/-- The fragments of a source text without errors. -/
def compile (source : String) : Except CompileError (List Fragment) := (fragments source).mapM id

/-- The instructions of a source text, in order. -/
def code (source : String) : Except CompileError (List Instruction) :=
  (compile source).map fun fragments => fragments.flatMap Fragment.code

/-- The compilation of the bytes of a source text into memory. -/
def stream (annotate : Bool) (source : String) : StreamResult :=
  Stream.compile annotate { data := source.toUTF8 } {}

/-- What is reported while a source text is compiled. -/
def diagnostics (source : String) : Array Diagnostic := (stream false source).diagnostics

/-- The assembly text of a source text. What is written is text, so none of it is lost. -/
def assemble (annotate : Bool) (source : String) : Except CompileError String :=
  let result := stream annotate source
  result.outcome.map fun _ => (String.fromUTF8? result.sink.written).getD ""

end HackStack.Source
