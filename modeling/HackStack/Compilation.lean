import HackStack.Command.Parse
import HackStack.Command.Code

set_option autoImplicit false

/-! # Compiling line by line

A compilation asks a source for lines, one after the other, and yields the fragments of those that
hold a command. Lines without a command are counted and passed over. The first error is yielded
like a fragment and ends the compilation for good; that the source has no line at the moment ends
nothing, so a source that grows can be asked again.

A source is given as the list of the answers that it will give (`LineEvent`). `next` is one
request of the user, `drain` asks until nothing is yielded. What a compilation reports on the
way is kept with it, in the order of the reports.
-/

namespace HackStack

/-- What a source answers when it is asked for a line. -/
inductive LineEvent
  | line (text : String)
  | failure (error : IoError)
  /-- there is no line now -/
  | exhausted
  deriving DecidableEq, Repr

/-- What a compilation reports. -/
inductive Diagnostic
  /-- a line was compiled to so many instructions -/
  | compiled (line : Nat) (command : Command) (instructions : Nat)
  /-- a line was refused -/
  | aborted (line : Nat) (error : CompileError)
  deriving DecidableEq, Repr

/-- What a compilation yields. -/
abbrev Item := Except CompileError Fragment

structure Compilation where
  /-- the number of lines taken so far -/
  line : Nat := 0
  /-- whether an error has been yielded -/
  finished : Bool := false
  diagnostics : Array Diagnostic := #[]
  deriving DecidableEq, Repr

/-- The outcome of one request: what is yielded, the compilation after it, and the answers of the
source that have not been asked for. -/
structure Pull where
  item : Option Item
  state : Compilation
  rest : List LineEvent

namespace Compilation

def start : Compilation := {}

/-- The fragment of a line. -/
def compileLine (line : Nat) (text : String) : Item :=
  match Command.parse line text with
  | .ok command => command.compile line
  | .error error => .error error

/-- Takes one line, without the blank characters at its ends. -/
def takeLine (c : Compilation) (text : String) : Option Item × Compilation :=
  let line := c.line + 1
  let trimmed := Text.trim text.toList
  if trimmed.isEmpty then (none, { c with line := line })
  else
    match compileLine line (String.ofList trimmed) with
    | .ok fragment =>
        if fragment.isEmpty then (none, { c with line := line })
        else
          (some (.ok fragment),
            { c with
              line := line
              diagnostics :=
                c.diagnostics.push (.compiled line fragment.command fragment.code.length) })
    | .error error =>
        (some (.error error),
          { line := line
            finished := true
            diagnostics := c.diagnostics.push (.aborted line error) })

/-- Asks the source until there is something to yield or the source has no line. -/
def advance (c : Compilation) : List LineEvent → Pull
  | [] => ⟨none, c, []⟩
  | .exhausted :: rest => ⟨none, c, rest⟩
  | .failure error :: rest => ⟨some (.error (.io error)), { c with finished := true }, rest⟩
  | .line text :: rest =>
      match c.takeLine text with
      | (none, c') => c'.advance rest
      | (some item, c') => ⟨some item, c', rest⟩

/-- One request. -/
def next (c : Compilation) (source : List LineEvent) : Pull :=
  if c.finished then ⟨none, c, source⟩ else c.advance source

theorem length_rest_advance_le (c : Compilation) (source : List LineEvent) :
    (c.advance source).rest.length ≤ source.length := by
  induction source generalizing c with
  | nil => simp [advance]
  | cons event rest ih =>
      cases event with
      | exhausted => simp [advance]
      | failure error => simp [advance]
      | line text =>
          have hrest := ih (c.takeLine text).2
          simp only [advance, List.length_cons]
          split
          · rename_i c' heq
            rw [heq] at hrest
            exact Nat.le_succ_of_le hrest
          · exact Nat.le_succ _

/-- An item takes at least one answer of the source. -/
theorem length_rest_advance_lt {c : Compilation} {source : List LineEvent} {item : Item}
    (h : (c.advance source).item = some item) :
    (c.advance source).rest.length < source.length := by
  cases source with
  | nil => simp [advance] at h
  | cons event rest =>
      cases event with
      | exhausted => simp [advance]
      | failure error => simp [advance]
      | line text =>
          simp only [advance, List.length_cons]
          split
          · rename_i c' heq
            exact Nat.lt_succ_of_le (length_rest_advance_le c' rest)
          · exact Nat.lt_succ_self _

theorem length_rest_of_next {c c' : Compilation} {source rest : List LineEvent} {item : Item}
    (h : c.next source = ⟨some item, c', rest⟩) : rest.length < source.length := by
  unfold next at h
  split at h
  · cases h
  · have hitem : (c.advance source).item = some item := by rw [h]
    have hlt := length_rest_advance_lt hitem
    rw [h] at hlt
    exact hlt

/-- Requests until nothing is yielded: all that is yielded, and the compilation after it. -/
def drain (c : Compilation) (source : List LineEvent) : List Item × Compilation :=
  match h : c.next source with
  | ⟨none, last, _⟩ => ([], last)
  | ⟨some item, c', rest⟩ =>
      have := length_rest_of_next h
      let (items, last) := c'.drain rest
      (item :: items, last)
termination_by source.length

theorem drain_of_next_none {c last : Compilation} {source rest : List LineEvent}
    (h : c.next source = ⟨none, last, rest⟩) : c.drain source = ([], last) := by
  rw [drain]
  split
  · rename_i heq
    rw [h] at heq
    cases heq
    rfl
  · rename_i heq
    rw [h] at heq
    cases heq

theorem drain_of_next_some {c c' : Compilation} {source rest : List LineEvent} {item : Item}
    (h : c.next source = ⟨some item, c', rest⟩) :
    c.drain source = (item :: (c'.drain rest).1, (c'.drain rest).2) := by
  rw [drain]
  split
  · rename_i heq
    rw [h] at heq
    cases heq
  · rename_i heq
    rw [h] at heq
    cases heq
    rfl

end Compilation

end HackStack
