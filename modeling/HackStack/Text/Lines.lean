set_option autoImplicit false

/-! # Lines

A line ends at a line feed; one carriage return just before the line feed belongs to the ending.
What follows the last line feed counts as a line too, unless it is empty. The rule is stated once
for lists of any kind of symbol, because lines are cut out of text (`lines`) as well as out of
bytes that may not be text.
-/

namespace HackStack.Text

variable {α : Type} [BEq α]

/-- The line without one final carriage return `cr`. -/
def dropReturn (cr : α) (line : List α) : List α :=
  if line.getLast? == some cr then line.dropLast else line

/-- The lines that the line feed `lf` ends, without their endings. -/
def endedLines (lf cr : α) (s : List α) : List (List α) :=
  (s.splitOn lf).dropLast.map (dropReturn cr)

/-- What follows the last line feed `lf`; everything if there is none. -/
def lastPiece (lf : α) (s : List α) : List α :=
  (s.splitOn lf).getLastD []

/-- The lines of a text. -/
def lines (text : String) : List String :=
  let rest := lastPiece '\n' text.toList
  let unended := if rest.isEmpty then [] else [rest]
  (endedLines '\n' '\r' text.toList ++ unended).map String.ofList

/-- The text that consists of lines, each of them with a line feed. -/
def ofLines (lines : List String) : String := String.join (lines.map fun line => line ++ "\n")

section Lemmas

variable [LawfulBEq α]

theorem endedLines_append_cons {lf cr : α} {line rest : List α} (h : lf ∉ line) :
    endedLines lf cr (line ++ lf :: rest) = dropReturn cr line :: endedLines lf cr rest := by
  obtain ⟨p, ps, hp⟩ := List.exists_cons_of_ne_nil (List.splitOn_ne_nil lf rest)
  rw [endedLines, List.splitOn_append_cons_self_of_not_mem h, endedLines, hp]
  rfl

theorem lastPiece_append_cons {lf : α} {line rest : List α} (h : lf ∉ line) :
    lastPiece lf (line ++ lf :: rest) = lastPiece lf rest := by
  obtain ⟨p, ps, hp⟩ := List.exists_cons_of_ne_nil (List.splitOn_ne_nil lf rest)
  rw [lastPiece, List.splitOn_append_cons_self_of_not_mem h, lastPiece, hp]
  rfl

theorem endedLines_of_not_mem {lf cr : α} {line : List α} (h : lf ∉ line) :
    endedLines lf cr line = [] := by
  simp [endedLines, List.splitOn_eq_singleton h]

theorem lastPiece_of_not_mem {lf : α} {line : List α} (h : lf ∉ line) :
    lastPiece lf line = line := by
  simp [lastPiece, List.splitOn_eq_singleton h]

end Lemmas

end HackStack.Text
