import HackStack.Proofs.Encodable

set_option autoImplicit false

/-! # The line-by-line reading of a source

What a compilation has to yield, said of the numbered lines at once and without its loop: the
commands on the lines before the first one that cannot be read (`Line.commandsFrom`), and the error
of that line (`Line.firstError?`). A compilation yields the code of these commands and then the
error (`fst_drain_eq`), and after that nothing, however often it is asked (`request_eq`).
-/

namespace HackStack

/-! ## Numbered lines -/

namespace Line

/-- What a line is read as, by its number. -/
def read (entry : Line × Nat) : Except CompileError Command :=
  match entry.1 with
  | .ok text => Command.parse entry.2 text
  | .error error => .error (.io error)

/-- Why a line cannot be read. -/
def error? (entry : Line × Nat) : Option CompileError :=
  match read entry with
  | .ok _ => none
  | .error error => some error

/-- The command on a line, with the number of the line. A blank line or a comment has none. -/
def command? (entry : Line × Nat) : Option (Command × Nat) :=
  match read entry with
  | .ok .comment => none
  | .ok command => some (command, entry.2)
  | .error _ => none

theorem command?_of_comment {entry : Line × Nat} (h : read entry = .ok .comment) :
    command? entry = none := by
  rw [command?, h]

theorem command?_of_ne_comment {entry : Line × Nat} {command : Command}
    (h : read entry = .ok command) (hcommand : command ≠ .comment) :
    command? entry = some (command, entry.2) := by
  cases command with
  | comment => exact absurd rfl hcommand
  | _ => rw [command?, h]

/-- The commands on the lines before the first one that cannot be read. Lines are counted from the
given number. -/
def commandsFrom (number : Nat) (lines : List Line) : List (Command × Nat) :=
  ((lines.zipIdx number).takeWhile fun entry => (error? entry).isNone).filterMap command?

/-- The error of the first line that cannot be read. -/
def firstError? (number : Nat) (lines : List Line) : Option CompileError :=
  (lines.zipIdx number).findSome? error?

/-- The code of the commands on the lines before the first one that cannot be read. -/
def fragmentsFrom (number : Nat) (lines : List Line) : List Fragment :=
  (commandsFrom number lines).filterMap fun entry => (entry.1.compile entry.2).toOption

section Cons

variable {number : Nat} {line : Line} {rest : List Line}

theorem firstError?_cons_of_error {error : CompileError} (h : read (line, number) = .error error) :
    firstError? number (line :: rest) = some error := by
  have hline : error? (line, number) = some error := by rw [error?, h]
  rw [firstError?, List.zipIdx_cons, List.findSome?_cons, hline]

theorem firstError?_cons_of_ok {command : Command} (h : read (line, number) = .ok command) :
    firstError? number (line :: rest) = firstError? (number + 1) rest := by
  have hline : error? (line, number) = none := by rw [error?, h]
  rw [firstError?, List.zipIdx_cons, List.findSome?_cons, hline]
  rfl

theorem commandsFrom_cons_of_error {error : CompileError}
    (h : read (line, number) = .error error) : commandsFrom number (line :: rest) = [] := by
  have hline : (error? (line, number)).isNone = false := by rw [error?, h]; rfl
  rw [commandsFrom, List.zipIdx_cons, List.takeWhile_cons_of_neg (by simp [hline])]
  rfl

theorem commandsFrom_cons_of_ok {command : Command} (h : read (line, number) = .ok command) :
    commandsFrom number (line :: rest) =
      (command? (line, number)).toList ++ commandsFrom (number + 1) rest := by
  have hline : (error? (line, number)).isNone = true := by rw [error?, h]; rfl
  rw [commandsFrom, List.zipIdx_cons, List.takeWhile_cons, if_pos hline, List.filterMap_cons]
  cases command? (line, number) <;> rfl

end Cons

/-- Without an error every line can be read. -/
theorem exists_text_of_firstError? {number : Nat} {lines : List Line}
    (h : firstError? number lines = none) : ∀ line ∈ lines, ∃ text, line = .ok text := by
  induction lines generalizing number with
  | nil => exact fun line hline => absurd hline List.not_mem_nil
  | cons line rest ih =>
      cases hread : read (line, number) with
      | error error =>
          rw [firstError?_cons_of_error hread] at h
          cases h
      | ok command =>
          rw [firstError?_cons_of_ok hread] at h
          rw [List.forall_mem_cons]
          refine ⟨?_, ih h⟩
          cases line with
          | ok text => exact ⟨text, rfl⟩
          | error error => cases hread

/-- The first error is that of a line before which all lines can be read. -/
theorem firstError?_eq_some_iff {number : Nat} {lines : List Line} {error : CompileError} :
    firstError? number lines = some error ↔
      ∃ before line after, lines = before ++ line :: after
        ∧ (∀ entry ∈ before.zipIdx number, ∃ command, read entry = .ok command)
        ∧ read (line, number + before.length) = .error error := by
  induction lines generalizing number with
  | nil => simp [firstError?]
  | cons line rest ih =>
      cases hline : read (line, number) with
      | error other =>
          -- no lines can stand before this one, since it would be one of them
          rw [firstError?_cons_of_error hline, Option.some.injEq]
          constructor
          · rintro rfl
            exact ⟨[], line, rest, rfl, by simp, hline⟩
          · rintro ⟨before, first, after, hsplit, hbefore, hfirst⟩
            cases before with
            | nil =>
                cases hsplit
                have heq := hline.symm.trans hfirst
                exact Except.error.inj heq
            | cons head before =>
                cases hsplit
                obtain ⟨command, hcommand⟩ := hbefore (line, number) (by simp [List.zipIdx_cons])
                rw [hline] at hcommand
                cases hcommand
      | ok command =>
          -- the line is the first of those before the error
          rw [firstError?_cons_of_ok hline, ih]
          constructor
          · rintro ⟨before, first, after, rfl, hbefore, hfirst⟩
            refine ⟨line :: before, first, after, rfl, ?_, ?_⟩
            · rw [List.zipIdx_cons, List.forall_mem_cons]
              exact ⟨⟨command, hline⟩, hbefore⟩
            · rw [List.length_cons, Nat.add_comm before.length, ← Nat.add_assoc]
              exact hfirst
          · rintro ⟨before, first, after, hsplit, hbefore, hfirst⟩
            cases before with
            | nil =>
                cases hsplit
                rw [List.length_nil, Nat.add_zero, hline] at hfirst
                cases hfirst
            | cons head before =>
                cases hsplit
                rw [List.zipIdx_cons, List.forall_mem_cons] at hbefore
                refine ⟨before, first, after, rfl, hbefore.2, ?_⟩
                rw [List.length_cons, Nat.add_comm before.length, ← Nat.add_assoc] at hfirst
                exact hfirst

/-- A command on a line has been read from it. -/
theorem exists_parse_of_mem_commandsFrom {number : Nat} {lines : List Line}
    {entry : Command × Nat} (h : entry ∈ commandsFrom number lines) :
    ∃ text, Command.parse entry.2 text = .ok entry.1 ∧ entry.1 ≠ .comment := by
  obtain ⟨⟨line, n⟩, -, hentry⟩ := List.mem_filterMap.1 h
  unfold command? at hentry
  split at hentry
  · cases hentry
  · rename_i command hcomment hread
    cases hentry
    cases line with
    | error error => cases hread
    | ok text => exact ⟨text, hread, hcomment⟩
  · cases hentry

/-- Every command on a line has code. -/
theorem compile_commandsFrom (number : Nat) (lines : List Line) :
    (commandsFrom number lines).map (fun entry => entry.1.compile entry.2)
      = (fragmentsFrom number lines).map .ok := by
  have hall : ∀ entry ∈ commandsFrom number lines, ∃ fragment,
      entry.1.compile entry.2 = .ok fragment := by
    intro entry hentry
    obtain ⟨text, hparse, -⟩ := exists_parse_of_mem_commandsFrom hentry
    obtain ⟨code, hcode, -⟩ := Command.exists_compile_of_parse hparse
    exact ⟨⟨entry.2, entry.1, code⟩, Command.compile_eq_ok_iff.2 ⟨rfl, rfl, hcode⟩⟩
  rw [fragmentsFrom]
  generalize commandsFrom number lines = entries at hall
  induction entries with
  | nil => rfl
  | cons entry rest ih =>
      rw [List.forall_mem_cons] at hall
      obtain ⟨⟨fragment, hfragment⟩, hrest⟩ := hall
      rw [List.map_cons, List.filterMap_cons, hfragment, ih hrest]
      rfl

end Line

/-! ## What a compilation yields -/

namespace Compilation

open Line

theorem compileLine_eq (number : Nat) (text : String) :
    compileLine number text =
      match read (.ok text, number) with
      | .ok command => command.compile number
      | .error error => .error error := rfl

/-- A line that is read has code. The compilation passes over code that is empty, and that is the
code of a comment. -/
theorem exists_compileLine_of_read {number : Nat} {text : String} {command : Command}
    (h : read (.ok text, number) = .ok command) :
    ∃ code, command.compile number = .ok ⟨number, command, code⟩
      ∧ compileLine number text = .ok ⟨number, command, code⟩
      ∧ ((⟨number, command, code⟩ : Fragment).isEmpty = true ↔ command = .comment) := by
  obtain ⟨code, hcode, -⟩ := Command.exists_compile_of_parse h
  have hcompile : command.compile number = .ok ⟨number, command, code⟩ :=
    Command.compile_eq_ok_iff.2 ⟨rfl, rfl, hcode⟩
  refine ⟨code, hcompile, ?_, ?_⟩
  · rw [compileLine_eq, h]
    exact hcompile
  · rw [Fragment.isEmpty, List.isEmpty_iff]
    constructor
    · intro hempty
      by_contra hcommand
      exact Command.code_ne_nil hcode hcommand hempty
    · rintro rfl
      cases hcode
      rfl

theorem yields_eq (number : Nat) (lines : List Line) :
    yields number lines = (commandsFrom number lines).map (fun entry => entry.1.compile entry.2)
      ++ (firstError? number lines).toList.map .error := by
  induction lines generalizing number with
  | nil => rfl
  | cons line rest ih =>
      cases hread : read (line, number) with
      | error error =>
          rw [commandsFrom_cons_of_error hread, firstError?_cons_of_error hread]
          cases line with
          | error failure =>
              cases hread
              rfl
          | ok text =>
              rw [yields, compileLine_eq, hread]
              rfl
      | ok command =>
          rw [commandsFrom_cons_of_ok hread, firstError?_cons_of_ok hread, List.map_append,
            List.append_assoc, ← ih]
          cases line with
          | error failure => cases hread
          | ok text =>
              obtain ⟨code, hcompile, hline, hempty⟩ := exists_compileLine_of_read hread
              rw [yields, hline]
              by_cases hcomment : command = .comment
              · subst hcomment
                rw [command?_of_comment hread]
                exact if_pos (hempty.2 rfl)
              · rw [command?_of_ne_comment hread hcomment, Option.toList_some, List.map_singleton,
                  hcompile]
                exact if_neg (mt hempty.1 hcomment)

/-- A compilation yields the code of the commands, and then the error of the first line that
cannot be read. -/
theorem fst_drain_eq (c : Compilation) (hopen : c.finished = false) (lines : List Line) :
    (c.drain (lines.map event)).1 = (fragmentsFrom (c.line + 1) lines).map .ok
      ++ (firstError? (c.line + 1) lines).toList.map .error := by
  rw [fst_drain_lines c hopen, yields_eq, compile_commandsFrom]

/-- Without an error all lines are taken. -/
theorem line_drain (c : Compilation) (hopen : c.finished = false) {lines : List Line}
    (h : firstError? (c.line + 1) lines = none) :
    (c.drain (lines.map event)).2.line = c.line + lines.length := by
  -- the compilation after a line is open again and has counted the line
  induction lines generalizing c with
  | nil =>
      have hnext : c.next [] = ⟨none, c, []⟩ := by simp [next, hopen, advance]
      rw [List.map_nil, drain_of_next_none hnext]
      rfl
  | cons line rest ih =>
      cases hread : read (line, c.line + 1) with
      | error error =>
          rw [firstError?_cons_of_error hread] at h
          cases h
      | ok command =>
          rw [firstError?_cons_of_ok hread] at h
          cases line with
          | error failure => cases hread
          | ok text =>
              obtain ⟨code, -, hline, -⟩ := exists_compileLine_of_read hread
              rw [List.map_cons, event, List.length_cons, ← Nat.add_assoc, Nat.add_right_comm]
              by_cases hempty : (⟨c.line + 1, command, code⟩ : Fragment).isEmpty = true
              · have htake : c.takeLine text = (none, { c with line := c.line + 1 }) := by
                  simp only [takeLine_eq, hline, hempty, if_true]
                have hopen' : ({ c with line := c.line + 1 } : Compilation).finished = false :=
                  hopen
                rw [drain_line_of_none _ hopen hopen' htake]
                exact ih { c with line := c.line + 1 } hopen' h
              · rw [drain_line_of_some _ hopen (by simp only [takeLine_eq, hline, hempty]; rfl)]
                exact ih _ hopen h

/-! ## Request by request -/

/-- What is yielded for the request that comes after the given number of others. -/
def request : Nat → Compilation → List LineEvent → Option Item
  | 0, c, source => (c.next source).item
  | n + 1, c, source => request n (c.next source).state (c.next source).rest

theorem next_of_finished {c : Compilation} (h : c.finished = true) (source : List LineEvent) :
    c.next source = ⟨none, c, source⟩ := by
  simp [next, h]

theorem request_of_finished {c : Compilation} (h : c.finished = true) (source : List LineEvent)
    (n : Nat) : request n c source = none := by
  induction n with
  | zero => rw [request, next_of_finished h]
  | succ n ih =>
      rw [request, next_of_finished h]
      exact ih

theorem request_nil (c : Compilation) (n : Nat) : request n c [] = none := by
  have hnext : c.next [] = ⟨none, c, []⟩ := by
    unfold next
    split
    · rfl
    · rfl
  induction n with
  | zero => rw [request, hnext]
  | succ n ih =>
      rw [request, hnext]
      exact ih

/-- A source of lines that is never out of lines for the moment has lines left, unless nothing is
yielded. -/
theorem exists_rest_advance (c : Compilation) (lines : List Line) :
    ∃ more : List Line, (c.advance (lines.map event)).rest = more.map event
      ∧ ((c.advance (lines.map event)).item = none → more = []) := by
  induction lines generalizing c with
  | nil => exact ⟨[], rfl, fun _ => rfl⟩
  | cons line rest ih =>
      cases line with
      | error failure => exact ⟨rest, rfl, fun h => by cases h⟩
      | ok text =>
          rw [List.map_cons, event, advance]
          split
          · exact ih _
          · exact ⟨rest, rfl, fun h => by cases h⟩

/-- Asked again and again, a compilation yields its items one by one and nothing after them. -/
theorem request_eq (n : Nat) (c : Compilation) (lines : List Line) :
    request n c (lines.map event) = (c.drain (lines.map event)).1[n]? := by
  -- what is left of the source after a request are lines again
  induction n generalizing c lines with
  | zero =>
      rw [request]
      match hnext : c.next (lines.map event) with
      | ⟨none, last, rest⟩ => rw [drain_of_next_none hnext, List.getElem?_nil]
      | ⟨some item, last, rest⟩ => rw [drain_of_next_some hnext, List.getElem?_cons_zero]
  | succ n ih =>
      by_cases hfinished : c.finished = true
      · rw [request_of_finished hfinished, drain_of_finished hfinished, List.getElem?_nil]
      · have hadvance : c.next (lines.map event) = c.advance (lines.map event) := by
          simp [next, hfinished]
        obtain ⟨more, hmore, hnil⟩ := exists_rest_advance c lines
        rw [request]
        match hnext : c.next (lines.map event) with
        | ⟨none, last, rest⟩ =>
            have hrest : rest = [] := by
              rw [← hadvance, hnext] at hmore hnil
              exact hmore.trans (congrArg _ (hnil rfl))
            rw [drain_of_next_none hnext, hrest, List.getElem?_nil]
            exact request_nil last n
        | ⟨some item, last, rest⟩ =>
            have hrest : rest = more.map event := by
              rw [← hadvance, hnext] at hmore
              exact hmore
            rw [drain_of_next_some hnext, List.getElem?_cons_succ, hrest]
            exact ih last more

end Compilation

end HackStack
