import HackStack.Proofs.LineText
import HackStack.Source

set_option autoImplicit false

/-! # What a source that compiles consists of

A compilation is a loop over answers of a source of lines. Seen from its lines it is a recursion on
them (`Compilation.yields`, `fragments_eq_yields`), and this is the form in which the rest of the
theory uses it. From it follows what all fragments of a source without errors have in
common (`IsCompiled`): each is the code of its command on its line, lines ascend, and names that
the program uses are never reserved ones.
-/

namespace HackStack

/-! ## Names in commands -/

namespace Command

/-- The label that a command declares. -/
def declared? : Command → Option String
  | .label name => some name
  | _ => none

/-- The label that a command may jump to. -/
def target? : Command → Option String
  | .goto name => some name
  | .ifGoto name => some name
  | _ => none

/-- The name in a command. -/
def name? : Command → Option String
  | .label name => some name
  | .goto name => some name
  | .ifGoto name => some name
  | _ => none

theorem name?_of_declared? {command : Command} {name : String}
    (h : command.declared? = some name) : command.name? = some name := by
  cases command with
  | label other => exact h
  | _ => cases h

theorem name?_of_target? {command : Command} {name : String}
    (h : command.target? = some name) : command.name? = some name := by
  cases command with
  | goto other => exact h
  | ifGoto other => exact h
  | _ => cases h

theorem ofMoveWord?_name? {word : String} {operand : Operand} {command : Command}
    (h : ofMoveWord? word operand = some command) : command.name? = none := by
  unfold ofMoveWord? at h
  split at h
  · cases h
    rfl
  · split at h
    · cases h
      rfl
    · cases h

theorem ofLabelWord?_name? {word name : String} {command : Command}
    (h : ofLabelWord? word name = some command) : command.name? = some name := by
  unfold ofLabelWord? at h
  split at h
  · cases h
    rfl
  · split at h
    · cases h
      rfl
    · split at h
      · cases h
        rfl
      · cases h

/-- Words that name a command with a name in it have a name that programs may use. -/
theorem isLabelName_of_ofWords? {words : List String} {command : Command} {name : String}
    (h : ofWords? words = some command) (hname : command.name? = some name) :
    isLabelName name = true := by
  match words, h with
  | [word], h =>
      obtain ⟨operator, -, rfl⟩ := Option.map_eq_some_iff.1 h
      cases hname
  | [word, other], h =>
      simp only [ofWords?] at h
      split at h
      · rename_i hother
        rw [ofLabelWord?_name? h, Option.some.injEq] at hname
        rwa [hname] at hother
      · cases h
  | [word, place, index], h =>
      obtain ⟨operand, -, hmove⟩ := Option.bind_eq_some_iff.1 h
      rw [ofMoveWord?_name? hmove] at hname
      cases hname

theorem isLabelName_of_parse {line : Nat} {text name : String} {command : Command}
    (h : parse line text = .ok command) (hname : command.name? = some name) :
    isLabelName name = true := by
  unfold parse at h
  split at h
  · cases h
    cases hname
  · split at h
    · rename_i found hfound
      cases h
      exact isLabelName_of_ofWords? hfound hname
    · cases h

/-- Blank characters at the ends of a line change neither the command on it nor the error. -/
theorem parse_trim (line : Nat) (text : String) :
    parse line (String.ofList (Text.trim text.toList)) = parse line text := by
  simp only [parse, wordsOf, String.toList_ofList, Text.trim_beforeComment_trim, Text.trim_trim]

/-- A command that compiles does so to the code that it has on its line. -/
theorem compile_eq_ok_iff {line : Nat} {command : Command} {fragment : Fragment} :
    command.compile line = .ok fragment ↔
      fragment.line = line ∧ fragment.command = command
        ∧ command.code? line = some fragment.code := by
  unfold compile
  obtain ⟨number, other, code⟩ := fragment
  constructor
  · intro h
    split at h
    · rename_i found hfound
      cases h
      exact ⟨rfl, rfl, hfound⟩
    · cases h
  · rintro ⟨rfl, rfl, hcode⟩
    simp [hcode]

end Command

/-! ## The compilation as a recursion on lines -/

/-- A line, or the failure to read it. -/
abbrev Line := Except IoError String

/-- A line as the answer of a source of lines. -/
def Line.event : Line → LineEvent
  | .ok text => .line text
  | .error error => .failure error

namespace Compilation

/-- What is yielded for lines of which the first one has the given number. -/
def yields (number : Nat) : List Line → List Item
  | [] => []
  | .error error :: _ => [.error (.io error)]
  | .ok text :: rest =>
      match compileLine number text with
      | .ok fragment =>
          if fragment.isEmpty then yields (number + 1) rest
          else .ok fragment :: yields (number + 1) rest
      | .error error => [.error error]

section YieldsLine

variable {number : Nat} {text : String} {fragment : Fragment}

theorem yields_line_of_error {error : CompileError} (h : compileLine number text = .error error)
    (rest : List Line) : yields number (.ok text :: rest) = [.error error] := by
  rw [yields, h]

theorem yields_line_of_isEmpty (h : compileLine number text = .ok fragment)
    (hempty : fragment.isEmpty = true) (rest : List Line) :
    yields number (.ok text :: rest) = yields (number + 1) rest := by
  rw [yields, h]
  exact if_pos hempty

theorem yields_line_of_not_isEmpty (h : compileLine number text = .ok fragment)
    (hempty : ¬ fragment.isEmpty = true) (rest : List Line) :
    yields number (.ok text :: rest) = .ok fragment :: yields (number + 1) rest := by
  rw [yields, h]
  exact if_neg hempty

end YieldsLine

/-- Taking a line: blank characters at its ends make no difference, and a blank line is a line
without code like any other. -/
theorem takeLine_eq (c : Compilation) (text : String) :
    c.takeLine text =
      match compileLine (c.line + 1) text with
      | .ok fragment =>
          if fragment.isEmpty then (none, { c with line := c.line + 1 })
          else
            (some (.ok fragment),
              { c with
                line := c.line + 1
                diagnostics :=
                  c.diagnostics.push
                    (.compiled (c.line + 1) fragment.command fragment.code.length) })
      | .error error =>
          (some (.error error),
            { line := c.line + 1
              finished := true
              diagnostics := c.diagnostics.push (.aborted (c.line + 1) error) }) := by
  have htrim : compileLine (c.line + 1) (String.ofList (Text.trim text.toList))
      = compileLine (c.line + 1) text := by
    rw [compileLine, Command.parse_trim, compileLine]
  unfold takeLine
  by_cases hblank : (Text.trim text.toList).isEmpty = true
  · have hcomment : compileLine (c.line + 1) text = .ok ⟨c.line + 1, .comment, []⟩ := by
      rw [← htrim, List.isEmpty_iff.1 hblank]
      rfl
    simp only [hblank, if_true, hcomment]
    rfl
  · simp only [hblank, htrim]
    rfl

theorem drain_congr {c c' : Compilation} {source source' : List LineEvent}
    (h : c.next source = c'.next source') : c.drain source = c'.drain source' := by
  match hnext : c'.next source' with
  | ⟨none, last, rest⟩ =>
      rw [drain_of_next_none hnext, drain_of_next_none (h.trans hnext)]
  | ⟨some item, last, rest⟩ =>
      rw [drain_of_next_some hnext, drain_of_next_some (h.trans hnext)]

theorem drain_of_finished {c : Compilation} (h : c.finished = true) (source : List LineEvent) :
    c.drain source = ([], c) := by
  have hnext : c.next source = ⟨none, c, source⟩ := by simp [next, h]
  exact drain_of_next_none hnext

/-- A line that yields nothing is passed over. -/
theorem drain_line_of_none {c c' : Compilation} {text : String} (rest : List LineEvent)
    (hopen : c.finished = false) (hopen' : c'.finished = false)
    (h : c.takeLine text = (none, c')) :
    c.drain (.line text :: rest) = c'.drain rest := by
  apply drain_congr
  simp [next, hopen, hopen', advance, h]

/-- A line that yields an item does so before the rest is looked at. -/
theorem drain_line_of_some {c c' : Compilation} {text : String} {item : Item}
    (rest : List LineEvent) (hopen : c.finished = false) (h : c.takeLine text = (some item, c')) :
    c.drain (.line text :: rest) = (item :: (c'.drain rest).1, (c'.drain rest).2) := by
  apply drain_of_next_some
  simp [next, hopen, advance, h]

/-- A failure to read finishes the compilation, so the rest is not read. -/
theorem drain_failure {c : Compilation} (hopen : c.finished = false) (error : IoError)
    (rest : List LineEvent) :
    c.drain (.failure error :: rest) = ([.error (.io error)], { c with finished := true }) := by
  have hnext : c.next (.failure error :: rest)
      = ⟨some (.error (.io error)), { c with finished := true }, rest⟩ := by
    simp [next, hopen, advance]
  rw [drain_of_next_some hnext, drain_of_finished rfl]

theorem fst_drain_lines (c : Compilation) (hopen : c.finished = false) (lines : List Line) :
    (c.drain (lines.map Line.event)).1 = yields (c.line + 1) lines := by
  induction lines generalizing c with
  | nil =>
      have hnext : c.next [] = ⟨none, c, []⟩ := by simp [next, hopen, advance]
      rw [List.map_nil, drain_of_next_none hnext]
      rfl
  | cons line rest ih =>
      rw [List.map_cons]
      cases line with
      | error error =>
          rw [Line.event, drain_failure hopen]
          rfl
      | ok text =>
          rw [Line.event, yields]
          cases hline : compileLine (c.line + 1) text with
          | error error =>
              -- the error finishes the compilation, so the rest of the lines is not read
              rw [drain_line_of_some _ hopen (by simp only [takeLine_eq, hline]; rfl),
                drain_of_finished rfl]
          | ok fragment =>
              by_cases hempty : fragment.isEmpty = true
              · have htake : c.takeLine text = (none, { c with line := c.line + 1 }) := by
                  simp only [takeLine_eq, hline, hempty, if_true]
                have hopen' : ({ c with line := c.line + 1 } : Compilation).finished = false :=
                  hopen
                rw [drain_line_of_none _ hopen hopen' htake]
                simp only [hempty, if_true]
                exact ih _ hopen'
              · rw [drain_line_of_some _ hopen (by simp only [takeLine_eq, hline, hempty]; rfl)]
                simp only [hempty]
                exact congrArg _ (ih _ hopen)

end Compilation

namespace Source

open Compilation

/-- The lines of a source text. Every one of them can be read. -/
def lines (source : String) : List Line := (Text.lines source).map .ok

theorem events_eq_map_event (source : String) : events source = (lines source).map Line.event := by
  rw [events, lines, List.map_map]
  rfl

theorem fragments_eq_yields (source : String) : fragments source = yields 1 (lines source) := by
  rw [fragments, run, events_eq_map_event]
  exact fst_drain_lines .start rfl _

theorem compile_eq_yields (source : String) :
    compile source = (yields 1 (lines source)).mapM id := by
  rw [compile, fragments_eq_yields]

end Source

/-! ## Sources without errors -/

/-- What the fragments of a source that compiles have in common. -/
structure IsCompiled (fragments : List Fragment) : Prop where
  /-- a fragment is the code of its command on its line -/
  code : ∀ fragment ∈ fragments, fragment.command.code? fragment.line = some fragment.code
  nonempty : ∀ fragment ∈ fragments, fragment.code ≠ []
  lines : fragments.Pairwise fun fragment later => fragment.line < later.line
  /-- a program declares and jumps to names that no comparison declares -/
  names : ∀ fragment ∈ fragments, ∀ name, fragment.command.name? = some name →
    Command.isLabelName name = true

theorem mapM_id_eq_ok {ε α : Type} {items : List (Except ε α)} {values : List α}
    (h : items.mapM id = .ok values) : items = values.map .ok := by
  induction items generalizing values with
  | nil =>
      cases h
      rfl
  | cons item items ih =>
      rw [List.mapM_cons] at h
      cases item with
      | error error => cases h
      | ok value =>
          cases hrest : items.mapM id with
          | error error =>
              rw [hrest] at h
              cases h
          | ok rest =>
              rw [hrest] at h
              cases h
              rw [ih hrest, List.map_cons]

namespace Compilation

theorem compileLine_eq_ok {line : Nat} {text : String} {fragment : Fragment}
    (h : compileLine line text = .ok fragment) :
    fragment.line = line ∧ Command.parse line text = .ok fragment.command
      ∧ fragment.command.code? line = some fragment.code := by
  unfold compileLine at h
  split at h
  · rename_i command hparse
    obtain ⟨hline, rfl, hcode⟩ := Command.compile_eq_ok_iff.1 h
    exact ⟨hline, hparse, hcode⟩
  · cases h

/-- Lines are numbered upwards, so what they yield keeps their order. -/
theorem isCompiled_of_yields {number : Nat} {lines : List Line} {fragments : List Fragment}
    (h : yields number lines = fragments.map .ok) :
    IsCompiled fragments ∧ ∀ fragment ∈ fragments, number ≤ fragment.line := by
  induction lines generalizing number fragments with
  | nil =>
      have hnil : fragments = [] := by simpa [yields] using h
      subst hnil
      exact ⟨⟨by simp, by simp, by simp, by simp⟩, by simp⟩
  | cons line rest ih =>
      cases line with
      | error error =>
          obtain _ | ⟨head, tail⟩ := fragments
          · cases h
          · cases h
      | ok text =>
          rw [yields] at h
          split at h
          · rename_i first hfirst
            split at h
            · -- the line has no code
              obtain ⟨hrest, hle⟩ := ih h
              exact ⟨hrest, fun fragment hmem => Nat.le_of_succ_le (hle fragment hmem)⟩
            · rename_i hempty
              obtain _ | ⟨head, tail⟩ := fragments
              · cases h
              · rw [List.map_cons, List.cons.injEq, Except.ok.injEq] at h
                obtain ⟨rfl, htail⟩ := h
                obtain ⟨hrest, hle⟩ := ih htail
                obtain ⟨hline, hparse, hcode⟩ := compileLine_eq_ok hfirst
                refine ⟨⟨?_, ?_, ?_, ?_⟩, ?_⟩
                · rw [List.forall_mem_cons, hline]
                  exact ⟨hcode, hrest.code⟩
                · rw [List.forall_mem_cons]
                  exact ⟨by simpa [Fragment.isEmpty] using hempty, hrest.nonempty⟩
                · rw [List.pairwise_cons]
                  exact ⟨fun later hlater => by have := hle later hlater; omega, hrest.lines⟩
                · rw [List.forall_mem_cons]
                  exact ⟨fun name => Command.isLabelName_of_parse hparse, hrest.names⟩
                · rw [List.forall_mem_cons, hline]
                  exact ⟨Nat.le_refl _, fun later hlater => Nat.le_of_succ_le (hle later hlater)⟩
          · rename_i error _
            obtain _ | ⟨head, tail⟩ := fragments
            · cases h
            · cases h

end Compilation

namespace Source

theorem isCompiled_of_compile {source : String} {fragments : List Fragment}
    (h : compile source = .ok fragments) : IsCompiled fragments := by
  have hyields := mapM_id_eq_ok h
  rw [fragments_eq_yields] at hyields
  exact (Compilation.isCompiled_of_yields hyields).1

end Source

end HackStack
