import Mathlib.Order.Monotone.Basic
import HackStack.Proofs.EntryPoints
import HackStack.Proofs.Relabeling

set_option autoImplicit false

/-! # Lines without a command

Blank lines and comments can stand between any two lines of a source. They move the lines after
them, so the fragments and the errors of these get other line numbers (`Source.fragments_pad`), and
with the numbers the labels of comparisons change. Nothing else does: a source runs as it would
without such lines (`Source.padding_keeps_behaviour`).
-/

namespace HackStack

/-! ## Inserting lines -/

namespace Text

/-- A line on which nothing stands: blank characters, perhaps with a comment after them. -/
def IsVacant (text : String) : Prop := trim (beforeComment text.toList) = []

instance (text : String) : Decidable (IsVacant text) :=
  inferInstanceAs (Decidable (trim (beforeComment text.toList) = []))

/-- The line without the blank characters at its ends. -/
def trimmed (text : String) : String := String.ofList (trim text.toList)

/-- Lines of which the first one has the given number, with the lines of a gap inserted before each
of them and after the last one. Gap `n` is the one before line `n`. -/
def padFrom (gaps : Nat → List String) (number : Nat) : List String → List String
  | [] => gaps number
  | text :: rest => gaps number ++ text :: padFrom gaps (number + 1) rest

/-- The lines of a text with gaps filled in. -/
def pad (gaps : Nat → List String) (lines : List String) : List String := padFrom gaps 1 lines

/-- The number that a line gets when gaps are filled in; lines are counted from one. -/
def place (gaps : Nat → List String) : Nat → Nat
  | 0 => 0
  | number + 1 => place gaps number + (gaps (number + 1)).length + 1

variable (gaps : Nat → List String)

theorem strictMono_place : StrictMono (place gaps) := by
  apply strictMono_nat_of_lt_succ
  intro number
  show place gaps number < place gaps number + (gaps (number + 1)).length + 1
  omega

/-- Each line stands at the place of its number. -/
theorem getElem?_padFrom {number n i : Nat} {lines : List String} (h : n < lines.length)
    (hi : place gaps number + i + 1 = place gaps (number + 1 + n)) :
    (padFrom gaps (number + 1) lines)[i]? = lines[n]? := by
  induction lines generalizing number n i with
  | nil => cases h
  | cons text rest ih =>
      have hplace : place gaps (number + 1)
          = place gaps number + (gaps (number + 1)).length + 1 := rfl
      rw [padFrom]
      cases n with
      | zero =>
          have hi' : place gaps number + i + 1 = place gaps (number + 1) := hi
          have hfirst : i = (gaps (number + 1)).length := by omega
          rw [hfirst, List.getElem?_append_right (Nat.le_refl _), Nat.sub_self]
          rfl
      | succ n =>
          have hi' : place gaps number + i + 1 = place gaps (number + 1 + 1 + n) :=
            hi.trans (congrArg (place gaps) (by omega))
          have hlt : place gaps (number + 1) < place gaps (number + 1 + 1 + n) :=
            strictMono_place gaps (by omega)
          -- the gap and the first line come before
          obtain ⟨k, rfl⟩ : ∃ k, i = (gaps (number + 1)).length + (k + 1) :=
            ⟨i - (gaps (number + 1)).length - 1, by omega⟩
          rw [List.getElem?_append_right (by omega), Nat.add_sub_cancel_left,
            List.getElem?_cons_succ, List.getElem?_cons_succ]
          exact ih (Nat.lt_of_succ_lt_succ h) (by omega)

theorem getElem?_pad {n : Nat} {lines : List String} (h : n < lines.length) :
    (pad gaps lines)[place gaps (n + 1) - 1]? = lines[n]? := by
  have hpos : place gaps 0 < place gaps (n + 1) := strictMono_place gaps (Nat.succ_pos n)
  apply getElem?_padFrom gaps h
  rw [Nat.zero_add, Nat.add_comm 1 n]
  show 0 + (place gaps (n + 1) - 1) + 1 = place gaps (n + 1)
  omega

end Text

/-! ## Items on other lines -/

namespace Fragment

/-- The fragment of the same command on another line. -/
def renumber (f : Nat → Nat) (fragment : Fragment) : Fragment :=
  ⟨f fragment.line, fragment.command,
    Code.relabel fragment.line (f fragment.line) fragment.code⟩

theorem isEmpty_renumber (f : Nat → Nat) (fragment : Fragment) :
    (fragment.renumber f).isEmpty = fragment.isEmpty := by
  rw [isEmpty, isEmpty, renumber, Code.relabel, List.isEmpty_map]

end Fragment

namespace CompileError

/-- The error of the same text on another line. -/
def renumber (f : Nat → Nat) : CompileError → CompileError
  | .malformed line text => .malformed (f line) text
  | .unsupported line command => .unsupported (f line) command
  | .io error => .io error

end CompileError

/-- What the same text yields on another line. -/
def Item.renumber (f : Nat → Nat) : Item → Item
  | .ok fragment => .ok (fragment.renumber f)
  | .error error => .error (error.renumber f)

/-- What a source without errors compiles to when its lines are renumbered, or its error. -/
theorem mapM_renumber (f : Nat → Nat) (items : List Item) :
    (items.map (Item.renumber f)).mapM id =
      match items.mapM id with
      | .ok fragments => .ok (fragments.map (Fragment.renumber f))
      | .error error => .error (error.renumber f) := by
  induction items with
  | nil => rfl
  | cons item rest ih =>
      rw [List.map_cons, List.mapM_cons, List.mapM_cons, ih]
      cases item with
      | error error => rfl
      | ok fragment => cases rest.mapM id <;> rfl

namespace Compilation

open Text

/-- **One line.** The number of a line gets into the line number of the fragment or of the error,
and into the labels of a comparison. -/
theorem compileLine_renumber (f : Nat → Nat) (line : Nat) (text : String) :
    compileLine (f line) text = (compileLine line text).renumber f := by
  unfold compileLine
  cases hparse : Command.parse line text with
  | error error =>
      rw [Command.eq_malformed_of_parse hparse]
      cases hparse' : Command.parse (f line) text with
      | error error' =>
          rw [Command.eq_malformed_of_parse hparse']
          rfl
      | ok command =>
          rw [Command.parse_eq_ok_congr.1 hparse'] at hparse
          cases hparse
  | ok command =>
      rw [Command.parse_eq_ok_congr.1 hparse]
      have hcode := Command.code?_relabel
        (fun name => Command.isLabelName_of_parse hparse) line (f line)
      show command.compile (f line) = Item.renumber f (command.compile line)
      rw [Command.compile, Command.compile, hcode]
      cases command.code? line <;> rfl

theorem compileLine_of_isVacant {text : String} (h : IsVacant text) (line : Nat) :
    compileLine line text = .ok ⟨line, .comment, []⟩ := by
  have hparse : Command.parse line text = .ok .comment := by
    rw [Command.parse, h]
    rfl
  rw [compileLine, hparse]
  rfl

/-- Lines without a command are counted. -/
theorem yields_append_of_isVacant {gap : List String} (h : ∀ text ∈ gap, IsVacant text)
    (number : Nat) (rest : List Line) :
    yields number (gap.map .ok ++ rest) = yields (number + gap.length) rest := by
  induction gap generalizing number with
  | nil => rfl
  | cons text gap ih =>
      rw [List.forall_mem_cons] at h
      rw [List.map_cons, List.cons_append, yields, compileLine_of_isVacant h.1]
      show yields (number + 1) (gap.map .ok ++ rest) = _
      rw [ih h.2, List.length_cons, Nat.add_assoc, Nat.add_comm 1]

/-- What lines yield does not depend on the blank characters at their ends. -/
theorem yields_trimmed (number : Nat) (lines : List String) :
    yields number ((lines.map trimmed).map .ok) = yields number (lines.map .ok) := by
  induction lines generalizing number with
  | nil => rfl
  | cons text rest ih =>
      have hline : compileLine number (trimmed text) = compileLine number text := by
        rw [compileLine, trimmed, Command.parse_trim, compileLine]
      rw [List.map_cons, List.map_cons, yields, hline, ih, List.map_cons, yields]

variable {gaps : Nat → List String}

/-- **All lines.** The counter is at the place of the line before. -/
theorem yields_padFrom (h : ∀ n, ∀ text ∈ gaps n, IsVacant text) (number : Nat)
    (lines : List String) :
    yields (place gaps number + 1) ((padFrom gaps (number + 1) lines).map .ok)
      = (yields (number + 1) (lines.map .ok)).map (Item.renumber (place gaps)) := by
  induction lines generalizing number with
  | nil =>
      have hgap := yields_append_of_isVacant (h (number + 1)) (place gaps number + 1) []
      rwa [List.append_nil] at hgap
  | cons text rest ih =>
      have hplace : place gaps number + 1 + (gaps (number + 1)).length
          = place gaps (number + 1) := by
        rw [place]
        omega
      rw [padFrom, List.map_append, List.map_cons, yields_append_of_isVacant (h (number + 1)),
        hplace, yields, compileLine_renumber, ih, List.map_cons, yields]
      cases compileLine (number + 1) text with
      | error error => rfl
      | ok fragment =>
          simp only [Item.renumber, Fragment.isEmpty_renumber]
          split
          · rfl
          · rfl

end Compilation

/-! ## The main result -/

namespace Source

open Text

variable {gaps : Nat → List String} {source padded : String}

theorem fragments_pad (hgaps : ∀ n, ∀ text ∈ gaps n, IsVacant text)
    (hlines : (Text.lines padded).map trimmed = (pad gaps (Text.lines source)).map trimmed) :
    fragments padded = (fragments source).map (Item.renumber (place gaps)) :=
  calc fragments padded
      = Compilation.yields 1 ((Text.lines padded).map .ok) := fragments_eq_yields padded
    _ = Compilation.yields 1 ((pad gaps (Text.lines source)).map .ok) := by
        rw [← Compilation.yields_trimmed, hlines, Compilation.yields_trimmed]
    _ = (Compilation.yields 1 ((Text.lines source).map .ok)).map (Item.renumber (place gaps)) :=
        Compilation.yields_padFrom hgaps 0 (Text.lines source)
    _ = (fragments source).map (Item.renumber (place gaps)) := by
        rw [fragments_eq_yields source, lines]

theorem compile_pad (hgaps : ∀ n, ∀ text ∈ gaps n, IsVacant text)
    (hlines : (Text.lines padded).map trimmed = (pad gaps (Text.lines source)).map trimmed) :
    compile padded =
      match compile source with
      | .ok fragments => .ok (fragments.map (Fragment.renumber (place gaps)))
      | .error error => .error (error.renumber (place gaps)) := by
  rw [compile, fragments_pad hgaps hlines, mapM_renumber, compile]

/-- The code of a command that is no comparison is the same on every line. -/
theorem code_renumber_of_not_comparison {fragment : Fragment} (h : fragment ∈ accepted source)
    (hcomparison : ∀ operator, fragment.command ≠ .arithmetic (.comparison operator))
    (f : Nat → Nat) : (fragment.renumber f).code = fragment.code := by
  obtain ⟨hfragment, -, text, hparse⟩ := exists_parse_of_mem_accepted h
  obtain ⟨-, -, hcode⟩ := Command.compile_eq_ok_iff.1 hfragment
  apply Code.relabel_eq_self
  exact fun name => Command.isReserved_of_mem_names hcode hcomparison
    fun name => Command.isLabelName_of_parse hparse

theorem runSource_pad (hgaps : ∀ n, ∀ text ∈ gaps n, IsVacant text)
    (hlines : (Text.lines padded).map trimmed = (pad gaps (Text.lines source)).map trimmed)
    {fragments : List Fragment} (h : compile source = .ok fragments)
    (cells : List (Word × Word)) :
    Machine.runSource padded cells = Machine.runSource source cells := by
  have hpadded := compile_pad hgaps hlines
  rw [h] at hpadded
  refine runSource_eq_of_commands h hpadded ?_ cells
  rw [List.map_map]
  rfl

/-- **Lines without a command have no effect.** Let blank lines and comments be inserted into a
source, so that its lines move to other places and keep their order. What is yielded is the same,
with the numbers of lines and the labels of comparisons changed accordingly, and the code of other
commands is the same altogether. A malformed line is reported at its new place, with the same text.
And the source, if it compiles, runs alike on every memory. -/
theorem padding_keeps_behaviour (hgaps : ∀ n, ∀ text ∈ gaps n, IsVacant text)
    (hlines : (Text.lines padded).map trimmed = (pad gaps (Text.lines source)).map trimmed) :
    StrictMono (place gaps)
      ∧ (∀ n text, (Text.lines source)[n]? = some text →
          ((Text.lines padded)[place gaps (n + 1) - 1]?).map trimmed = some (trimmed text))
      ∧ fragments padded = (fragments source).map (Item.renumber (place gaps))
      ∧ (∀ fragment, .ok fragment ∈ fragments source →
          (∀ operator, fragment.command ≠ .arithmetic (.comparison operator)) →
            (fragment.renumber (place gaps)).code = fragment.code)
      ∧ (∀ annotate line text, assemble annotate source = .error (.malformed line text) →
          assemble annotate padded = .error (.malformed (place gaps line) text))
      ∧ ((∃ fragments, compile source = .ok fragments) →
          ∀ cells, Machine.runSource padded cells = Machine.runSource source cells) := by
  refine ⟨strictMono_place gaps, ?_, fragments_pad hgaps hlines, ?_, ?_, ?_⟩
  · intro n text htext
    obtain ⟨hlt, -⟩ := List.getElem?_eq_some_iff.1 htext
    rw [← List.getElem?_map, hlines, List.getElem?_map, getElem?_pad gaps hlt, htext,
      Option.map_some]
  · intro fragment hmem hcomparison
    have haccepted : fragment ∈ accepted source := by
      rw [fragments_eq, List.mem_append] at hmem
      rcases hmem with hmem | hmem
      · obtain ⟨other, hother, heq⟩ := List.mem_map.1 hmem
        rwa [← Except.ok.inj heq]
      · obtain ⟨error, -, heq⟩ := List.mem_map.1 hmem
        cases heq
    exact code_renumber_of_not_comparison haccepted hcomparison (place gaps)
  · intro annotate line text herror
    rw [assemble_eq_error_iff] at herror ⊢
    rw [compile_pad hgaps hlines, herror]
    rfl
  · rintro ⟨fragments, h⟩ cells
    exact runSource_pad hgaps hlines h cells

/-- A comment before each line and at the end: the labels of a comparison change, the error after it
moves, and without the error the source runs as before. -/
theorem padding_keeps_behaviour_comparison :
    fragments " // x\neq\n // x\nend\n // x" =
        [.ok ⟨2, .arithmetic (.comparison .eq), Code.comparison .eq 2⟩,
          .error (.malformed 4 "end")]
      ∧ assemble false " // x\neq\n // x\nend\n // x" = .error (.malformed 4 "end")
      ∧ ∀ cells, Machine.runSource " // x\neq\n // x" cells = Machine.runSource "eq" cells := by
  have hgaps : ∀ n, ∀ text ∈ (fun _ => [" // x"] : Nat → List String) n, IsVacant text := by
    intro n text htext
    rw [List.mem_singleton.1 htext]
    decide
  have hfragments : fragments "eq\nend" =
      [.ok ⟨1, .arithmetic (.comparison .eq), Code.comparison .eq 1⟩,
        .error (.malformed 2 "end")] := by
    rw [fragments_eq_yields]
    rfl
  have hcompile : compile "eq" = .ok
      [⟨1, .arithmetic (.comparison .eq), Code.comparison .eq 1⟩] := by
    rw [compile_eq_yields]
    rfl
  have herror : assemble false "eq\nend" = .error (.malformed 2 "end") := by
    rw [assemble_eq_error_iff, compile, hfragments]
    rfl
  obtain ⟨-, -, hitems, -, hmoved, -⟩ := padding_keeps_behaviour hgaps
    (show (Text.lines " // x\neq\n // x\nend\n // x").map trimmed
      = (pad (fun _ => [" // x"]) (Text.lines "eq\nend")).map trimmed from rfl)
  obtain ⟨-, -, -, -, -, hrun⟩ := padding_keeps_behaviour hgaps
    (show (Text.lines " // x\neq\n // x").map trimmed
      = (pad (fun _ => [" // x"]) (Text.lines "eq")).map trimmed from rfl)
  refine ⟨?_, hmoved false 2 "end" herror, hrun ⟨_, hcompile⟩⟩
  rw [hitems, hfragments, List.map_cons, Item.renumber, Fragment.renumber,
    Code.relabel_comparison]
  rfl

end Source

end HackStack
