import HackStack.Operator
import HackStack.Text.Decimal

set_option autoImplicit false

/-! # Symbols

Names in generated code. A symbol is made of ASCII letters, digits, `_`, `.` and `$` and does not
begin with a digit. The code of a comparison declares labels of its own, a stem and the number of
the source line (`EQ_12`); names of that form are reserved, so that no label of a program can
meet one of them.
-/

namespace HackStack

namespace Symbol

def isStart (c : Char) : Bool := c.isAlpha || c == '_' || c == '.' || c == '$'

def isPart (c : Char) : Bool := isStart c || c.isDigit

/-- Whether a name is a symbol. -/
def isSymbol (name : String) : Bool :=
  match name.toList with
  | [] => false
  | c :: rest => isStart c && rest.all isPart

end Symbol

/-- The labels that the code of a comparison declares. -/
inductive LabelStem
  /-- where the comparison goes if it holds -/
  | holds (comparison : Comparison)
  /-- where it goes if it does not -/
  | fails (comparison : Comparison)
  /-- where the two ways meet -/
  | done
  deriving DecidableEq, Repr

namespace LabelStem

def all : List LabelStem :=
  [.holds .eq, .holds .gt, .holds .lt, .fails .eq, .fails .gt, .fails .lt, .done]

def text : LabelStem → String
  | .holds .eq => "EQ"
  | .holds .gt => "GT"
  | .holds .lt => "LT"
  | .fails .eq => "NEQ"
  | .fails .gt => "NGT"
  | .fails .lt => "NLT"
  | .done => "CONT"

/-- The label that a stem has on a source line. -/
def label (stem : LabelStem) (line : Nat) : String := stem.text ++ "_" ++ toString line

@[simp] theorem mem_all (stem : LabelStem) : stem ∈ all := by
  cases stem with
  | holds c => cases c <;> decide
  | fails c => cases c <;> decide
  | done => decide

/-- A stem does not contain the character that separates it from the line number. -/
theorem ne_underscore_of_mem_text {stem : LabelStem} {c : Char} (h : c ∈ stem.text.toList) :
    (c != '_') = true := by
  have hall : (all.all fun s => s.text.toList.all (· != '_')) = true := by decide
  have hstem := List.all_eq_true.1 hall stem (mem_all stem)
  exact List.all_eq_true.1 hstem c h

end LabelStem

namespace Symbol

/-- Whether a name has the form of a label that comparisons declare: a stem, `_`, digits. -/
def isReserved (name : String) : Bool :=
  let stem := name.toList.takeWhile (· != '_')
  let digits := (name.toList.dropWhile (· != '_')).drop 1
  (LabelStem.all.any fun s => s.text.toList == stem) && Text.isNumeral digits

example : isReserved "NGT_012" = true ∧ isReserved "EQ_" = false ∧ isReserved "EQ_1a" = false
    ∧ isReserved "LOOP_1" = false := by
  decide

/-- Every label of a comparison is reserved. -/
theorem isReserved_label (stem : LabelStem) (line : Nat) :
    isReserved (stem.label line) = true := by
  have hstem : ∀ c ∈ stem.text.toList, (c != '_') = true :=
    fun _ hc => LabelStem.ne_underscore_of_mem_text hc
  have hlist : (stem.label line).toList = stem.text.toList ++ '_' :: (toString line).toList := by
    simp [LabelStem.label]
  have htake : (stem.label line).toList.takeWhile (· != '_') = stem.text.toList := by
    rw [hlist, List.takeWhile_append_of_pos hstem]
    simp
  have hdrop : ((stem.label line).toList.dropWhile (· != '_')).drop 1
      = (toString line).toList := by
    rw [hlist, List.dropWhile_append_of_pos hstem]
    simp
  simp only [isReserved, htake, hdrop, Text.isNumeral_toString, Bool.and_true]
  exact List.any_eq_true.2 ⟨stem, LabelStem.mem_all stem, by simp⟩

end Symbol

end HackStack
