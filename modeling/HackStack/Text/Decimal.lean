set_option autoImplicit false

/-! # Decimal numerals

A numeral is a run of one or more ASCII digits of any length; leading zeros count for nothing.
`decimal?` reads it, and what `toString` writes for a number is read back as that number.
-/

namespace HackStack.Text

/-- One or more ASCII digits. -/
def isNumeral (s : List Char) : Bool := !s.isEmpty && s.all Char.isDigit

/-- The value of a decimal numeral. -/
def decimal? (s : List Char) : Option Nat :=
  if isNumeral s then some (Nat.ofDigitChars 10 s 0) else none

theorem toList_toString_nat (n : Nat) : (toString n).toList = Nat.toDigits 10 n := by
  rw [show toString n = Nat.repr n from rfl, Nat.repr_eq_ofList_toDigits, String.toList_ofList]

theorem isNumeral_toDigits (n : Nat) : isNumeral (Nat.toDigits 10 n) = true := by
  have hd : ∀ c ∈ Nat.toDigits 10 n, c.isDigit = true :=
    fun c hc => Nat.isDigit_of_mem_toDigits (by decide) (by decide) hc
  simp only [isNumeral, Bool.and_eq_true, Bool.not_eq_true', List.isEmpty_eq_false_iff,
    List.all_eq_true]
  exact ⟨Nat.toDigits_ne_nil, hd⟩

theorem isNumeral_toString (n : Nat) : isNumeral (toString n).toList = true := by
  rw [toList_toString_nat]
  exact isNumeral_toDigits n

theorem decimal?_toString (n : Nat) : decimal? (toString n).toList = some n := by
  rw [decimal?, if_pos (isNumeral_toString n), toList_toString_nat,
    Nat.ofDigitChars_toDigits (by decide) (by decide)]

theorem decimal?_zero_cons {s : List Char} (h : isNumeral s = true) :
    decimal? ('0' :: s) = decimal? s := by
  have hz : isNumeral ('0' :: s) = true := by
    simp only [isNumeral, Bool.and_eq_true] at h
    simp [isNumeral, h.2]
  rw [decimal?, decimal?, if_pos hz, if_pos h, Nat.ofDigitChars_cons]
  rfl

end HackStack.Text
