set_option autoImplicit false

/-! # Blank characters

The characters with the Unicode property White_Space, and trimming by them. Only the ends of a
line are trimmed this way; between the words of a command other rules hold (`Text.Words`).
-/

namespace HackStack.Text

/-- The code points with the property White_Space, as closed ranges in ascending order. -/
def blankRanges : List (Nat × Nat) :=
  [(0x09, 0x0d), (0x20, 0x20), (0x85, 0x85), (0xa0, 0xa0), (0x1680, 0x1680), (0x2000, 0x200a),
    (0x2028, 0x2029), (0x202f, 0x202f), (0x205f, 0x205f), (0x3000, 0x3000)]

def isBlank (c : Char) : Bool :=
  blankRanges.any fun range => decide (range.1 ≤ c.toNat) && decide (c.toNat ≤ range.2)

/-- The text without blank characters at its beginning. -/
def trimStart (s : List Char) : List Char := s.dropWhile isBlank

/-- The text without blank characters at its end. -/
def trimEnd (s : List Char) : List Char := (trimStart s.reverse).reverse

/-- The text without blank characters at its two ends. -/
def trim (s : List Char) : List Char := trimEnd (trimStart s)

example : blankRanges.Pairwise (fun r s => r.2 < s.1) ∧ blankRanges.all (fun r => r.1 ≤ r.2) := by
  decide

@[simp] theorem trim_nil : trim [] = [] := rfl

theorem trimStart_eq_nil_iff {s : List Char} : trimStart s = [] ↔ ∀ c ∈ s, isBlank c = true := by
  induction s with
  | nil => simp [trimStart]
  | cons c s ih =>
      cases h : isBlank c with
      | true =>
          have hs : trimStart (c :: s) = trimStart s := by simp [trimStart, h]
          simp [hs, ih, h]
      | false => simp [trimStart, h]

theorem trim_eq_nil_iff {s : List Char} : trim s = [] ↔ ∀ c ∈ s, isBlank c = true := by
  induction s with
  | nil => simp
  | cons c s ih =>
      cases h : isBlank c with
      | true =>
          have hs : trim (c :: s) = trim s := by simp [trim, trimStart, h]
          simp [hs, ih, h]
      | false =>
          have hs : trimStart (c :: s) = c :: s := by simp [trimStart, h]
          simp [trim, trimEnd, hs, trimStart_eq_nil_iff, h]

end HackStack.Text
