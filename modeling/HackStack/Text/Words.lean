set_option autoImplicit false

/-! # Words

A word is a longest run of characters other than space and tab. No other character separates
words: a no-break space, say, is part of a word and makes it unknown to every rule that reads it.
-/

namespace HackStack.Text

/-- Space and tab, the characters that stand between words. -/
def isGap (c : Char) : Bool := c == ' ' || c == '\t'

/-- The words of a text, in order. -/
def words (s : List Char) : List (List Char) :=
  (s.splitOnP isGap).filter fun piece => !piece.isEmpty

@[simp] theorem words_nil : words [] = [] := by
  simp [words]

/-- A gap parts the words before it from those after it. -/
theorem words_append_cons {c : Char} (hc : isGap c = true) (s t : List Char) :
    words (s ++ c :: t) = words s ++ words t := by
  rw [words, List.splitOnP_append_cons s t hc, List.filter_append, words, words]

/-- A text without a gap is one word. -/
theorem words_of_forall_not_gap {s : List Char} (hs : s ≠ []) (h : ∀ c ∈ s, isGap c = false) :
    words s = [s] := by
  have hsplit : s.splitOnP isGap = [s] := List.splitOnP_eq_singleton (by simpa using h)
  simp [words, hsplit, hs]

end HackStack.Text
