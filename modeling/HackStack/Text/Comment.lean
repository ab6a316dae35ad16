set_option autoImplicit false

/-! # Line comments

A comment runs from the first `//` of a line to its end, whatever stands around it.
-/

namespace HackStack.Text

/-- Collects the part before a comment, in reverse. -/
def beforeCommentFrom (seen : List Char) : List Char → List Char
  | [] => seen.reverse
  | [c] => (c :: seen).reverse
  | c :: d :: rest =>
      if c = '/' ∧ d = '/' then seen.reverse else beforeCommentFrom (c :: seen) (d :: rest)

/-- The part of a line before the first `//`. -/
def beforeComment (line : List Char) : List Char := beforeCommentFrom [] line

theorem beforeCommentFrom_eq (seen line : List Char) :
    beforeCommentFrom seen line = seen.reverse ++ beforeComment line := by
  unfold beforeComment
  induction line generalizing seen with
  | nil => simp [beforeCommentFrom]
  | cons c rest ih =>
      cases rest with
      | nil => simp [beforeCommentFrom]
      | cons d rest =>
          simp only [beforeCommentFrom]
          split
          · simp
          · rw [ih (c :: seen), ih [c]]
            simp

@[simp] theorem beforeComment_nil : beforeComment [] = [] := rfl

@[simp] theorem beforeComment_slashes (rest : List Char) :
    beforeComment ('/' :: '/' :: rest) = [] := rfl

theorem beforeComment_cons {c : Char} {rest : List Char}
    (h : ∀ tail, c :: rest ≠ '/' :: '/' :: tail) :
    beforeComment (c :: rest) = c :: beforeComment rest := by
  cases rest with
  | nil => rfl
  | cons d rest =>
      have hne : ¬(c = '/' ∧ d = '/') := by
        rintro ⟨rfl, rfl⟩
        exact h rest rfl
      have hstep : beforeComment (c :: d :: rest) = beforeCommentFrom [c] (d :: rest) := by
        simp [beforeComment, beforeCommentFrom, hne]
      rw [hstep, beforeCommentFrom_eq]
      rfl

end HackStack.Text
