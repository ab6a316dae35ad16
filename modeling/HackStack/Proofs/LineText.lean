import HackStack.Command.Parse

set_option autoImplicit false

/-! # The code on a line, and its words

What is left of a line without its comment and without the blank characters at its ends, said
without a function (`IsBeforeComment`, `IsTrimmed`) and shown to be what reading a line computes.
Blank characters around a line change none of it (`trim_beforeComment_pad`). Text that neither
begins nor ends with a gap is then taken apart word by word (`IsSpaced`).
-/

namespace HackStack.Text

/-! ## Comments -/

/-- What stands before the first `//` of a line. -/
inductive IsBeforeComment : List Char → List Char → Prop
  | all {line : List Char} (h : ∀ before after, line ≠ before ++ '/' :: '/' :: after) :
      IsBeforeComment line line
  | first {part rest : List Char}
      (h : ∀ before after, part ++ '/' :: '/' :: rest = before ++ '/' :: '/' :: after →
        part.length ≤ before.length) :
      IsBeforeComment (part ++ '/' :: '/' :: rest) part

theorem isBeforeComment_beforeComment (line : List Char) :
    IsBeforeComment line (beforeComment line) := by
  induction line with
  | nil => exact .all fun before after h => by simp at h
  | cons c rest ih =>
      by_cases hstart : ∃ tail, c :: rest = '/' :: '/' :: tail
      · obtain ⟨tail, htail⟩ := hstart
        rw [htail, beforeComment_slashes]
        exact @IsBeforeComment.first [] tail fun before after _ => Nat.zero_le _
      · rw [not_exists] at hstart
        rw [beforeComment_cons hstart]
        generalize beforeComment rest = part at ih
        cases ih with
        | all h =>
            refine .all fun before after heq => ?_
            cases before with
            | nil => exact hstart after heq
            | cons d before => exact h before after (List.cons.inj heq).2
        | @first _ tail h =>
            refine @IsBeforeComment.first (c :: part) tail fun before after heq => ?_
            cases before with
            | nil => exact absurd heq (hstart after)
            | cons d before => exact Nat.succ_le_succ (h before after (List.cons.inj heq).2)

theorem IsBeforeComment.unique {line part other : List Char} (h : IsBeforeComment line part)
    (h' : IsBeforeComment line other) : part = other := by
  cases h with
  | all hnone =>
      cases h' with
      | all _ => rfl
      | first _ => exact absurd rfl (hnone _ _)
  | first hleast =>
      generalize hline : part ++ '/' :: '/' :: _ = line at h'
      cases h' with
      | all hnone => exact absurd hline.symm (hnone _ _)
      | first hleast' =>
          have hle := hleast _ _ hline
          have hle' := hleast' _ _ hline.symm
          exact List.append_inj_left hline (Nat.le_antisymm hle hle')

theorem isBeforeComment_iff {line part : List Char} :
    IsBeforeComment line part ↔ beforeComment line = part := by
  constructor
  · exact (isBeforeComment_beforeComment line).unique
  · rintro rfl
    exact isBeforeComment_beforeComment line

/-! ## Blank ends -/

/-- A text without the blank characters at its two ends. -/
structure IsTrimmed (text code : List Char) : Prop where
  split : ∃ left right, text = left ++ code ++ right ∧ (∀ c ∈ left, isBlank c = true)
    ∧ ∀ c ∈ right, isBlank c = true
  head : ∀ c, code.head? = some c → isBlank c = false
  last : ∀ c, code.getLast? = some c → isBlank c = false

theorem trimStart_append {left rest : List Char} (h : ∀ c ∈ left, isBlank c = true)
    (hrest : ∀ c, rest.head? = some c → isBlank c = false) : trimStart (left ++ rest) = rest := by
  rw [trimStart, List.dropWhile_append_of_pos h]
  cases rest with
  | nil => rfl
  | cons c rest => rw [List.dropWhile_cons_of_neg (by simp [hrest c rfl])]

/-- A text is a longest run of characters of a kind, and a rest that begins with another one. -/
theorem exists_run (p : Char → Bool) (s : List Char) : ∃ run, s = run ++ s.dropWhile p
    ∧ (∀ c ∈ run, p c = true) ∧ ∀ c, (s.dropWhile p).head? = some c → p c = false := by
  refine ⟨s.takeWhile p, List.takeWhile_append_dropWhile.symm, ?_, ?_⟩
  · exact fun c hc => List.all_eq_true.1 List.all_takeWhile c hc
  · intro c hc
    have hhead := List.head?_dropWhile_not p s
    rw [hc] at hhead
    simpa using hhead

theorem isTrimmed_trim (text : List Char) : IsTrimmed text (trim text) := by
  obtain ⟨left, hsplit, hleft, hhead⟩ := exists_run isBlank text
  obtain ⟨right, hsplit', hright, hlast⟩ := exists_run isBlank (trimStart text).reverse
  have hstart : trimStart text = trim text ++ right.reverse := by
    have hreverse := congrArg List.reverse hsplit'
    rwa [List.reverse_reverse, List.reverse_append] at hreverse
  refine ⟨⟨left, right.reverse, ?_, hleft, fun c hc => hright c (List.mem_reverse.1 hc)⟩, ?_, ?_⟩
  · rw [List.append_assoc, ← hstart]
    exact hsplit
  · intro c hc
    apply hhead
    rw [← trimStart, hstart, List.head?_append, hc]
    rfl
  · intro c hc
    rw [trim, trimEnd, List.getLast?_reverse] at hc
    exact hlast c hc

theorem IsTrimmed.trim_eq {text code : List Char} (h : IsTrimmed text code) :
    trim text = code := by
  obtain ⟨⟨left, right, rfl, hleft, hright⟩, hhead, hlast⟩ := h
  cases code with
  | nil =>
      rw [trim_eq_nil_iff, List.append_nil]
      intro c hc
      exact (List.mem_append.1 hc).elim (hleft c) (hright c)
  | cons c rest =>
      have hstart : trimStart (left ++ (c :: rest ++ right)) = c :: rest ++ right := by
        apply trimStart_append hleft
        intro d hd
        exact hhead d hd
      have hend : trimStart (right.reverse ++ (c :: rest).reverse) = (c :: rest).reverse := by
        apply trimStart_append fun d hd => hright d (List.mem_reverse.1 hd)
        intro d hd
        rw [List.head?_reverse] at hd
        exact hlast d hd
      rw [trim, List.append_assoc, hstart, trimEnd, List.reverse_append, hend,
        List.reverse_reverse]

theorem isTrimmed_iff {text code : List Char} : IsTrimmed text code ↔ trim text = code := by
  constructor
  · exact IsTrimmed.trim_eq
  · rintro rfl
    exact isTrimmed_trim text

theorem trim_trim (s : List Char) : trim (trim s) = trim s := by
  have h := isTrimmed_trim s
  have hself : IsTrimmed (trim s) (trim s) := ⟨⟨[], [], by simp, by simp, by simp⟩, h.head, h.last⟩
  exact hself.trim_eq

/-- Blank characters at the ends are no part of the trimmed text. -/
theorem trim_pad {left right : List Char} (hleft : ∀ c ∈ left, isBlank c = true)
    (hright : ∀ c ∈ right, isBlank c = true) (s : List Char) :
    trim (left ++ s ++ right) = trim s := by
  obtain ⟨⟨first, last, hsplit, hfirst, hlast⟩, hhead, hend⟩ := isTrimmed_trim s
  have hall : left ++ s ++ right = (left ++ first) ++ trim s ++ (last ++ right) := by
    conv => lhs; rw [hsplit]
    simp only [List.append_assoc]
  refine IsTrimmed.trim_eq ⟨⟨_, _, hall, fun c hc => ?_, fun c hc => ?_⟩, hhead, hend⟩
  · exact (List.mem_append.1 hc).elim (hleft c) (hfirst c)
  · exact (List.mem_append.1 hc).elim (hlast c) (hright c)

/-! ## Comments between blank characters -/

theorem ne_slash_of_isBlank {c : Char} (h : isBlank c = true) : c ≠ '/' := by
  rintro rfl
  cases h

theorem slash_not_mem_of_blank {s : List Char} (h : ∀ c ∈ s, isBlank c = true) : '/' ∉ s :=
  fun hmem => ne_slash_of_isBlank (h '/' hmem) rfl

/-- No comment begins in a text without a slash. -/
theorem beforeComment_append_of_not_mem {s : List Char} (h : '/' ∉ s) (rest : List Char) :
    beforeComment (s ++ rest) = s ++ beforeComment rest := by
  induction s with
  | nil => rfl
  | cons c s ih =>
      have hstart : ∀ tail, c :: (s ++ rest) ≠ '/' :: '/' :: tail := by
        intro tail heq
        apply h
        rw [(List.cons.inj heq).1]
        exact List.mem_cons_self
      rw [List.cons_append, beforeComment_cons hstart, ih (fun hmem => h (.tail c hmem)),
        List.cons_append]

theorem beforeComment_of_not_mem {s : List Char} (h : '/' ∉ s) : beforeComment s = s := by
  have hself := beforeComment_append_of_not_mem h []
  rwa [beforeComment_nil, List.append_nil] at hself

/-- What is added to a line, with another character than a slash first, is part of its comment, or
else comes after its code. -/
theorem beforeComment_append (s : List Char) :
    (∀ rest, rest.head? ≠ some '/' → beforeComment (s ++ rest) = s ++ beforeComment rest)
      ∨ ∀ rest, rest.head? ≠ some '/' → beforeComment (s ++ rest) = beforeComment s := by
  induction s with
  | nil => exact Or.inl fun rest _ => rfl
  | cons c s ih =>
      by_cases hstart : ∃ tail, c :: s = '/' :: '/' :: tail
      · obtain ⟨tail, htail⟩ := hstart
        refine Or.inr fun rest _ => ?_
        rw [htail, List.cons_append, List.cons_append, beforeComment_slashes,
          beforeComment_slashes]
      · rw [not_exists] at hstart
        -- a slash at the end of the line makes no comment with what is added
        have hstart' : ∀ rest : List Char, rest.head? ≠ some '/' →
            ∀ tail, c :: (s ++ rest) ≠ '/' :: '/' :: tail := by
          intro rest hrest tail heq
          obtain ⟨hc, htail⟩ := List.cons.inj heq
          cases s with
          | nil =>
              rw [List.nil_append] at htail
              rw [htail] at hrest
              exact hrest rfl
          | cons d s =>
              rw [List.cons_append, List.cons.injEq] at htail
              exact hstart s (by rw [hc, htail.1])
        rcases ih with ih | ih
        · refine Or.inl fun rest hrest => ?_
          rw [List.cons_append, beforeComment_cons (hstart' rest hrest), ih rest hrest,
            List.cons_append]
        · refine Or.inr fun rest hrest => ?_
          rw [List.cons_append, beforeComment_cons (hstart' rest hrest), ih rest hrest,
            beforeComment_cons hstart]

/-- Blank characters after a line are part of its comment, or else stay behind its code. -/
theorem exists_beforeComment_append_blank {right : List Char} (h : ∀ c ∈ right, isBlank c = true)
    (s : List Char) :
    ∃ tail, beforeComment (s ++ right) = beforeComment s ++ tail
      ∧ ∀ c ∈ tail, isBlank c = true := by
  have hslash := slash_not_mem_of_blank h
  have hhead : right.head? ≠ some '/' := fun hmem => hslash (List.mem_of_head? hmem)
  rcases beforeComment_append s with hcode | hcomment
  · have hself := hcode [] (by simp)
    rw [beforeComment_nil, List.append_nil] at hself
    exact ⟨right, by rw [hcode right hhead, beforeComment_of_not_mem hslash, hself], h⟩
  · exact ⟨[], by rw [hcomment right hhead, List.append_nil], by simp⟩

/-- Blank characters around a line change nothing of the code on it. -/
theorem trim_beforeComment_pad {left right : List Char} (hleft : ∀ c ∈ left, isBlank c = true)
    (hright : ∀ c ∈ right, isBlank c = true) (s : List Char) :
    trim (beforeComment (left ++ s ++ right)) = trim (beforeComment s) := by
  obtain ⟨tail, htail, hblank⟩ := exists_beforeComment_append_blank hright s
  rw [List.append_assoc, beforeComment_append_of_not_mem (slash_not_mem_of_blank hleft), htail,
    ← List.append_assoc,
    trim_pad hleft hblank]

theorem trim_beforeComment_trim (s : List Char) :
    trim (beforeComment (trim s)) = trim (beforeComment s) := by
  obtain ⟨left, right, hsplit, hleft, hright⟩ := (isTrimmed_trim s).split
  conv => rhs; rw [hsplit]
  rw [trim_beforeComment_pad hleft hright]

/-! ## Words -/

/-- One or more spaces and tabs. -/
def IsGap (gap : List Char) : Prop := gap ≠ [] ∧ ∀ c ∈ gap, c = ' ' ∨ c = '\t'

/-- A text without spaces and tabs. -/
def IsWord (word : List Char) : Prop := word ≠ [] ∧ ∀ c ∈ word, isGap c = false

theorem isWord_iff {word : List Char} :
    IsWord word ↔ (!word.isEmpty && word.all fun c => !isGap c) = true := by
  simp [IsWord]

instance (word : List Char) : Decidable (IsWord word) := decidable_of_iff _ isWord_iff.symm

/-- A text that neither begins nor ends with a gap. -/
structure IsTight (s : List Char) : Prop where
  head : ∀ c, s.head? = some c → isGap c = false
  last : ∀ c, s.getLast? = some c → isGap c = false

theorem isGap_iff {c : Char} : isGap c = true ↔ c = ' ' ∨ c = '\t' := by
  simp [isGap]

theorem isBlank_of_isGap {c : Char} (h : isGap c = true) : isBlank c = true := by
  rcases isGap_iff.1 h with rfl | rfl
  · decide
  · decide

theorem IsTrimmed.isTight {text code : List Char} (h : IsTrimmed text code) : IsTight code := by
  have hgap : ∀ c, isBlank c = false → isGap c = false := by
    intro c hc
    cases hgap : isGap c with
    | false => rfl
    | true => rw [isBlank_of_isGap hgap] at hc; cases hc
  exact ⟨fun c hc => hgap c (h.head c hc), fun c hc => hgap c (h.last c hc)⟩

theorem IsWord.words_eq {word : List Char} (h : IsWord word) : words word = [word] :=
  words_of_forall_not_gap h.1 h.2

/-- A gap at the beginning belongs to no word. -/
theorem words_gap_append {gap rest : List Char} (h : ∀ c ∈ gap, isGap c = true) :
    words (gap ++ rest) = words rest := by
  induction gap with
  | nil => rfl
  | cons c gap ih =>
      rw [List.forall_mem_cons] at h
      have hfirst := words_append_cons h.1 [] (gap ++ rest)
      rw [List.nil_append, words_nil, List.nil_append] at hfirst
      exact hfirst.trans (ih h.2)

theorem words_append_gap_append {gap : List Char} (hgap : IsGap gap) (s rest : List Char) :
    words (s ++ gap ++ rest) = words s ++ words rest := by
  obtain ⟨hne, hall⟩ := hgap
  cases gap with
  | nil => exact absurd rfl hne
  | cons c gap =>
      rw [List.forall_mem_cons] at hall
      rw [List.append_assoc, List.cons_append, words_append_cons (isGap_iff.2 hall.1),
        words_gap_append fun d hd => isGap_iff.2 (hall.2 d hd)]

theorem words_word_gap_append {word gap rest : List Char} (hword : IsWord word)
    (hgap : IsGap gap) : words (word ++ gap ++ rest) = word :: words rest := by
  rw [words_append_gap_append hgap, hword.words_eq, List.singleton_append]

/-- A tight text is taken apart after its first word. -/
theorem IsTight.cases {s : List Char} (h : IsTight s) (hne : s ≠ []) :
    IsWord s ∨ ∃ word gap rest, s = word ++ gap ++ rest ∧ IsWord word ∧ IsGap gap
      ∧ IsTight rest ∧ rest ≠ [] := by
  obtain ⟨word, hword, hall, hnext⟩ := exists_run (fun c => !isGap c) s
  generalize s.dropWhile (fun c => !isGap c) = tail at hword hnext
  subst hword
  have hsolid : IsWord word := by
    refine ⟨?_, fun c hc => by simpa using hall c hc⟩
    rintro rfl
    cases tail with
    | nil => exact hne rfl
    | cons c tail =>
        have hgap := hnext c rfl
        rw [h.head c rfl] at hgap
        cases hgap
  obtain ⟨gap, hsplit, hgap, hrest⟩ := exists_run isGap tail
  generalize tail.dropWhile isGap = rest at hsplit hrest
  subst hsplit
  cases gap with
  | nil =>
      -- what comes after the word begins with a gap, so it is empty
      cases rest with
      | nil => exact Or.inl (by simpa using hsolid)
      | cons c rest =>
          have hgap := hnext c rfl
          rw [hrest c rfl] at hgap
          cases hgap
  | cons c gap =>
      refine Or.inr ⟨word, c :: gap, rest, by simp, hsolid,
        ⟨by simp, fun d hd => isGap_iff.1 (hgap d hd)⟩, ⟨hrest, fun d hd => h.last d ?_⟩, ?_⟩
      · rw [List.getLast?_append, List.getLast?_append, hd]
        rfl
      · rintro rfl
        obtain ⟨d, hd⟩ : ∃ d, (c :: gap).getLast? = some d := ⟨_, List.getLast?_cons⟩
        have hlast : (word ++ (c :: gap ++ [])).getLast? = some d := by
          rw [List.append_nil, List.getLast?_append, hd]
          rfl
        have hblank := hgap d (List.mem_of_getLast? hd)
        rw [h.last d hlast] at hblank
        cases hblank

/-- A text that is made of words, with gaps between them. -/
inductive IsSpaced : List Char → List (List Char) → Prop
  | last {word : List Char} (hword : IsWord word) : IsSpaced word [word]
  | cons {word gap rest : List Char} {more : List (List Char)} (hword : IsWord word)
      (hgap : IsGap gap) (hrest : IsSpaced rest more) :
      IsSpaced (word ++ gap ++ rest) (word :: more)

theorem IsSpaced.ne_nil {s : List Char} {pieces : List (List Char)} (h : IsSpaced s pieces) :
    s ≠ [] := by
  cases h with
  | last hword => exact hword.1
  | cons hword _ _ => simp [hword.1]

theorem IsSpaced.words_eq {s : List Char} {pieces : List (List Char)} (h : IsSpaced s pieces) :
    words s = pieces := by
  induction h with
  | last hword => exact hword.words_eq
  | cons hword hgap _ ih => rw [words_word_gap_append hword hgap, ih]

/-- A tight text is its words, with gaps between them. -/
theorem IsTight.isSpaced_words {s : List Char} (h : IsTight s) (hne : s ≠ []) :
    IsSpaced s (words s) := by
  -- the rest after the first word is shorter, and tight again
  induction hlength : s.length using Nat.strongRecOn generalizing s with
  | _ n ih =>
      rcases h.cases hne with hword | ⟨word, gap, rest, rfl, hword, hgap, hrest, hne'⟩
      · rw [hword.words_eq]
        exact .last hword
      · have hshorter : rest.length < n := by
          have hpos := List.length_pos_iff.2 hword.1
          rw [← hlength, List.length_append, List.length_append]
          omega
        rw [words_word_gap_append hword hgap]
        exact .cons hword hgap (ih rest.length hshorter hrest hne' rfl)

end HackStack.Text
