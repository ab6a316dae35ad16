import HackStack.Proofs.EntryPoints

set_option autoImplicit false

/-! # A compilation, request by request

A source of lines may answer anything: lines, failures, and that it has no line at the moment, after
which it goes on. Against such a source a compilation is a state machine. One request takes the
answers up to the first one that ends it (`Stops`), and passes over the lines without a command
that come before; from this step follows what holds after any number of requests
(`requests_take_answers`): no answer is asked for twice or left out, the counter is the number of
lines taken, the lines of fragments ascend, and an error is the last thing that happens.
-/

namespace HackStack

/-- Whether an answer is a line. -/
def LineEvent.isLine : LineEvent → Bool
  | .line _ => true
  | .failure _ => false
  | .exhausted => false

namespace Compilation

/-! ## One request -/

/-- How a request ends, when so many lines have been taken and the source has the given answers
left: what is yielded, the answers that are left then, and the number of lines taken. -/
inductive Stops (number : Nat) : List LineEvent → Option Item → List LineEvent → Nat → Prop
  /-- all answers have been given; from here on the source has no line -/
  | ended : Stops number [] none [] number
  | exhausted (rest : List LineEvent) : Stops number (.exhausted :: rest) none rest number
  | failure (error : IoError) (rest : List LineEvent) :
      Stops number (.failure error :: rest) (some (.error (.io error))) rest number
  | malformed {text : String} (rest : List LineEvent)
      (h : ∀ command, Command.parse (number + 1) text ≠ .ok command) :
      Stops number (.line text :: rest)
        (some (.error (.malformed (number + 1) (String.ofList (Text.trim text.toList))))) rest
        (number + 1)
  | fragment {text : String} {command : Command} {code : List Instruction} (rest : List LineEvent)
      (hparse : Command.parse (number + 1) text = .ok command)
      (hcode : command.code? (number + 1) = some code) (hne : code ≠ []) :
      Stops number (.line text :: rest) (some (.ok ⟨number + 1, command, code⟩)) rest (number + 1)

/-- What a line does to a compilation. Only an error finishes it. -/
theorem takeLine_cases (c : Compilation) (text : String) :
    ((∀ number, Command.parse number text = .ok .comment)
        ∧ c.takeLine text = (none, { c with line := c.line + 1 }))
      ∨ ∃ item c', c.takeLine text = (some item, c') ∧ c'.line = c.line + 1
          ∧ (∀ fragment, item = .ok fragment → c'.finished = c.finished)
          ∧ ∀ rest, Stops c.line (.line text :: rest) (some item) rest (c.line + 1) := by
  rw [takeLine_eq]
  cases hparse : Command.parse (c.line + 1) text with
  | error error =>
      have hline : compileLine (c.line + 1) text = .error error := by rw [compileLine, hparse]
      have hnone : ∀ command, Command.parse (c.line + 1) text ≠ .ok command := by
        intro command hcommand
        rw [hparse] at hcommand
        cases hcommand
      rw [hline]
      refine Or.inr ⟨_, _, rfl, rfl, (fun fragment h => by cases h), fun rest => ?_⟩
      rw [Command.eq_malformed_of_parse hparse]
      exact .malformed rest hnone
  | ok command =>
      obtain ⟨code, hcompile, hline, hempty⟩ := exists_compileLine_of_read hparse
      rw [hline]
      -- a comment is the only command without code, and has none on any line
      by_cases hcomment : command = .comment
      · subst hcomment
        refine Or.inl ⟨fun number => Command.parse_eq_ok_congr.1 hparse, ?_⟩
        exact if_pos (hempty.2 rfl)
      · have hsome : ¬ (⟨c.line + 1, command, code⟩ : Fragment).isEmpty = true :=
          mt hempty.1 hcomment
        have hne : code ≠ [] := by simpa [Fragment.isEmpty] using hsome
        have hcode : command.code? (c.line + 1) = some code :=
          (Command.compile_eq_ok_iff.1 hcompile).2.2
        simp only [hsome]
        exact Or.inr ⟨_, _, rfl, rfl, fun _ _ => rfl,
          fun rest => .fragment rest hparse hcode hne⟩

/-- Lines without a command are passed over, up to the first answer at which a request ends. -/
theorem exists_stops_advance (c : Compilation) (source : List LineEvent) :
    ∃ (skipped : List String) (stop : List LineEvent), source = skipped.map .line ++ stop
      ∧ (∀ text ∈ skipped, ∀ number, Command.parse number text = .ok .comment)
      ∧ Stops (c.line + skipped.length) stop (c.advance source).item (c.advance source).rest
          (c.advance source).state.line := by
  induction source generalizing c with
  | nil => exact ⟨[], [], rfl, by simp, .ended⟩
  | cons event rest ih =>
      cases event with
      | exhausted => exact ⟨[], _, rfl, by simp, .exhausted rest⟩
      | failure error => exact ⟨[], _, rfl, by simp, .failure error rest⟩
      | line text =>
          rcases takeLine_cases c text with
            ⟨hcomment, htake⟩ | ⟨item, c', htake, hline, -, hstops⟩
          · -- the line is passed over, and the request goes on with one line more on the counter
            obtain ⟨skipped, stop, hsource, hskipped, hstop⟩ := ih { c with line := c.line + 1 }
            have hadvance : c.advance (.line text :: rest)
                = ({ c with line := c.line + 1 } : Compilation).advance rest := by
              rw [advance, htake]
            rw [hadvance]
            refine ⟨text :: skipped, stop, ?_, List.forall_mem_cons.2 ⟨hcomment, hskipped⟩, ?_⟩
            · rw [hsource, List.map_cons, List.cons_append]
            · rw [List.length_cons, Nat.add_comm skipped.length, ← Nat.add_assoc]
              exact hstop
          · have hadvance : c.advance (.line text :: rest) = ⟨some item, c', rest⟩ := by
              rw [advance, htake]
            rw [hadvance, hline]
            exact ⟨[], _, rfl, by simp, hstops rest⟩

theorem finished_advance_of_ne_error {c : Compilation} {source : List LineEvent}
    (h : ∀ error, (c.advance source).item ≠ some (.error error)) :
    (c.advance source).state.finished = c.finished := by
  induction source generalizing c with
  | nil => rfl
  | cons event rest ih =>
      cases event with
      | exhausted => rfl
      | failure error => exact absurd rfl (h (.io error))
      | line text =>
          rw [advance] at h ⊢
          rcases takeLine_cases c text with ⟨-, htake⟩ | ⟨item, c', htake, -, hopen, -⟩
          · rw [htake] at h ⊢
            exact ih h
          · rw [htake] at h ⊢
            cases item with
            | ok fragment => exact hopen fragment rfl
            | error error => exact absurd rfl (h error)

section Stops

variable {number after : Nat} {source rest : List LineEvent} {item : Option Item}

/-- The answers that are taken for the end of a request, and the lines among them. -/
theorem Stops.exists_taken (h : Stops number source item rest after) :
    ∃ taken, source = taken ++ rest ∧ after = number + (taken.filter LineEvent.isLine).length := by
  cases h with
  | ended => exact ⟨[], rfl, rfl⟩
  | exhausted => exact ⟨[.exhausted], rfl, rfl⟩
  | failure error => exact ⟨[.failure error], rfl, rfl⟩
  | @malformed text => exact ⟨[.line text], rfl, rfl⟩
  | @fragment text => exact ⟨[.line text], rfl, rfl⟩

theorem Stops.line_fragment {fragment : Fragment}
    (h : Stops number source (some (.ok fragment)) rest after) :
    fragment.line = number + 1 ∧ after = number + 1 := by
  cases h
  exact ⟨rfl, rfl⟩

end Stops

/-! ## Any number of requests -/

/-- A compilation, and the answers of its source that are left. -/
structure Progress where
  state : Compilation
  rest : List LineEvent

namespace Progress

/-- One request. -/
def pull (p : Progress) : Pull := p.state.next p.rest

theorem pull_of_finished {p : Progress} (h : p.state.finished = true) :
    p.pull = ⟨none, p.state, p.rest⟩ := next_of_finished h p.rest

/-- **One request.** While no error has been yielded, lines without a command are passed over, up
to the first answer at which a request ends. -/
theorem exists_stops {p : Progress} (h : p.state.finished = false) :
    ∃ (skipped : List String) (stop : List LineEvent), p.rest = skipped.map .line ++ stop
      ∧ (∀ text ∈ skipped, ∀ number, Command.parse number text = .ok .comment)
      ∧ Stops (p.state.line + skipped.length) stop p.pull.item p.pull.rest p.pull.state.line := by
  have hpull : p.pull = p.state.advance p.rest := by simp [pull, next, h]
  rw [hpull]
  exact exists_stops_advance p.state p.rest

/-- A request takes answers from the front, and counts the lines among them. -/
theorem exists_taken (p : Progress) :
    ∃ taken, p.rest = taken ++ p.pull.rest
      ∧ p.pull.state.line = p.state.line + (taken.filter LineEvent.isLine).length := by
  cases hfinished : p.state.finished with
  | true =>
      rw [pull_of_finished hfinished]
      exact ⟨[], rfl, rfl⟩
  | false =>
      obtain ⟨skipped, stop, hrest, -, hstops⟩ := exists_stops hfinished
      obtain ⟨taken, hstop, hline⟩ := hstops.exists_taken
      have hlines : (skipped.map LineEvent.line).filter LineEvent.isLine
          = skipped.map LineEvent.line := by
        rw [List.filter_eq_self, List.forall_mem_map]
        exact fun _ _ => rfl
      refine ⟨skipped.map .line ++ taken, ?_, ?_⟩
      · rw [List.append_assoc, ← hstop]
        exact hrest
      · rw [hline, List.filter_append, hlines, List.length_append, List.length_map, Nat.add_assoc]

theorem finished_pull_iff (p : Progress) :
    p.pull.state.finished = true ↔
      p.state.finished = true ∨ ∃ error, p.pull.item = some (.error error) := by
  cases hfinished : p.state.finished with
  | true =>
      rw [pull_of_finished hfinished, hfinished]
      simp
  | false =>
      have hpull : p.pull = p.state.advance p.rest := by simp [pull, next, hfinished]
      constructor
      · intro h
        by_contra hnone
        rw [not_or, not_exists] at hnone
        rw [hpull] at h hnone
        rw [finished_advance_of_ne_error hnone.2, hfinished] at h
        cases h
      · rintro (h | ⟨error, herror⟩)
        · cases h
        · obtain ⟨⟨item, c', rest⟩, hnext⟩ : ∃ step, p.state.next p.rest = step := ⟨_, rfl⟩
          have hitem : item = some (.error error) := by
            rw [pull, hnext] at herror
            exact herror
          subst hitem
          rw [pull, hnext]
          exact finished_of_next_error hnext

end Progress

/-- How far a compilation has got after so many requests. -/
def progress (script : List LineEvent) : Nat → Progress
  | 0 => ⟨.start, script⟩
  | n + 1 => ⟨(progress script n).pull.state, (progress script n).pull.rest⟩

/-- The answers that the request after so many others takes. -/
def taken (script : List LineEvent) (n : Nat) : List LineEvent :=
  (progress script n).rest.take
    ((progress script n).rest.length - (progress script (n + 1)).rest.length)

section Session

variable {script : List LineEvent} {n : Nat}

theorem request_eq_pull (script : List LineEvent) (n : Nat) :
    request n .start script = (progress script n).pull.item := by
  -- a request after one more is a request of the compilation that the first one leaves
  have hshift : ∀ k i, request k (progress script i).state (progress script i).rest
      = (progress script (i + k)).pull.item := by
    intro k
    induction k with
    | zero => exact fun i => rfl
    | succ k ih =>
        intro i
        rw [← Nat.add_assoc, Nat.add_right_comm]
        exact ih (i + 1)
  have hstart := hshift n 0
  rwa [Nat.zero_add] at hstart

/-- Each request takes what it takes from the front of what is left. -/
theorem rest_progress (script : List LineEvent) (n : Nat) :
    (progress script n).rest = taken script n ++ (progress script (n + 1)).rest
      ∧ (progress script (n + 1)).state.line
        = (progress script n).state.line + ((taken script n).filter LineEvent.isLine).length := by
  obtain ⟨front, hrest, hline⟩ := (progress script n).exists_taken
  have hnext : (progress script (n + 1)).rest = (progress script n).pull.rest := rfl
  have htaken : taken script n = front := by
    rw [taken, hnext, hrest, List.length_append, Nat.add_sub_cancel, List.take_left]
  rw [htaken]
  exact ⟨hrest, hline⟩

/-- Taken together, the requests have taken the script from its beginning. -/
theorem script_eq (script : List LineEvent) (n : Nat) :
    script = (List.range n).flatMap (taken script) ++ (progress script n).rest := by
  induction n with
  | zero => rfl
  | succ n ih =>
      calc script = (List.range n).flatMap (taken script) ++ (progress script n).rest := ih
        _ = (List.range n).flatMap (taken script)
              ++ (taken script n ++ (progress script (n + 1)).rest) := by
            rw [← (rest_progress script n).1]
        _ = (List.range (n + 1)).flatMap (taken script) ++ (progress script (n + 1)).rest := by
            rw [List.range_succ, List.flatMap_append, List.append_assoc]
            simp

theorem line_progress (script : List LineEvent) (n : Nat) :
    (progress script n).state.line
      = (((List.range n).flatMap (taken script)).filter LineEvent.isLine).length := by
  induction n with
  | zero => rfl
  | succ n ih =>
      rw [(rest_progress script n).2, ih, List.range_succ, List.flatMap_append, List.filter_append,
        List.length_append]
      simp

theorem line_le {m : Nat} (script : List LineEvent) (h : m ≤ n) :
    (progress script m).state.line ≤ (progress script n).state.line := by
  obtain ⟨k, rfl⟩ := Nat.exists_eq_add_of_le h
  induction k with
  | zero => exact Nat.le_refl _
  | succ k ih =>
      have hstep := (rest_progress script (m + k)).2
      have hle := ih (Nat.le_add_right m k)
      rw [← Nat.add_assoc]
      omega

theorem finished_progress_iff :
    (progress script n).state.finished = true ↔
      ∃ i < n, ∃ error, request i .start script = some (.error error) := by
  induction n with
  | zero =>
      constructor
      · intro h
        cases h
      · rintro ⟨i, hi, -⟩
        omega
  | succ n ih =>
      show (progress script n).pull.state.finished = true ↔ _
      rw [Progress.finished_pull_iff, ih, ← request_eq_pull]
      constructor
      · rintro (⟨i, hi, herror⟩ | herror)
        · exact ⟨i, by omega, herror⟩
        · exact ⟨n, by omega, herror⟩
      · rintro ⟨i, hi, herror⟩
        rcases Nat.lt_succ_iff_lt_or_eq.1 hi with hlt | rfl
        · exact Or.inl ⟨i, hlt, herror⟩
        · exact Or.inr herror

/-- **Until an error.** A request that no error has come before takes the answers up to the first
one at which a request ends. -/
theorem exists_stops_progress
    (h : ∀ i < n, ∀ error, request i .start script ≠ some (.error error)) :
    ∃ (skipped : List String) (stop : List LineEvent),
      (progress script n).rest = skipped.map .line ++ stop
      ∧ (∀ text ∈ skipped, ∀ number, Command.parse number text = .ok .comment)
      ∧ Stops ((progress script n).state.line + skipped.length) stop (request n .start script)
          (progress script (n + 1)).rest (progress script (n + 1)).state.line := by
  have hopen : (progress script n).state.finished = false := by
    rw [← Bool.not_eq_true, finished_progress_iff]
    rintro ⟨i, hi, error, herror⟩
    exact h i hi error herror
  rw [request_eq_pull]
  exact Progress.exists_stops hopen

/-- **From an error on** nothing happens any more. -/
theorem progress_of_error {i : Nat} {error : CompileError} (hi : i < n)
    (h : request i .start script = some (.error error)) :
    request n .start script = none ∧ progress script (n + 1) = progress script n := by
  have hfinished : (progress script n).state.finished = true :=
    finished_progress_iff.2 ⟨i, hi, error, h⟩
  have hpull := Progress.pull_of_finished hfinished
  rw [request_eq_pull, progress, hpull]
  exact ⟨rfl, rfl⟩

/-- The line of a fragment is the last one taken for it. -/
theorem line_of_fragment {fragment : Fragment}
    (h : request n .start script = some (.ok fragment)) :
    fragment.line = (progress script (n + 1)).state.line
      ∧ (progress script n).state.line < fragment.line := by
  have hbefore : ∀ i < n, ∀ error, request i .start script ≠ some (.error error) := by
    intro i hi error herror
    rw [(progress_of_error hi herror).1] at h
    cases h
  obtain ⟨skipped, stop, -, -, hstops⟩ := exists_stops_progress hbefore
  rw [h] at hstops
  obtain ⟨hline, hafter⟩ := hstops.line_fragment
  omega

end Session

/-! ## The main result -/

/-- **Requests to a source that may answer anything.** The requests take the answers of the source
one after the other, each once, and the counter is the number of lines among them. Until an error
is yielded, a request passes over lines without a command and takes the answers up to the first one
that ends it, which decides what it yields. The lines of fragments ascend. After an error nothing is
yielded, nothing is taken, and the counter stays. -/
theorem requests_take_answers (script : List LineEvent) :
    (∀ n, script = (List.range n).flatMap (taken script) ++ (progress script n).rest
        ∧ (progress script n).rest = taken script n ++ (progress script (n + 1)).rest)
      ∧ (∀ n, (progress script n).state.line
          = (((List.range n).flatMap (taken script)).filter LineEvent.isLine).length)
      ∧ (∀ n, (∀ i < n, ∀ error, request i .start script ≠ some (.error error)) →
          ∃ (skipped : List String) (stop : List LineEvent),
            (progress script n).rest = skipped.map .line ++ stop
            ∧ (∀ text ∈ skipped, ∀ number, Command.parse number text = .ok .comment)
            ∧ Stops ((progress script n).state.line + skipped.length) stop
                (request n .start script) (progress script (n + 1)).rest
                (progress script (n + 1)).state.line)
      ∧ (∀ i j fragment later, i < j → request i .start script = some (.ok fragment) →
          request j .start script = some (.ok later) → fragment.line < later.line)
      ∧ ∀ i j error, i < j → request i .start script = some (.error error) →
          request j .start script = none ∧ taken script j = []
            ∧ (progress script (j + 1)).state.line = (progress script (i + 1)).state.line := by
  refine ⟨fun n => ⟨script_eq script n, (rest_progress script n).1⟩, line_progress script,
    fun n => exists_stops_progress, ?_, ?_⟩
  · -- each fragment bears the number of the last line taken for it, and lines are only added
    intro i j fragment later hij hfragment hlater
    calc fragment.line = (progress script (i + 1)).state.line := (line_of_fragment hfragment).1
      _ ≤ (progress script j).state.line := line_le script hij
      _ < later.line := (line_of_fragment hlater).2
  · intro i j error hij herror
    obtain ⟨hnone, hsame⟩ := progress_of_error hij herror
    -- all later requests find what the one with the error has left
    have hstill : ∀ k, progress script (i + 1 + k) = progress script (i + 1) := by
      intro k
      induction k with
      | zero => rfl
      | succ k ih =>
          have hlater : i < i + 1 + k := by omega
          rw [← Nat.add_assoc, (progress_of_error hlater herror).2, ih]
    refine ⟨hnone, ?_, ?_⟩
    · rw [taken, hsame, Nat.sub_self, List.take_zero]
    · obtain ⟨k, rfl⟩ : ∃ k, j = i + 1 + k := ⟨j - i - 1, by omega⟩
      rw [hsame, hstill]

/-- A comment and a pause before a command, and a failure before the last line: the second request
yields the code of the second line, the third one the failure, and the last line is not taken. -/
theorem requests_take_answers_pause :
    let script : List LineEvent :=
      [.line "// start", .exhausted, .line "neg", .failure .notText, .line "neg"]
    request 0 .start script = none
      ∧ request 1 .start script = some (.ok ⟨2, .arithmetic (.unary .neg), Code.unary .neg⟩)
      ∧ request 2 .start script = some (.error (.io .notText))
      ∧ ∀ n, 2 < n → request n .start script = none ∧ taken script n = [] := by
  refine ⟨rfl, rfl, rfl, fun n hn => ?_⟩
  obtain ⟨-, -, -, -, hstill⟩ := requests_take_answers
    [.line "// start", .exhausted, .line "neg", .failure .notText, .line "neg"]
  obtain ⟨hnone, htaken, -⟩ := hstill 2 n (.io .notText) hn rfl
  exact ⟨hnone, htaken⟩

end Compilation

end HackStack
