import HackStack.Proofs.Requests

set_option autoImplicit false

/-! # When an end is final

A request that yields nothing need not be the last one that matters: a source that has no line at
the moment may have one later, and a compilation goes on with it. So an end is not final for every
source (`end_is_not_final`). It is final exactly if nothing that the source answers after it yields
anything, or an error has been yielded before (`end_is_final_iff`); a source that stays without a
line once it has none is the plain case of that.
-/

namespace HackStack

namespace LineEvent

/-- Answers for which nothing is yielded: a pause, and a line without a command. -/
def IsSilent : LineEvent → Prop
  | .line text => ∀ number, Command.parse number text = .ok .comment
  | .failure _ => False
  | .exhausted => True

/-- Answers for which an error is yielded: a failure, and a line that cannot be read. -/
def IsRefused : LineEvent → Prop
  | .line text => ∀ number command, Command.parse number text ≠ .ok command
  | .failure _ => True
  | .exhausted => False

end LineEvent

namespace Compilation

variable {c c' : Compilation} {source source' : List LineEvent}

/-! ## One request -/

theorem request_congr (h : c.next source = c'.next source') (n : Nat) :
    request n c source = request n c' source' := by
  cases n with
  | zero => rw [request, request, h]
  | succ n => rw [request, request, h]

/-- A request while no error has been yielded. -/
theorem exists_stops_next (hopen : c.finished = false) (source : List LineEvent) :
    ∃ (skipped : List String) (stop : List LineEvent), source = skipped.map .line ++ stop
      ∧ (∀ event ∈ skipped.map LineEvent.line, event.IsSilent)
      ∧ Stops (c.line + skipped.length) stop (c.next source).item (c.next source).rest
          (c.next source).state.line := by
  have hnext : c.next source = c.advance source := by simp [next, hopen]
  obtain ⟨skipped, stop, hsource, hskipped, hstops⟩ := exists_stops_advance c source
  rw [hnext]
  exact ⟨skipped, stop, hsource, List.forall_mem_map.2 hskipped, hstops⟩

/-- Only an error finishes a compilation. -/
theorem finished_next_of_ne_error (hopen : c.finished = false)
    (h : ∀ error, (c.next source).item ≠ some (.error error)) :
    (c.next source).state.finished = false := by
  have hnext : c.next source = c.advance source := by simp [next, hopen]
  rw [hnext] at h ⊢
  rw [finished_advance_of_ne_error h, hopen]

section Stops

variable {number after : Nat} {stop rest : List LineEvent} {item : Option Item}

/-- A request that yields something ends at an answer that is not silent. -/
theorem Stops.exists_not_silent {yielded : Item} (h : Stops number stop (some yielded) rest after) :
    ∃ event, stop = event :: rest ∧ ¬ event.IsSilent := by
  cases h with
  | failure error => exact ⟨.failure error, rfl, id⟩
  | @malformed text _ hmalformed =>
      exact ⟨.line text, rfl, fun hsilent => hmalformed .comment (hsilent (number + 1))⟩
  | @fragment text command code _ hparse hcode hne =>
      refine ⟨.line text, rfl, fun hsilent => hne ?_⟩
      -- the command would be a comment, which has no code
      have hcomment : command = .comment := by
        have hsame := (hsilent (number + 1)).symm.trans hparse
        exact (Except.ok.inj hsame).symm
      rw [hcomment] at hcode
      exact (Option.some.inj hcode).symm

/-- A request that yields nothing ends at a pause, or with the answers. -/
theorem Stops.of_none (h : Stops number stop none rest after) :
    (stop = [] ∧ rest = []) ∨ stop = .exhausted :: rest := by
  cases h with
  | ended => exact Or.inl ⟨rfl, rfl⟩
  | exhausted => exact Or.inr rfl

/-- A request that yields a fragment ends at a line that can be read. -/
theorem Stops.exists_not_refused {fragment : Fragment}
    (h : Stops number stop (some (.ok fragment)) rest after) :
    ∃ event, stop = event :: rest ∧ ¬ event.IsRefused := by
  cases h with
  | @fragment text command code _ hparse =>
      exact ⟨.line text, rfl, fun hrefused => hrefused (number + 1) command hparse⟩

end Stops

theorem not_isRefused_of_isSilent {event : LineEvent} (h : event.IsSilent) : ¬ event.IsRefused := by
  cases event with
  | line text => exact fun hrefused => hrefused 0 .comment (h 0)
  | failure error => exact h.elim
  | exhausted => exact id

/-- A request that does not yield an error takes no answer that is refused. -/
theorem exists_taken_of_ne_error (hopen : c.finished = false)
    (h : ∀ error, (c.next source).item ≠ some (.error error)) :
    ∃ taken, source = taken ++ (c.next source).rest ∧ ∀ event ∈ taken, ¬ event.IsRefused := by
  obtain ⟨skipped, stop, hsource, hskipped, hstops⟩ := exists_stops_next hopen source
  have hread : ∀ event ∈ skipped.map LineEvent.line, ¬ event.IsRefused :=
    fun event hmem => not_isRefused_of_isSilent (hskipped event hmem)
  cases hitem : (c.next source).item with
  | none =>
      rw [hitem] at hstops
      rcases hstops.of_none with ⟨hstop, hrest⟩ | hstop
      · refine ⟨skipped.map .line, ?_, hread⟩
        rw [hrest, ← hstop]
        exact hsource
      · refine ⟨skipped.map .line ++ [.exhausted], ?_, ?_⟩
        · rw [List.append_assoc, List.singleton_append, ← hstop]
          exact hsource
        · rw [List.forall_mem_append, List.forall_mem_singleton]
          exact ⟨hread, id⟩
  | some item =>
      cases item with
      | error error => exact absurd hitem (h error)
      | ok fragment =>
          rw [hitem] at hstops
          obtain ⟨event, hstop, hevent⟩ := hstops.exists_not_refused
          refine ⟨skipped.map .line ++ [event], ?_, ?_⟩
          · rw [List.append_assoc, List.singleton_append, ← hstop]
            exact hsource
          · rw [List.forall_mem_append, List.forall_mem_singleton]
            exact ⟨hread, hevent⟩

/-! ## Silent answers -/

/-- From silent answers nothing is yielded, and what is left of them is silent. -/
theorem next_of_silent (c : Compilation) (h : ∀ event ∈ source, event.IsSilent) :
    (c.next source).item = none ∧ ∀ event ∈ (c.next source).rest, event.IsSilent := by
  cases hfinished : c.finished with
  | true =>
      rw [next_of_finished hfinished]
      exact ⟨rfl, h⟩
  | false =>
      obtain ⟨skipped, stop, hsource, -, hstops⟩ := exists_stops_next hfinished source
      have hstop : ∀ event ∈ stop, event.IsSilent := by
        intro event hmem
        apply h
        rw [hsource]
        exact List.mem_append_right _ hmem
      cases hitem : (c.next source).item with
      | some item =>
          rw [hitem] at hstops
          obtain ⟨event, heq, hevent⟩ := hstops.exists_not_silent
          exact absurd (hstop event (by simp [heq])) hevent
      | none =>
          rw [hitem] at hstops
          refine ⟨rfl, fun event hmem => hstop event ?_⟩
          rcases hstops.of_none with ⟨-, hrest⟩ | heq
          · rw [hrest] at hmem
            cases hmem
          · rw [heq]
            exact List.mem_cons_of_mem _ hmem

theorem request_of_silent (c : Compilation) (h : ∀ event ∈ source, event.IsSilent) (n : Nat) :
    request n c source = none := by
  induction n generalizing c source with
  | zero => exact (next_of_silent c h).1
  | succ n ih => exact ih (c.next source).state (next_of_silent c h).2

/-- Where the answers are not all silent, something is yielded sooner or later. -/
theorem exists_request_of_not_silent (hopen : c.finished = false)
    (h : ∃ event ∈ source, ¬ event.IsSilent) : ∃ n item, request n c source = some item := by
  -- a request that yields nothing takes silent answers only, and one of them at least
  induction hlength : source.length using Nat.strongRecOn generalizing c source with
  | _ length ih =>
      obtain ⟨skipped, stop, hsource, hskipped, hstops⟩ := exists_stops_next hopen source
      cases hitem : (c.next source).item with
      | some item => exact ⟨0, item, hitem⟩
      | none =>
          obtain ⟨event, hmem, hevent⟩ := h
          have hnone : ∀ error, (c.next source).item ≠ some (.error error) := by simp [hitem]
          have hopen' := finished_next_of_ne_error hopen hnone
          have hstop : event ∈ stop := by
            rw [hsource] at hmem
            exact (List.mem_append.1 hmem).resolve_left fun hleft => hevent (hskipped event hleft)
          rw [hitem] at hstops
          rcases hstops.of_none with ⟨hnil, -⟩ | heq
          · rw [hnil] at hstop
            cases hstop
          · have hrest : event ∈ (c.next source).rest := by
              rw [heq] at hstop
              rcases List.mem_cons.1 hstop with rfl | hrest
              · exact absurd trivial hevent
              · exact hrest
            have hshorter : (c.next source).rest.length < length := by
              rw [← hlength]
              conv => rhs; rw [hsource, heq]
              simp
              omega
            obtain ⟨n, item, hn⟩ := ih _ hshorter hopen' ⟨event, hrest, hevent⟩ rfl
            exact ⟨n + 1, item, hn⟩

/-! ## Ends -/

/-- After a pause that no error comes before, the answers that are not silent are reached. -/
theorem exists_request_after_pause {before after : List LineEvent} (hopen : c.finished = false)
    (hbefore : ∀ event ∈ before, ¬ event.IsRefused) (hafter : ∃ event ∈ after, ¬ event.IsSilent) :
    ∃ i j, i < j ∧ request i c (before ++ .exhausted :: after) = none
      ∧ request j c (before ++ .exhausted :: after) ≠ none := by
  induction before generalizing c with
  | nil =>
      have hnext : c.next (.exhausted :: after) = ⟨none, c, after⟩ := by
        simp [next, hopen, advance]
      obtain ⟨n, item, hn⟩ := exists_request_of_not_silent hopen hafter
      refine ⟨0, n + 1, Nat.succ_pos n, ?_, ?_⟩
      · rw [List.nil_append, request, hnext]
      · rw [List.nil_append, request, hnext, hn]
        simp
  | cons event before ih =>
      rw [List.forall_mem_cons] at hbefore
      obtain ⟨hevent, hbefore⟩ := hbefore
      -- one request more, if this answer ends a request
      have hshift : ∀ c' : Compilation, c'.finished = false →
          (∃ item, c.next (event :: before ++ .exhausted :: after)
            = ⟨item, c', before ++ .exhausted :: after⟩) →
          ∃ i j, i < j ∧ request i c (event :: before ++ .exhausted :: after) = none
            ∧ request j c (event :: before ++ .exhausted :: after) ≠ none := by
        rintro c' hopen' ⟨item, hnext⟩
        obtain ⟨i, j, hij, hi, hj⟩ := ih hopen' hbefore
        refine ⟨i + 1, j + 1, Nat.succ_lt_succ hij, ?_, ?_⟩
        · rw [request, hnext]
          exact hi
        · rw [request, hnext]
          exact hj
      cases event with
      | failure error => exact absurd trivial hevent
      | exhausted => exact hshift c hopen ⟨none, by simp [next, hopen, advance]⟩
      | line text =>
          rcases takeLine_cases c text with ⟨-, htake⟩ | ⟨item, c', htake, -, hkept, hstops⟩
          · -- the line is passed over by the request that takes it
            have hopen' : ({ c with line := c.line + 1 } : Compilation).finished = false := hopen
            have hnext : c.next (.line text :: before ++ .exhausted :: after)
                = ({ c with line := c.line + 1 } : Compilation).next
                    (before ++ .exhausted :: after) := by
              simp [next, hopen, advance, htake]
            obtain ⟨i, j, hij, hi, hj⟩ := ih hopen' hbefore
            refine ⟨i, j, hij, ?_, ?_⟩
            · rw [request_congr hnext]
              exact hi
            · rw [request_congr hnext]
              exact hj
          · have hopen' : c'.finished = false := by
              cases item with
              | ok fragment => rw [hkept fragment rfl, hopen]
              | error error =>
                  cases hstops [] with
                  | malformed _ hmalformed =>
                      refine absurd (fun number command hparse => ?_) hevent
                      exact hmalformed command (Command.parse_eq_ok_congr.1 hparse)
            exact hshift c' hopen' ⟨some item, by simp [next, hopen, advance, htake]⟩

/-- An end is final if after each pause all answers are silent, or an error has come before. -/
theorem request_of_none (hopen : c.finished = false)
    (h : ∀ before after, source = before ++ .exhausted :: after →
      (∃ event ∈ before, event.IsRefused) ∨ ∀ event ∈ after, event.IsSilent)
    {i j : Nat} (hij : i < j) (hi : request i c source = none) : request j c source = none := by
  induction i generalizing c source j with
  | zero =>
      obtain ⟨k, rfl⟩ : ∃ k, j = k + 1 := ⟨j - 1, by omega⟩
      obtain ⟨skipped, stop, hsource, hskipped, hstops⟩ := exists_stops_next hopen source
      have hitem : (c.next source).item = none := hi
      rw [hitem] at hstops
      have hrest : ∀ event ∈ (c.next source).rest, event.IsSilent := by
        rcases hstops.of_none with ⟨-, hrest⟩ | heq
        · simp [hrest]
        · rw [heq] at hsource
          refine (h _ _ hsource).resolve_left ?_
          rintro ⟨event, hmem, hevent⟩
          exact not_isRefused_of_isSilent (hskipped event hmem) hevent
      exact request_of_silent (c.next source).state hrest k
  | succ i ih =>
      obtain ⟨k, rfl⟩ : ∃ k, j = k + 1 := ⟨j - 1, by omega⟩
      by_cases herror : ∃ error, (c.next source).item = some (.error error)
      · obtain ⟨error, herror⟩ := herror
        obtain ⟨⟨item, c', rest⟩, hnext⟩ : ∃ step, c.next source = step := ⟨_, rfl⟩
        have hitem : item = some (.error error) := by
          rw [hnext] at herror
          exact herror
        subst hitem
        rw [request, hnext]
        exact request_of_finished (finished_of_next_error hnext) rest k
      · rw [not_exists] at herror
        obtain ⟨taken, hsource, htaken⟩ := exists_taken_of_ne_error hopen herror
        refine ih (finished_next_of_ne_error hopen herror) ?_ (Nat.lt_of_succ_lt_succ hij) hi
        intro before after hsplit
        have hwhole : source = (taken ++ before) ++ .exhausted :: after := by
          rw [List.append_assoc, ← hsplit]
          exact hsource
        refine (h _ _ hwhole).imp_left ?_
        rintro ⟨event, hmem, hevent⟩
        refine ⟨event, (List.mem_append.1 hmem).resolve_left fun hleft => ?_, hevent⟩
        exact htaken event hleft hevent

/-! ## The main result -/

/-- **When an end is final.** Whatever a source answers: that nothing is yielded means that nothing
will be yielded any more, exactly if after each pause of the source there are only pauses and lines
without a command, or a failure or a malformed line has come before the pause. -/
theorem end_is_final_iff (script : List LineEvent) :
    (∀ i j, i < j → request i .start script = none → request j .start script = none) ↔
      ∀ before after, script = before ++ .exhausted :: after →
        (∃ event ∈ before, event.IsRefused) ∨ ∀ event ∈ after, event.IsSilent := by
  constructor
  · rintro hfinal before after rfl
    by_contra hnone
    simp only [not_or, not_exists, not_and, not_forall] at hnone
    obtain ⟨hbefore, event, hmem, hevent⟩ := hnone
    obtain ⟨i, j, hij, hi, hj⟩ :=
      exists_request_after_pause (c := .start) rfl hbefore ⟨event, hmem, hevent⟩
    exact hj (hfinal i j hij hi)
  · intro h i j hij hi
    exact request_of_none rfl h hij hi

/-- A source that pauses before its only line: the first request yields nothing, the second one
the code of the line. -/
theorem end_is_not_final :
    ¬ ∀ script i j, i < j → request i .start script = none → request j .start script = none := by
  intro h
  have hlater := h [.exhausted, .line "add"] 0 1 Nat.zero_lt_one rfl
  cases hlater

end Compilation

end HackStack
