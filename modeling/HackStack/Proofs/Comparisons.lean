import HackStack.Proofs.SingleCommand

set_option autoImplicit false

/-! # What comparisons compare

The code of a comparison goes by the sign of the difference of its operands, and the difference
wraps. Two words are equal if and only if it is zero. But for words that are far apart it has the
wrong sign, and then `gt` and `lt` say the opposite of what holds of the signed numbers
(`AtFragment.compares_by_difference`): 32767 is not found greater than -1
(`AtFragment.large_difference_is_misjudged`).
-/

namespace HackStack

namespace Comparison

/-- Whether a comparison holds of two words, read as signed numbers. -/
def holdsOf (operator : Comparison) (x y : Word) : Bool :=
  match operator with
  | .eq => decide (x.toInt = y.toInt)
  | .gt => decide (y.toInt < x.toInt)
  | .lt => decide (x.toInt < y.toInt)

/-- Whether a comparison is misled by the sign of the difference. -/
def misjudges (operator : Comparison) (x y : Word) : Bool := operator != .eq && x.ssubOverflow y

/-- A difference that is too large for a word has the other sign. -/
theorem sign_of_ssubOverflow {x y : Word} (h : x.ssubOverflow y = true) :
    x.toInt < y.toInt ∧ 0 < (x - y).toInt ∨ y.toInt < x.toInt ∧ (x - y).toInt < 0 := by
  have hx := BitVec.toInt_lt (x := x)
  have hx' := BitVec.le_toInt x
  have hy := BitVec.toInt_lt (x := y)
  have hy' := BitVec.le_toInt y
  simp only [BitVec.ssubOverflow, Bool.or_eq_true, decide_eq_true_eq] at h
  rw [BitVec.toInt_sub, Int.bmod_def]
  rcases h with hlarge | hsmall
  · refine Or.inr ⟨by omega, ?_⟩
    split <;> omega
  · refine Or.inl ⟨by omega, ?_⟩
    split <;> omega

/-- The wrapped difference decides a comparison unless it misleads it. -/
theorem holds_sub (operator : Comparison) (x y : Word) :
    operator.holds (x - y) = (operator.holdsOf x y ^^ operator.misjudges x y) := by
  cases hoverflow : x.ssubOverflow y with
  | false =>
      have hdifference : (x - y).toInt = x.toInt - y.toInt :=
        BitVec.toInt_sub_of_not_ssubOverflow (by rw [hoverflow]; decide)
      have hexact : operator.misjudges x y = false := by
        rw [misjudges, hoverflow, Bool.and_false]
      rw [hexact, Bool.xor_false]
      cases operator <;> simp only [holds, holdsOf, hdifference, decide_eq_decide] <;> omega
  | true =>
      have hsign := sign_of_ssubOverflow hoverflow
      cases operator with
      | eq =>
          simp only [holds, holdsOf, misjudges, bne_self_eq_false, Bool.false_and, Bool.xor_false,
            decide_eq_decide]
          omega
      | gt =>
          have hmisled : misjudges .gt x y = true := hoverflow
          rw [hmisled, Bool.xor_true, holds, holdsOf, ← decide_not, decide_eq_decide]
          omega
      | lt =>
          have hmisled : misjudges .lt x y = true := hoverflow
          rw [hmisled, Bool.xor_true, holds, holdsOf, ← decide_not, decide_eq_decide]
          omega

end Comparison

theorem Word.ofBool_inj {a b : Bool} : Word.ofBool a = Word.ofBool b ↔ a = b := by
  cases a <;> cases b <;> decide

open Source Processor

namespace AtFragment

variable {source : String} {fragments : List Fragment} {program : Program} {i : Nat}
  {fragment : Fragment} {s : Processor}

/-- The words that are compared are the two topmost ones, as long as neither of them is SP. -/
theorem exists_compared (h : AtFragment source fragments program i fragment s)
    (hfits : (Code.operations (instructions fragments)).length ≤ 65535) {operator : Comparison}
    (hcommand : fragment.command = .arithmetic (.comparison operator))
    (hone : s.memory.sp ≠ 1) (htwo : s.memory.sp ≠ 2) :
    ∃ t, Steps program 12 s t ∧ t.pc = address fragments (i + 1)
      ∧ t.memory.sp = s.memory.sp - 1
      ∧ t.memory.read (t.memory.sp - 1) = Word.ofBool (operator.holds
          (s.memory.read (s.memory.sp - 2) - s.memory.read (s.memory.sp - 1))) := by
  obtain ⟨t, hsteps, hpc, hmemory⟩ := h.steps_comparison hfits hcommand
  have hresult : t.memory = s.memory.lowered.write (s.memory.sp - 2) (Word.ofBool (operator.holds
      (s.memory.read (s.memory.sp - 2) - s.memory.read (s.memory.sp - 1)))) := by
    have hundisturbed : (Command.arithmetic (.comparison operator)).IsUndisturbed s.memory :=
      ⟨hone, htwo⟩
    rw [hmemory, Command.result_settled hundisturbed]
    rfl
  have hne : (0 : Word) ≠ s.memory.sp - 2 := by bv_omega
  have hsp : t.memory.sp = s.memory.sp - 1 := by
    rw [hresult, Memory.sp, Memory.read_write_of_ne hne]
    exact Memory.sp_lowered
  refine ⟨t, hsteps, hpc, hsp, ?_⟩
  rw [hsp, Code.sub_one_sub_one, hresult, Memory.read_write_self]

/-- **Comparisons go by the difference.** Let the processor be about to execute a comparison in a
program that fits into words, with SP at 18 or above. When its code has been executed SP is one
less, and the word on top is the truth value of the comparison for the two words taken off the
stack, as signed numbers; but it is the opposite one if their difference is too large for a word
and the comparison is not for equality. So these are the only words that are compared wrongly. -/
theorem compares_by_difference (h : AtFragment source fragments program i fragment s)
    (hfits : (Code.operations (instructions fragments)).length ≤ 65535) {operator : Comparison}
    (hcommand : fragment.command = .arithmetic (.comparison operator))
    (hsp : 18 ≤ s.memory.sp.toNat) {x y : Word} (hx : s.memory.read (s.memory.sp - 2) = x)
    (hy : s.memory.read (s.memory.sp - 1) = y) :
    ∃ t, Steps program 12 s t ∧ t.pc = address fragments (i + 1)
      ∧ t.memory.sp = s.memory.sp - 1
      ∧ t.memory.read (t.memory.sp - 1)
          = Word.ofBool (operator.holdsOf x y ^^ operator.misjudges x y)
      ∧ (t.memory.read (t.memory.sp - 1) = Word.ofBool (operator.holdsOf x y)
          ↔ operator = .eq ∨ x.ssubOverflow y = false) := by
  have hone : s.memory.sp ≠ 1 := by bv_omega
  have htwo : s.memory.sp ≠ 2 := by bv_omega
  obtain ⟨t, hsteps, hpc, hlowered, htop⟩ := h.exists_compared hfits hcommand hone htwo
  rw [hx, hy, Comparison.holds_sub] at htop
  refine ⟨t, hsteps, hpc, hlowered, htop, ?_⟩
  have hright : operator.misjudges x y = false ↔ operator = .eq ∨ x.ssubOverflow y = false := by
    simp [Comparison.misjudges, Classical.or_iff_not_imp_left]
  rw [htop, Word.ofBool_inj, ← hright]
  cases operator.holdsOf x y <;> cases operator.misjudges x y <;> decide

/-- Any two words can be compared, by a source that does nothing else. -/
theorem exists_atFragment_comparison (operator : Comparison) (x y : Word) :
    ∃ fragments program s,
      AtFragment (Operator.comparison operator).keyword fragments program 0
          ⟨1, .arithmetic (.comparison operator), Code.comparison operator 1⟩ s
        ∧ (Code.operations (instructions fragments)).length = 17
        ∧ s.memory.sp = 258 ∧ s.memory.read 256 = x ∧ s.memory.read 257 = y := by
  have h : compile (Operator.comparison operator).keyword
      = .ok [⟨1, .arithmetic (.comparison operator), Code.comparison operator 1⟩] := by
    rw [compile_eq_yields]
    cases operator <;> rfl
  obtain ⟨program, hprogram⟩ := exists_load_of_compile h rfl
  obtain ⟨memory, hsp, hx, hy⟩ : ∃ memory : Memory,
      memory.sp = 258 ∧ memory.read 256 = x ∧ memory.read 257 = y := by
    refine ⟨(Memory.fill 0).writeAll [(0, 258), (256, x), (257, y)], ?_, ?_, ?_⟩ <;>
      simp [Memory.sp, Memory.writeAll, Memory.read_write]
  exact ⟨_, program, .start memory, ⟨h, hprogram, rfl, rfl⟩, rfl, hsp, hx, hy⟩

/-- -5 is found less than 3. -/
theorem compares_by_difference_lt :
    ∃ fragments program s t,
      AtFragment "lt" fragments program 0 ⟨1, .arithmetic (.comparison .lt), Code.comparison .lt 1⟩ s
        ∧ s.memory.sp = 258 ∧ s.memory.read 256 = -5 ∧ s.memory.read 257 = 3
        ∧ Steps program 12 s t ∧ t.memory.sp = 257 ∧ t.memory.read 256 = -1 := by
  obtain ⟨fragments, program, s, hat, hlength, hsp, hx, hy⟩ :=
    exists_atFragment_comparison .lt (-5) 3
  obtain ⟨t, hsteps, -, hlowered, htop, -⟩ :=
    compares_by_difference (x := -5) (y := 3) hat (by omega) rfl (by rw [hsp]; decide)
      (by rw [hsp]; exact hx) (by rw [hsp]; exact hy)
  have hbelow : t.memory.sp = 257 := by
    rw [hlowered, hsp]
    rfl
  rw [hbelow] at htop
  exact ⟨fragments, program, s, t, hat, hsp, hx, hy, hsteps, hbelow, htop⟩

/-- 32767 is not found greater than -1. -/
theorem large_difference_is_misjudged :
    ∃ fragments program s t,
      AtFragment "gt" fragments program 0 ⟨1, .arithmetic (.comparison .gt), Code.comparison .gt 1⟩ s
        ∧ (Code.operations (instructions fragments)).length ≤ 65535
        ∧ s.memory.sp = 258 ∧ s.memory.read 256 = 32767 ∧ s.memory.read 257 = -1
        ∧ Comparison.gt.holdsOf (s.memory.read 256) (s.memory.read 257) = true
        ∧ Steps program 12 s t ∧ t.pc = address fragments 1
        ∧ t.memory.sp = 257 ∧ t.memory.read 256 = 0 := by
  obtain ⟨fragments, program, s, hat, hlength, hsp, hx, hy⟩ :=
    exists_atFragment_comparison .gt 32767 (-1)
  obtain ⟨t, hsteps, hpc, hlowered, htop⟩ :=
    hat.exists_compared (by omega) rfl (by rw [hsp]; decide) (by rw [hsp]; decide)
  have hbelow : t.memory.sp = 257 := by
    rw [hlowered, hsp]
    rfl
  have hwrong : Comparison.gt.holds (s.memory.read 256 - s.memory.read 257) = false := by
    rw [hx, hy]
    decide
  rw [hbelow, hsp] at htop
  exact ⟨fragments, program, s, t, hat, by omega, hsp, hx, hy, by rw [hx, hy]; decide, hsteps, hpc,
    hbelow, htop.trans (congrArg Word.ofBool hwrong)⟩

end AtFragment

end HackStack
