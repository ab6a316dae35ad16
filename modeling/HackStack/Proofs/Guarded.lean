import HackStack.Proofs.Layout

set_option autoImplicit false

/-! # Guarded jumps

A jump goes where the register A points, so nothing can be said about it without the operation
before it. In the code of every command each jump comes right after the load of a label
(`Guarded`), and no label is declared between the two: a jump is never reached from elsewhere.
`Guarded.site` reads this off an operation of a program, whatever command it belongs to.
-/

namespace HackStack

/-- Code in which each jump comes right after the load of one of the names, and in which nothing
else jumps or depends on the labels. -/
inductive Guarded (names : List String) : List Instruction → Prop
  | nil : Guarded names []
  | label (name : String) {code : List Instruction} (hrest : Guarded names code) :
      Guarded names (.label name :: code)
  | plain {op : Operation} {code : List Instruction}
      (hplain : Instruction.isPlain (.operation op) = true) (hrest : Guarded names code) :
      Guarded names (.operation op :: code)
  | jump {name : String} {comp : Comp} {jump : Jump} {code : List Instruction}
      (hname : name ∈ names) (hrest : Guarded names code) :
      Guarded names (Instruction.load name :: Instruction.branch comp jump :: code)

namespace Guarded

variable {names more : List String} {code rest : List Instruction}

theorem of_plain (h : code.all Instruction.isPlain = true) : Guarded names code := by
  induction code with
  | nil => exact .nil
  | cons instruction code ih =>
      rw [List.all_cons, Bool.and_eq_true] at h
      cases instruction with
      | operation op => exact .plain h.1 (ih h.2)
      | label name => cases h.1

theorem append (h : Guarded names code) (hrest : Guarded names rest) :
    Guarded names (code ++ rest) := by
  induction h with
  | nil => exact hrest
  | label name _ ih => exact .label name ih
  | plain hplain _ ih => exact .plain hplain ih
  | jump hname _ ih => exact .jump hname ih

theorem mono (h : Guarded names code) (hsub : ∀ name ∈ names, name ∈ more) :
    Guarded more code := by
  induction h with
  | nil => exact .nil
  | label name _ ih => exact .label name ih
  | plain hplain _ ih => exact .plain hplain ih
  | jump hname _ ih => exact .jump (hsub _ hname) ih

end Guarded

/-! ## The code of commands -/

namespace Command

/-- The labels that the code of a command may jump to. -/
def references (line : Nat) (command : Command) : List String :=
  command.ownLabels line ++ command.target?.toList

theorem guarded_comparison (operator : Comparison) (line : Nat) :
    Guarded (Code.comparisonLabels operator line) (Code.comparison operator line) := by
  have htaken : (LabelStem.holds operator).label line ∈ Code.comparisonLabels operator line := by
    simp [Code.comparisonLabels]
  have hfails : (LabelStem.fails operator).label line ∈ Code.comparisonLabels operator line := by
    simp [Code.comparisonLabels]
  have hdone : LabelStem.done.label line ∈ Code.comparisonLabels operator line := by
    simp [Code.comparisonLabels]
  have hset : ∀ b : Bool, Guarded (Code.comparisonLabels operator line)
      (Code.setTop (if b then .minusOne else .zero)) := by
    intro b
    cases b with
    | false => exact .of_plain rfl
    | true => exact .of_plain rfl
  have hleave : Guarded (Code.comparisonLabels operator line)
      (Code.jumpTo (LabelStem.done.label line)) := .jump hdone .nil
  have htrue := (hset true).append hleave
  have hfalse := (hset false).append (.label (LabelStem.done.label line) .nil)
  exact .plain rfl (.plain rfl (.plain rfl (.plain rfl (.plain rfl (.jump htaken (.jump hfails
    (.label _ (htrue.append (.label _ hfalse)))))))))

/-- The code of every command is guarded by the labels of its jumps. -/
theorem guarded_code {line : Nat} {command : Command} {code : List Instruction}
    (h : command.code? line = some code) : Guarded (command.references line) code := by
  cases command with
  | push operand => exact .of_plain (Code.plain_push h)
  | pop operand => exact .of_plain (Code.plain_pop h)
  | arithmetic operator =>
      cases operator with
      | unary operator =>
          cases h
          cases operator <;> exact .of_plain rfl
      | binary operator =>
          cases h
          cases operator <;> exact .of_plain rfl
      | comparison operator =>
          cases h
          exact (guarded_comparison operator line).mono fun name hname =>
            List.mem_append_left _ hname
  | label name =>
      cases h
      exact .label name .nil
  | goto name =>
      cases h
      exact .jump (List.mem_singleton_self name) .nil
  | ifGoto name =>
      cases h
      have hpop : Guarded [name] Code.popD := .of_plain rfl
      exact hpop.append (.jump (List.mem_singleton_self name) .nil)
  | comment =>
      cases h
      exact .nil

end Command

namespace Source

/-- The labels that the code of fragments may jump to. -/
def references (fragments : List Fragment) : List String :=
  fragments.flatMap fun fragment => fragment.command.references fragment.line

end Source

open Source Processor

theorem IsCompiled.guarded {fragments : List Fragment} (h : IsCompiled fragments) :
    Guarded (references fragments) (instructions fragments) := by
  -- the labels are those of all fragments, while the induction is on some of them
  have hall : ∀ some : List Fragment, (∀ fragment ∈ some, fragment ∈ fragments) →
      Guarded (references fragments) (instructions some) := by
    intro some
    induction some with
    | nil => exact fun _ => .nil
    | cons fragment rest ih =>
        intro hsub
        have hmem := hsub fragment (List.mem_cons_self ..)
        have hcode := Command.guarded_code (h.code fragment hmem)
        have hfirst : Guarded (references fragments) fragment.code :=
          hcode.mono fun name hname => List.mem_flatMap.2 ⟨fragment, hmem, hname⟩
        exact hfirst.append (ih fun other hother => hsub other (List.mem_cons_of_mem _ hother))
  exact hall fragments fun _ hmem => hmem

/-! ## Operations of guarded code -/

/-- What the operation at a place of a program is: it neither jumps nor depends on the labels, or
it loads a label and a jump follows, or it jumps and has a label loaded before it. -/
inductive Site (names : List String) (program : Program) (pc : Nat) : Prop
  | plain {op : Operation} (hop : program.code[pc]? = some op)
      (hplain : Instruction.isPlain (.operation op) = true)
  | load {name : String} {comp : Comp} {jump : Jump} (hname : name ∈ names)
      (hop : program.code[pc]? = some (.symbol name))
      (hnext : program.code[pc + 1]? = some (.compute Dest.nowhere comp (some jump)))
  | jump {name : String} {comp : Comp} {jump : Jump} {before : Nat} (hname : name ∈ names)
      (hpc : pc = before + 1) (hload : program.code[before]? = some (.symbol name))
      (hop : program.code[pc]? = some (.compute Dest.nowhere comp (some jump)))

/-- The operation at a place is a jump. -/
def Program.JumpsAt (program : Program) (pc : Nat) : Prop :=
  ∃ dest comp jump, program.code[pc]? = some (.compute dest comp (some jump))

theorem Program.JumpsAt.lt_size {program : Program} {pc : Nat} (h : program.JumpsAt pc) :
    pc < program.code.size := by
  obtain ⟨dest, comp, jump, hop⟩ := h
  exact (Array.getElem?_eq_some_iff.1 hop).1

theorem Site.of_jumpsAt {names : List String} {program : Program} {pc : Nat}
    (h : Site names program pc) (hjumps : program.JumpsAt pc) :
    ∃ name ∈ names, ∃ before comp jump, pc = before + 1
      ∧ program.code[before]? = some (.symbol name)
      ∧ program.code[pc]? = some (.compute Dest.nowhere comp (some jump)) := by
  obtain ⟨dest, comp, jump, hjump⟩ := hjumps
  cases h with
  | plain hop hplain =>
      rw [hjump, Option.some.injEq] at hop
      subst hop
      cases hplain
  | load _ hop _ =>
      rw [hjump] at hop
      cases hop
  | jump hname hpc hload hop => exact ⟨_, hname, _, _, _, hpc, hload, hop⟩

namespace Guarded

variable {names : List String} {code : List Instruction} {program : Program} {pc k : Nat}

theorem site (h : Guarded names code) (hcode : Installed program pc code)
    (hk : k < (Code.operations code).length) : Site names program (pc + k) := by
  induction h generalizing pc k with
  | nil => cases hk
  | label name _ ih => exact ih hcode.2 hk
  | plain hplain _ ih =>
      cases k with
      | zero => exact .plain hcode.1 hplain
      | succ k =>
          have hrest := ih hcode.2 (Nat.lt_of_succ_lt_succ hk)
          rwa [Nat.add_assoc, Nat.add_comm 1 k] at hrest
  | jump hname _ ih =>
      obtain ⟨hload, hjump, hrest⟩ := hcode
      match k with
      | 0 => exact .load hname hload hjump
      | 1 => exact .jump hname rfl hload hjump
      | k + 2 =>
          have hsite := ih hrest (Nat.lt_of_succ_lt_succ (Nat.lt_of_succ_lt_succ hk))
          rwa [show pc + 1 + 1 + k = pc + (k + 2) by omega] at hsite

/-- Guarded code does not begin with a jump. -/
theorem not_jumpsAt_start (h : Guarded names code) (hcode : Installed program pc code)
    (hk : 0 < (Code.operations code).length) : ¬ program.JumpsAt pc := by
  rintro ⟨dest, comp, jump, hjump⟩
  induction h generalizing pc with
  | nil => cases hk
  | label name _ ih => exact ih hcode.2 hk hjump
  | plain hplain _ _ =>
      rw [hcode.1, Option.some.injEq] at hjump
      subst hjump
      cases hplain
  | jump _ _ _ =>
      rw [hcode.1, Option.some.injEq] at hjump
      cases hjump

/-- No label stands at a jump. -/
theorem not_jumpsAt_label (h : Guarded names code) (hcode : Installed program pc code)
    {name : String} (hname : Code.address? name code = some k)
    (hk : k < (Code.operations code).length) : ¬ program.JumpsAt (pc + k) := by
  induction h generalizing pc k with
  | nil => cases hk
  | label other hrest ih =>
      rw [Code.address?] at hname
      split at hname
      · cases hname
        exact hrest.not_jumpsAt_start hcode.2 hk
      · exact ih hcode.2 hname hk
  | plain _ _ ih =>
      rw [Code.address?, Option.map_eq_some_iff] at hname
      obtain ⟨n, hn, rfl⟩ := hname
      have hrest := ih hcode.2 hn (Nat.lt_of_succ_lt_succ hk)
      rwa [Nat.add_assoc, Nat.add_comm 1 n] at hrest
  | jump _ _ ih =>
      obtain ⟨-, -, hcode⟩ := hcode
      simp only [Instruction.load, Instruction.branch, Code.address?, Option.map_map,
        Option.map_eq_some_iff, Function.comp_apply] at hname
      obtain ⟨n, hn, rfl⟩ := hname
      have hrest := ih hcode hn (Nat.lt_of_succ_lt_succ (Nat.lt_of_succ_lt_succ hk))
      rwa [show pc + 1 + 1 + n = pc + (n + 1 + 1) by omega] at hrest

end Guarded

/-! ## Jump commands -/

namespace Code

/-- The code of a jump: something plain, then the load of the label and the jump itself. -/
def jumpAfter (first : List Instruction) (target : String) (comp : Comp) (jump : Jump) :
    List Instruction :=
  first ++ [Instruction.load target, Instruction.branch comp jump]

variable {first : List Instruction} {target : String} {comp : Comp} {jump : Jump} {op : Operation}
  {k : Nat}

theorem operations_jumpAfter : operations (jumpAfter first target comp jump)
    = operations first ++ [.symbol target, .compute Dest.nowhere comp (some jump)] :=
  operations_append _ _

theorem length_jumpAfter : (operations (jumpAfter first target comp jump)).length
    = (operations first).length + 2 := by
  rw [operations_jumpAfter, List.length_append]
  rfl

theorem isPlain_of_getElem? (hplain : first.all Instruction.isPlain = true)
    (hop : (operations first)[k]? = some op) : Instruction.isPlain (.operation op) = true := by
  obtain ⟨instruction, hmem, hoperation⟩ := List.mem_filterMap.1 (List.mem_of_getElem? hop)
  cases instruction with
  | label name => cases hoperation
  | operation other =>
      cases hoperation
      exact List.all_eq_true.1 hplain _ hmem

theorem getElem?_jumpAfter (hplain : first.all Instruction.isPlain = true)
    (hop : (operations (jumpAfter first target comp jump))[k]? = some op) :
    Instruction.isPlain (.operation op) = true
      ∨ (k + 2 = (operations (jumpAfter first target comp jump)).length ∧ op = .symbol target)
      ∨ (k + 1 = (operations (jumpAfter first target comp jump)).length
        ∧ op = .compute Dest.nowhere comp (some jump)) := by
  rw [length_jumpAfter]
  rw [operations_jumpAfter] at hop
  rcases Nat.lt_or_ge k (operations first).length with hlt | hge
  · rw [List.getElem?_append_left hlt] at hop
    exact Or.inl (isPlain_of_getElem? hplain hop)
  · obtain ⟨offset, rfl⟩ := Nat.exists_eq_add_of_le hge
    rw [List.getElem?_append_right hge, Nat.add_sub_cancel_left] at hop
    match offset with
    | 0 =>
        cases hop
        exact Or.inr (Or.inl ⟨by omega, rfl⟩)
    | 1 =>
        cases hop
        exact Or.inr (Or.inr ⟨by omega, rfl⟩)
    | offset + 2 => cases hop

theorem getElem?_jumpAfter_label
    (hk : k + 2 = (operations (jumpAfter first target comp jump)).length) :
    (operations (jumpAfter first target comp jump))[k]? = some (.symbol target) := by
  rw [length_jumpAfter, Nat.add_right_cancel_iff] at hk
  subst hk
  rw [operations_jumpAfter, List.getElem?_append_right (Nat.le_refl _), Nat.sub_self]
  rfl

end Code

theorem Command.code_of_target? {line : Nat} {command : Command} {code : List Instruction}
    {target : String} (h : command.code? line = some code)
    (htarget : command.target? = some target) :
    ∃ first comp jump, first.all Instruction.isPlain = true
      ∧ code = Code.jumpAfter first target comp jump := by
  cases command with
  | goto name =>
      cases h
      cases htarget
      exact ⟨[], .zero, .always, rfl, rfl⟩
  | ifGoto name =>
      cases h
      cases htarget
      exact ⟨Code.popD, .d, .notEqual, by decide, rfl⟩
  | _ => cases htarget

/-- Plain code can be executed from any state. -/
theorem exists_executeAll_of_plain {symbols : SymbolTable} (h : symbols.KnowsRegisters)
    {code : List Instruction} (hplain : code.all Instruction.isPlain = true) (s : Processor) :
    ∃ t, executeAll symbols code s = .ok t := by
  induction code generalizing s with
  | nil => exact ⟨s, rfl⟩
  | cons instruction code ih =>
      rw [List.all_cons, Bool.and_eq_true] at hplain
      obtain ⟨hfirst, hrest⟩ := hplain
      cases instruction with
      | label name => cases hfirst
      | operation op =>
          obtain ⟨u, hu⟩ : ∃ u, s.execute symbols op = .ok u := by
            cases op with
            | constant value => exact ⟨_, rfl⟩
            | compute dest comp jump => exact ⟨_, rfl⟩
            | symbol name =>
                obtain ⟨value, hvalue⟩ := Option.isSome_iff_exists.1 hfirst
                exact ⟨_, by rw [execute, h name value hvalue]⟩
          obtain ⟨t, ht⟩ := ih hrest u
          exact ⟨t, by rw [executeAll, hu]; exact ht⟩

end HackStack
