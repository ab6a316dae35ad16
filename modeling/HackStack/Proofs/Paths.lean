import Mathlib.Data.List.TakeWhile
import HackStack.CommandLine.FileTree

set_option autoImplicit false

/-! # What paths lead to

Going along a path, said without the failures on the way: each step starts from a directory, and
names are not too long (`FileTree.Leads`). From this it follows which paths are those of files that
can be read (`FileTree.open?_cases`) and under which paths a file can be written
(`FileTree.write_eq_ok_iff`).

The second part is about extensions: how the name of an output file is made from that of an input
(`Path.replaceExtension_eq`).
-/

namespace HackStack

namespace Path

/-- A path that ends in a name has it as its last step. -/
theorem steps_of_getLast? {path name : String} (h : (pieces path).getLast? = some name)
    (hname : name ≠ ".") : steps path = (steps path).dropLast ++ [name] := by
  obtain ⟨before, hpieces⟩ := List.getLast?_eq_some_iff.1 h
  have hsteps : steps path = before.filter (· != ".") ++ [name] := by
    rw [steps, hpieces, List.filter_append, List.filter_cons_of_pos (by simpa using hname),
      List.filter_nil]
  rw [hsteps, List.dropLast_concat]

theorem endsInName_iff {path : String} :
    endsInName path = true ↔
      ∃ name, (pieces path).getLast? = some name ∧ name ≠ "." ∧ name ≠ ".." := by
  unfold endsInName
  cases (pieces path).getLast? with
  | none => simp
  | some piece => simp

end Path

namespace FileTree

open HackStack.Path

variable {t : FileTree} {place parent last : Place} {path name : String} {steps : List String}

/-! ## Going along a path -/

/-- Steps lead from a place to another one. Each of them starts from a directory; there may be
nothing at the last place. -/
inductive Leads (t : FileTree) : Place → List String → Place → Prop
  | here (place : Place) : Leads t place [] place
  | up {place last : Place} {rest : List String} (hplace : t.node? place = some .directory)
      (hrest : Leads t place.dropLast rest last) : Leads t place (".." :: rest) last
  | down {place last : Place} {name : String} {rest : List String}
      (hplace : t.node? place = some .directory) (hname : name ≠ "..")
      (hshort : name.utf8ByteSize ≤ longestName) (hrest : Leads t (place ++ [name]) rest last) :
      Leads t place (name :: rest) last

theorem walk_of_leads (h : t.Leads place steps last) : t.walk place steps = .ok last := by
  induction h with
  | here place => rfl
  | up hplace _ ih =>
      rw [walk, hplace]
      show (if longestName < "..".utf8ByteSize then _ else _) = _
      rw [if_neg (by decide), if_pos rfl]
      exact ih
  | down hplace hname hshort _ ih =>
      rw [walk, hplace]
      show (if longestName < _ then _ else _) = _
      rw [if_neg (Nat.not_lt_of_le hshort), if_neg hname]
      exact ih

theorem leads_of_walk (h : t.walk place steps = .ok last) : t.Leads place steps last := by
  induction steps generalizing place with
  | nil =>
      cases h
      exact .here _
  | cons step rest ih =>
      rw [walk] at h
      split at h
      · cases h
      · cases h
      · rename_i hplace
        split at h
        · cases h
        · rename_i hshort
          by_cases hup : step = ".."
          · rw [if_pos hup] at h
            subst hup
            exact .up hplace (ih h)
          · rw [if_neg hup] at h
            exact .down hplace hup (Nat.le_of_not_lt hshort) (ih h)

theorem walk_eq_ok_iff : t.walk place steps = .ok last ↔ t.Leads place steps last :=
  ⟨leads_of_walk, walk_of_leads⟩

theorem locate_eq_ok_iff :
    t.locate path steps = .ok place ↔
      path.utf8ByteSize ≤ longestPath ∧ t.Leads (t.origin path) steps place := by
  unfold locate
  by_cases hlong : longestPath < path.utf8ByteSize
  · rw [if_pos hlong]
    constructor
    · intro h
      cases h
    · rintro ⟨hshort, -⟩
      exact absurd hshort (Nat.not_le_of_lt hlong)
  · rw [if_neg hlong, walk_eq_ok_iff]
    constructor
    · exact fun h => ⟨Nat.le_of_not_lt hlong, h⟩
    · exact fun h => h.2

/-- A name as the last step: what is before it must be a directory. -/
theorem leads_append_name_iff (hname : name ≠ "..") :
    t.Leads place (steps ++ [name]) last ↔
      ∃ parent, t.Leads place steps parent ∧ t.node? parent = some .directory
        ∧ name.utf8ByteSize ≤ longestName ∧ last = parent ++ [name] := by
  constructor
  · intro h
    induction steps generalizing place with
    | nil =>
        cases h with
        | up => exact absurd rfl hname
        | down hplace _ hshort hrest =>
            cases hrest
            exact ⟨place, .here place, hplace, hshort, rfl⟩
    | cons step rest ih =>
        cases h with
        | up hplace hrest =>
            obtain ⟨parent, hleads, hparent⟩ := ih hrest
            exact ⟨parent, .up hplace hleads, hparent⟩
        | down hplace hstep hshort hrest =>
            obtain ⟨parent, hleads, hparent⟩ := ih hrest
            exact ⟨parent, .down hplace hstep hshort hleads, hparent⟩
  · rintro ⟨parent, hleads, hparent, hshort, rfl⟩
    induction hleads with
    | here place => exact .down hparent hname hshort (.here _)
    | up hplace _ ih => exact .up hplace (ih hparent)
    | down hplace hstep hlength _ ih => exact .down hplace hstep hlength (ih hparent)

/-! ## Files that can be read -/

/-- The path is that of a file with the content. -/
structure HasFile (t : FileTree) (path : String) (content : ByteArray) : Prop where
  short : path.utf8ByteSize ≤ longestPath
  /-- no slash or step `.` at the end asks for a directory -/
  names_file : namesDirectory path = false
  leads : ∃ place, t.Leads (t.origin path) (Path.steps path) place
    ∧ t.node? place = some (.file content)

theorem open?_of_locate (h : t.locate path (Path.steps path) = .ok place) :
    t.open? path =
      match t.node? place with
      | none => .error .noSuchFile
      | some .directory => .ok ⟨.empty, some .isADirectory⟩
      | some (.file content) =>
          if namesDirectory path then .error .notADirectory else .ok ⟨content, none⟩ := by
  unfold open?
  rw [h]
  rfl

/-- What can be opened is a file or a directory. -/
theorem open?_cases {source : ByteSource} (h : t.open? path = .ok source) :
    (∃ content, source = ⟨content, none⟩ ∧ t.HasFile path content)
      ∨ source = ⟨.empty, some .isADirectory⟩ := by
  cases hplace : t.locate path (Path.steps path) with
  | error error =>
      unfold open? at h
      rw [hplace] at h
      cases h
  | ok place =>
      obtain ⟨hshort, hleads⟩ := locate_eq_ok_iff.1 hplace
      rw [open?_of_locate hplace] at h
      split at h
      · cases h
      · cases h
        exact Or.inr rfl
      · rename_i content hnode
        split at h
        · cases h
        · rename_i hnames
          cases h
          exact Or.inl ⟨content, rfl, hshort, by simpa using hnames, place, hleads, hnode⟩

theorem open?_of_hasFile {content : ByteArray} (h : t.HasFile path content) :
    t.open? path = .ok ⟨content, none⟩ := by
  obtain ⟨place, hleads, hnode⟩ := h.leads
  have hplace := locate_eq_ok_iff.2 ⟨h.short, hleads⟩
  simp only [open?_of_locate hplace, hnode, h.names_file, Bool.false_eq_true, if_false]

/-! ## Files that can be written -/

/-- A file with a name can be written in a directory under a path. -/
structure IsWritable (t : FileTree) (path : String) (parent : Place) (name : String) : Prop where
  no_slash : endsInSlash path = false
  last : (pieces path).getLast? = some name
  is_name : name ≠ "." ∧ name ≠ ".."
  short : path.utf8ByteSize ≤ longestPath
  short_name : name.utf8ByteSize ≤ longestName
  leads : t.Leads (t.origin path) (Path.steps path).dropLast parent
  parent_directory : t.node? parent = some .directory
  not_directory : t.node? (parent ++ [name]) ≠ some .directory

theorem IsWritable.endsInName (h : t.IsWritable path parent name) : endsInName path = true :=
  endsInName_iff.2 ⟨name, h.last, h.is_name⟩

/-- The path of a file that can be written leads to its place. -/
theorem IsWritable.leads_place (h : t.IsWritable path parent name) :
    t.Leads (t.origin path) (Path.steps path) (parent ++ [name]) := by
  rw [steps_of_getLast? h.last h.is_name.1, leads_append_name_iff h.is_name.2]
  exact ⟨parent, h.leads, h.parent_directory, h.short_name, rfl⟩

theorem target?_of_endsInName (hname : endsInName path = true) (hslash : endsInSlash path = false) :
    t.target? path =
      match t.locate path (Path.steps path) with
      | .error error => .error error
      | .ok place =>
          match t.node? place with
          | some .directory => .error .isADirectory
          | some (.file _) => .ok place
          | none => .ok place := by
  unfold target?
  rw [hname, hslash]
  rfl

/-- Under a path that ends in a step `.` or `..` or in a slash nothing can be written. -/
theorem endsInName_of_target? (h : t.target? path = .ok place) :
    endsInName path = true ∧ endsInSlash path = false := by
  unfold target? at h
  cases hname : endsInName path with
  | false =>
      simp only [hname, Bool.not_false, if_true] at h
      cases h
  | true =>
      cases hslash : endsInSlash path with
      | false => exact ⟨rfl, rfl⟩
      | true =>
          simp only [hname, hslash, Bool.not_true, Bool.false_eq_true, if_false, if_true] at h
          cases h

theorem target?_of_isWritable (h : t.IsWritable path parent name) :
    t.target? path = .ok (parent ++ [name]) := by
  have hplace : t.locate path (Path.steps path) = .ok (parent ++ [name]) :=
    locate_eq_ok_iff.2 ⟨h.short, h.leads_place⟩
  rw [target?_of_endsInName h.endsInName h.no_slash, hplace]
  dsimp only
  split
  · rename_i hdirectory
    exact absurd hdirectory h.not_directory
  · rfl
  · rfl

theorem isWritable_of_target? (h : t.target? path = .ok place) :
    ∃ parent name, t.IsWritable path parent name ∧ place = parent ++ [name] := by
  obtain ⟨hends, hslash⟩ := endsInName_of_target? h
  obtain ⟨name, hlast, hname⟩ := endsInName_iff.1 hends
  rw [target?_of_endsInName hends hslash] at h
  cases hfound : t.locate path (Path.steps path) with
  | error error =>
      rw [hfound] at h
      cases h
  | ok found =>
      rw [hfound] at h
      have hplace : place = found ∧ t.node? found ≠ some .directory := by
        dsimp only at h
        split at h
        · cases h
        · rename_i content hnode
          rw [hnode]
          exact ⟨(Except.ok.inj h).symm, by simp⟩
        · rename_i hnode
          rw [hnode]
          exact ⟨(Except.ok.inj h).symm, by simp⟩
      obtain ⟨rfl, hnot⟩ := hplace
      obtain ⟨hshort, hleads⟩ := locate_eq_ok_iff.1 hfound
      rw [steps_of_getLast? hlast hname.1, leads_append_name_iff hname.2] at hleads
      obtain ⟨parent, hparent, hdirectory, hlength, rfl⟩ := hleads
      exact ⟨parent, name,
        ⟨hslash, hlast, hname, hshort, hlength, hparent, hdirectory, hnot⟩, rfl⟩

theorem write_eq_ok_iff {content : ByteArray} {t' : FileTree} :
    t.write path content = .ok t' ↔
      ∃ parent name, t.IsWritable path parent name
        ∧ t' = t.put (parent ++ [name]) (.file content) := by
  unfold write
  constructor
  · intro h
    cases htarget : t.target? path with
    | error error =>
        rw [htarget] at h
        cases h
    | ok place =>
        rw [htarget] at h
        obtain ⟨parent, name, hwritable, rfl⟩ := isWritable_of_target? htarget
        cases h
        exact ⟨parent, name, hwritable, rfl⟩
  · rintro ⟨parent, name, hwritable, rfl⟩
    rw [target?_of_isWritable hwritable]
    rfl

end FileTree

/-! ## Extensions -/

namespace Path

variable {path name front base ext : String}

/-- A path is what stands before its last name, and that name. -/
structure EndsWith (path front name : String) : Prop where
  eq : path = front ++ name
  no_slash : '/' ∉ name.toList
  nonempty : name ≠ ""
  /-- a slash stands before the name, or nothing -/
  bound : front = "" ∨ ∃ directory, front = directory ++ "/"

theorem pieces_eq_singleton (hslash : '/' ∉ name.toList) (hne : name ≠ "") :
    pieces name = [name] := by
  rw [pieces, List.splitOn_eq_singleton hslash, List.map_singleton, String.ofList_toList]
  exact List.filter_cons_of_pos (by simpa using hne)

theorem EndsWith.getLast?_pieces (h : EndsWith path front name) :
    (pieces path).getLast? = some name := by
  have hname := pieces_eq_singleton h.no_slash h.nonempty
  rcases h.bound with rfl | ⟨directory, rfl⟩
  · rw [h.eq, String.empty_append, hname]
    rfl
  · have hlist : path.toList = directory.toList ++ '/' :: name.toList := by
      rw [h.eq]
      simp
    have hsplit : path.toList.splitOn '/'
        = directory.toList.splitOn '/' ++ name.toList.splitOn '/' := by
      rw [hlist]
      exact List.splitOnP_append_cons _ _ (by decide)
    rw [pieces] at hname
    rw [pieces, hsplit, List.map_append, List.filter_append, hname, List.getLast?_concat]

theorem EndsWith.fileName? (h : EndsWith path front name) (hname : name ≠ ".") :
    fileName? path = if name = ".." then none else some name := by
  have hlast : (steps path).getLast? = some name := by
    rw [steps_of_getLast? h.getLast?_pieces hname, List.getLast?_concat]
  rw [Path.fileName?, hlast]

/-- The file name of a path for a file is what it ends with. -/
theorem exists_endsWith (h : fileName? path = some name)
    (hfile : FileTree.namesDirectory path = false) : ∃ front, EndsWith path front name := by
  obtain ⟨hslash, hdot⟩ := Bool.or_eq_false_iff.1 hfile
  obtain ⟨front, tail, hpath, hbound, htail⟩ : ∃ front tail, path = front ++ tail
      ∧ (front = "" ∨ ∃ directory, front = directory ++ "/") ∧ '/' ∉ tail.toList := by
    by_cases hmem : '/' ∈ path.toList.reverse
    · -- cut at the last slash, the first one from the end
      obtain ⟨after, before, hsplit, hafter⟩ := List.eq_append_cons_of_mem hmem
      have hlist : path.toList = before.reverse ++ '/' :: after.reverse := by
        rw [← List.reverse_reverse path.toList, hsplit]
        simp
      refine ⟨String.ofList before.reverse ++ "/", String.ofList after.reverse, ?_,
        Or.inr ⟨_, rfl⟩, by simpa using hafter⟩
      rw [← String.toList_inj, hlist]
      simp
    · exact ⟨"", path, String.empty_append.symm, Or.inl rfl, by simpa using hmem⟩
  have hne : tail ≠ "" := by
    rintro rfl
    rw [String.append_empty] at hpath
    rcases hbound with rfl | ⟨directory, rfl⟩
    · rw [hpath] at h
      cases h
    · rw [hpath, endsInSlash] at hslash
      simp at hslash
  have hends : EndsWith path front tail := ⟨hpath, htail, hne, hbound⟩
  have hname : tail ≠ "." := by
    rintro rfl
    rw [hends.getLast?_pieces] at hdot
    simp at hdot
  rw [hends.fileName? hname] at h
  split at h
  · cases h
  · rw [← Option.some.inj h]
    exact ⟨front, hends⟩

/-- A name with an extension has something before the dot, and no dot in the extension. -/
theorem exists_base (h : extension? name = some ext) :
    ∃ base, name = base ++ "." ++ ext ∧ base ≠ "" ∧ '.' ∉ ext.toList := by
  have hwhole := List.takeWhile_append_dropWhile (p := (· != '.')) (l := name.toList.reverse)
  unfold extension? at h
  dsimp only at h
  split at h
  · cases h
  · cases h
  · rename_i dot rest hnil hdrop
    obtain rfl := Option.some.inj h
    have hdot : dot = '.' := by
      have hhead := List.head?_dropWhile_not (· != '.') name.toList.reverse
      rw [hdrop] at hhead
      simpa using hhead
    have hrest : rest ≠ [] := by
      rintro rfl
      exact hnil rfl
    rw [hdrop, hdot] at hwhole
    refine ⟨String.ofList rest.reverse, ?_, by simpa using hrest, ?_⟩
    · rw [← String.toList_inj, ← List.reverse_inj]
      simp [hwhole]
    · intro hmem
      simp only [String.toList_ofList, List.mem_reverse] at hmem
      have hall := List.mem_takeWhile_imp hmem
      simp at hall

theorem dropTrailing_cons_cons {c d : Char} {tail : List Char} (hc : c ≠ '/')
    (hd : c = '.' → d ≠ '/') : dropTrailing (c :: d :: tail) = c :: d :: tail := by
  rw [dropTrailing.eq_def]
  split
  · rename_i heq
    exact absurd (List.cons.inj heq).1 hc
  · rename_i heq
    obtain ⟨hdot, htail⟩ := List.cons.inj heq
    exact absurd (List.cons.inj htail).1 (hd hdot)
  · rfl

/-- Nothing is dropped at the end of a name that has an extension. -/
theorem dropTrailing_of_base {rest : List Char} (hbase : base ≠ "") (hslash : '/' ∉ base.toList)
    (hext : '/' ∉ ext.toList) (hdot : '.' ∉ ext.toList) :
    dropTrailing (ext.toList.reverse ++ '.' :: (base.toList.reverse ++ rest))
      = ext.toList.reverse ++ '.' :: (base.toList.reverse ++ rest) := by
  cases hreversed : ext.toList.reverse with
  | nil =>
      -- the name ends in its dot, before which there is no slash
      obtain ⟨d, more, hmore⟩ := List.exists_cons_of_ne_nil
        (show base.toList.reverse ≠ [] by simpa using hbase)
      have hd : d ∈ base.toList := by
        rw [← List.mem_reverse, hmore]
        exact List.mem_cons_self
      rw [hmore]
      apply dropTrailing_cons_cons (by decide)
      rintro - rfl
      exact hslash hd
  | cons c more =>
      have hc : c ∈ ext.toList := by
        rw [← List.mem_reverse, hreversed]
        exact List.mem_cons_self
      have hcne : c ≠ '/' := by
        rintro rfl
        exact hext hc
      have hcdot : c ≠ '.' := by
        rintro rfl
        exact hdot hc
      cases more with
      | nil => exact dropTrailing_cons_cons hcne fun h => absurd h hcdot
      | cons d more => exact dropTrailing_cons_cons hcne fun h => absurd h hcdot

/-- What follows the last dot is cut off, and the new extension is put there if a file name is
left. -/
theorem replaceExtension_of_base (front : String) (hbase : base ≠ "") (hslash : '/' ∉ base.toList)
    (hext : '/' ∉ ext.toList) (hdot : '.' ∉ ext.toList) (new : String) :
    replaceExtension (front ++ (base ++ "." ++ ext)) new
      = if (fileName? (front ++ (base ++ "."))).isSome then front ++ (base ++ ".") ++ new
        else front ++ (base ++ ".") := by
  obtain ⟨before, hbefore⟩ :
      ∃ before, before = base.toList.reverse ++ front.toList.reverse := ⟨_, rfl⟩
  have hreversed : (front ++ (base ++ "." ++ ext)).toList.reverse
      = ext.toList.reverse ++ '.' :: before := by
    rw [hbefore]
    simp
  have hkept : dropTrailing (ext.toList.reverse ++ '.' :: before)
      = ext.toList.reverse ++ '.' :: before := by
    rw [hbefore]
    exact dropTrailing_of_base hbase hslash hext hdot
  have hcut : (ext.toList.reverse ++ '.' :: before).dropWhile (· != '.') = '.' :: before := by
    rw [List.dropWhile_append_of_pos]
    · rfl
    · intro c hc
      have hne : c ≠ '.' := by
        rintro rfl
        exact hdot (List.mem_reverse.1 hc)
      simpa using hne
  have hfront : String.ofList ('.' :: before).reverse = front ++ (base ++ ".") := by
    rw [hbefore, ← String.toList_inj]
    simp
  simp only [replaceExtension, hreversed, hkept, hcut, hfront]

/-- **Another extension.** The extension of a file's name is what follows its last dot, and is
replaced by another one, unless the name is `..` and the extension. -/
theorem replaceExtension_eq (h : hasExtension path ext = true)
    (hfile : FileTree.namesDirectory path = false) (new : String) :
    ∃ stem, path = stem ++ "." ++ ext
      ∧ (replaceExtension path new = stem ++ "." ++ new
        ∨ fileName? path = some (".." ++ ext)
          ∧ endsInName (replaceExtension path new) = false) := by
  obtain ⟨name, hname, hextension⟩ := Option.bind_eq_some_iff.1 (beq_iff_eq.1 h)
  obtain ⟨front, hends⟩ := exists_endsWith hname hfile
  obtain ⟨base, rfl, hbase, hdot⟩ := exists_base hextension
  have hslashes := hends.no_slash
  simp only [String.toList_append, List.mem_append, not_or] at hslashes
  obtain ⟨⟨hslash, -⟩, hslash'⟩ := hslashes
  -- what remains when the extension is cut off is a path that ends in the base and the dot
  have hcut : EndsWith (front ++ (base ++ ".")) front (base ++ ".") :=
    ⟨rfl, by simpa using hslash, by simp, hends.bound⟩
  have hreplace := replaceExtension_of_base front hbase hslash hslash' hdot new
  rw [← hends.eq] at hreplace
  refine ⟨front ++ base, by rw [hends.eq]; simp only [String.append_assoc], ?_⟩
  have hne : base ++ "." ≠ "." := by
    intro heq
    have hlength := congrArg (fun s => s.toList.length) heq
    have hnil : base.toList.length = 0 := by simpa using hlength
    exact hbase (by simpa using hnil)
  by_cases hup : base ++ "." = ".."
  · refine Or.inr ⟨by rw [hname, hup], ?_⟩
    rw [hreplace, hcut.fileName? hne, if_pos hup]
    show endsInName (front ++ (base ++ ".")) = false
    rw [← Bool.not_eq_true, endsInName_iff, hcut.getLast?_pieces]
    rintro ⟨other, hother, -, hother'⟩
    exact hother' ((Option.some.inj hother).symm.trans hup)
  · refine Or.inl ?_
    rw [hreplace, hcut.fileName? hne, if_neg hup]
    show front ++ (base ++ ".") ++ new = _
    simp only [String.append_assoc]

example : replaceExtension "d/x.y.vm" "asm" = "d/x.y.asm" := by decide

end Path

end HackStack
