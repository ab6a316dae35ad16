import HackStack.CommandLine.Run
import HackStack.Proofs.EntryPoints
import HackStack.Proofs.Paths

set_option autoImplicit false

/-! # The program changes one file or none

What a run of the command line program does to the files of a tree (`CommandLine.all_or_nothing`):
with an exit code other than 0 nothing, and with 0 exactly what it is asked for. Lines are decoded
one by one; an input all of whose lines are text is a text as a whole (`ByteSource.exists_text`), so
success can be said in terms of what that text compiles to (`CommandLine.Succeeds`).
-/

namespace HackStack

/-! ## Compiling a file into memory -/

namespace Stream

variable {annotate : Bool}

theorem compile_of_assemble {source text : String}
    (h : Source.assemble annotate source = .ok text) :
    ∃ summary, (compile annotate { data := source.toUTF8 } {}).outcome = .ok summary
      ∧ (compile annotate { data := source.toUTF8 } {}).sink.written = text.toUTF8 := by
  -- both are said in terms of the first line that cannot be read, and there is none
  obtain ⟨hwritten, houtcome⟩ := Source.stream_eq annotate source
  rw [Source.assemble_eq] at h
  split at h
  · cases h
  · rename_i hnone
    rw [hnone] at houtcome
    rw [← Except.ok.inj h]
    exact ⟨_, houtcome, hwritten⟩

/-- Data that compiles is a text that does. -/
theorem exists_assemble_of_outcome {bytes : ByteSource} {summary : Summary}
    (h : (compile annotate bytes {}).outcome = .ok summary) :
    ∃ source text : String, bytes = { data := source.toUTF8 }
      ∧ Source.assemble annotate source = .ok text := by
  have hwrite : Sink.write {} (output annotate bytes)
      = (.ok (), { written := .empty ++ output annotate bytes }) := Sink.write_unbounded
  rw [(compile_of_write_ok hwrite).1] at h
  cases hfailure : Line.firstError? 1 bytes.lines with
  | some error =>
      rw [hfailure] at h
      cases h
  | none =>
      obtain ⟨source, rfl⟩ := ByteSource.exists_text (Line.exists_text_of_firstError? hfailure)
      rw [Source.lines_toUTF8] at hfailure
      have hnone : Source.failure? source = none := hfailure
      exact ⟨source, Fragment.textOf annotate (Source.accepted source), rfl,
        by rw [Source.assemble_eq, hnone]⟩

end Stream

namespace CommandLine

/-! ## The path of the output -/

/-- The path of the output: the one that is asked for, or else that of the input, with `asm` in
place of its last extension. -/
inductive Options.IsOutput (options : Options) : String → Prop
  | given {path : String} (h : options.output = some path) : IsOutput options path
  | replaced {stem : String} (hnone : options.output = none)
      (hinput : options.input = stem ++ ".vm") : IsOutput options (stem ++ ".asm")

variable {options : Options} {path other : String}

theorem Options.IsOutput.unique (h : options.IsOutput path) (h' : options.IsOutput other) :
    path = other := by
  cases h with
  | given h =>
      cases h' with
      | given h' => exact Option.some.inj (h.symm.trans h')
      | replaced hnone => cases h.symm.trans hnone
  | replaced hnone hinput =>
      cases h' with
      | given h' => cases hnone.symm.trans h'
      | replaced _ hinput' =>
          rw [hinput, String.append_left_inj] at hinput'
          rw [hinput']

/-- The path that is written to is this one, unless nothing is asked for and the input's name is
`..vm`. -/
theorem isOutput_outputPath (hextension : Path.hasExtension options.input "vm" = true)
    (hfile : FileTree.namesDirectory options.input = false) :
    options.IsOutput options.outputPath
      ∨ (options.output = none ∧ Path.fileName? options.input = some "..vm")
        ∧ Path.endsInName options.outputPath = false := by
  cases houtput : options.output with
  | some output =>
      have hpath : options.outputPath = output := by
        rw [Options.outputPath, houtput, Option.getD_some]
      rw [hpath]
      exact Or.inl (.given houtput)
  | none =>
      have hpath : options.outputPath = Path.replaceExtension options.input "asm" := by
        rw [Options.outputPath, houtput, Option.getD_none]
      obtain ⟨stem, hinput, hreplaced⟩ := Path.replaceExtension_eq hextension hfile "asm"
      rw [← hpath, String.append_assoc] at hreplaced
      rw [String.append_assoc] at hinput
      rcases hreplaced with hreplaced | ⟨hname, hnoname⟩
      · rw [hreplaced]
        exact Or.inl (.replaced houtput hinput)
      · exact Or.inr ⟨⟨rfl, hname⟩, hnoname⟩

/-! ## One compilation -/

/-- What has to hold of the files for a compilation to succeed: the input is a file with extension
`vm` and with a text that compiles, and the output can be written. -/
structure Succeeds (options : Options) (tree : FileTree) (source text path : String)
    (parent : Place) (name : String) : Prop where
  extension : Path.hasExtension options.input "vm" = true
  input : tree.HasFile options.input source.toUTF8
  compiles : Source.assemble options.annotate source = .ok text
  names_output : options.IsOutput path
  output : tree.IsWritable path parent name

variable {tree : FileTree}

/-- The exit code of a compilation and the tree after it. Every failure leaves the tree as it is. -/
def codeAndTree (options : Options) (tree : FileTree) : UInt32 × FileTree :=
  if Path.hasExtension options.input "vm" then
    match tree.open? options.input with
    | .error _ => (1, tree)
    | .ok source =>
        let result := Stream.compile options.annotate source {}
        match result.outcome with
        | .error _ => (1, tree)
        | .ok _ =>
            match tree.write options.outputPath result.sink.written with
            | .error _ => (1, tree)
            | .ok tree' => (0, tree')
  else (1, tree)

section Access

variable {α : Type} {path : String} {content : ByteArray}

theorem run_read_bind (f : Except IoError ByteSource → StateM FileTree α) :
    (treeAccess.read path >>= f).run tree = (f (tree.open? path)).run tree := rfl

theorem run_write_bind (f : Except IoError Unit → StateM FileTree α) :
    (treeAccess.write path content >>= f).run tree =
      match tree.write path content with
      | .error error => (f (.error error)).run tree
      | .ok tree' => (f (.ok ())).run tree' := by
  have hwrite : (treeAccess.write path content).run tree =
      (match tree.write path content with
        | .error error => pure (.error error)
        | .ok tree' => do
            set tree'
            return .ok () : StateM FileTree (Except IoError Unit)).run tree := rfl
  rw [StateT.run_bind, hwrite]
  cases tree.write path content with
  | error error => rfl
  | ok tree' => rfl

end Access

theorem code_compileFile (options : Options) (tree : FileTree) :
    (((compileFile treeAccess options).run tree).1.code,
      ((compileFile treeAccess options).run tree).2) = codeAndTree options tree := by
  unfold compileFile codeAndTree
  by_cases hextension : Path.hasExtension options.input "vm" = true
  · rw [if_pos hextension, if_pos hextension, run_read_bind]
    cases tree.open? options.input with
    | error error => rfl
    | ok source =>
        dsimp only
        cases (Stream.compile options.annotate source {}).outcome with
        | error error => rfl
        | ok summary =>
            dsimp only
            rw [run_write_bind]
            cases tree.write options.outputPath
                (Stream.compile options.annotate source {}).sink.written with
            | error error => rfl
            | ok tree' => rfl
  · rw [if_neg hextension, if_neg hextension]
    rfl

theorem codeAndTree_of_succeeds {source text name : String} {parent : Place}
    (h : Succeeds options tree source text options.outputPath parent name) :
    codeAndTree options tree = (0, tree.put (parent ++ [name]) (.file text.toUTF8)) := by
  obtain ⟨summary, houtcome, hwritten⟩ := Stream.compile_of_assemble h.compiles
  have hwrite : tree.write options.outputPath text.toUTF8
      = .ok (tree.put (parent ++ [name]) (.file text.toUTF8)) :=
    FileTree.write_eq_ok_iff.2 ⟨parent, name, h.output, rfl⟩
  rw [codeAndTree, if_pos h.extension, FileTree.open?_of_hasFile h.input]
  dsimp only
  rw [houtcome, hwritten]
  dsimp only
  rw [hwrite]

/-- A compilation that does not succeed fails with the same code, whatever the reason. -/
theorem codeAndTree_cases (options : Options) (tree : FileTree) :
    codeAndTree options tree = (1, tree)
      ∨ ∃ source text parent name,
          Succeeds options tree source text options.outputPath parent name := by
  unfold codeAndTree
  by_cases hextension : Path.hasExtension options.input "vm" = true
  · rw [if_pos hextension]
    cases hopen : tree.open? options.input with
    | error error => exact Or.inl rfl
    | ok bytes =>
        dsimp only
        cases houtcome : (Stream.compile options.annotate bytes {}).outcome with
        | error error => exact Or.inl rfl
        | ok summary =>
            -- what has been opened is a file, since reading a directory fails
            obtain ⟨source, text, rfl, hassemble⟩ := Stream.exists_assemble_of_outcome houtcome
            have hfile : tree.HasFile options.input source.toUTF8 := by
              rcases FileTree.open?_cases hopen with ⟨content, hcontent, hfile⟩ | hdirectory
              · cases hcontent
                exact hfile
              · have hfault : (none : Option IoError) = some .isADirectory :=
                  congrArg ByteSource.fault hdirectory
                cases hfault
            obtain ⟨-, -, hwritten⟩ := Stream.compile_of_assemble hassemble
            dsimp only
            rw [hwritten]
            cases hwrite : tree.write options.outputPath text.toUTF8 with
            | error error => exact Or.inl rfl
            | ok tree' =>
                obtain ⟨parent, name, hwritable, -⟩ := FileTree.write_eq_ok_iff.1 hwrite
                refine Or.inr ⟨source, text, parent, name, hextension, hfile, hassemble, ?_,
                  hwritable⟩
                rcases isOutput_outputPath hextension hfile.names_file with h | ⟨-, hnoname⟩
                · exact h
                · rw [hwritable.endsInName] at hnoname
                  cases hnoname
  · rw [if_neg hextension]
    exact Or.inl rfl

/-! ## Trees of one file -/

/-- A tree of one file, which is in the working directory. -/
def oneFile (name : String) (content : ByteArray) : FileTree :=
  { workingDirectory := [], entries := [([name], .file content)] }

section OneFile

variable {file name path : String} {content : ByteArray}

theorem origin_oneFile : (oneFile file content).origin path = [] := by
  unfold FileTree.origin
  exact ite_self _

theorem hasFile_oneFile (hsteps : Path.steps file = [file]) (hup : file ≠ "..")
    (hfile : FileTree.namesDirectory file = false)
    (hshort : file.utf8ByteSize ≤ Path.longestName) :
    (oneFile file content).HasFile file content := by
  refine ⟨hshort.trans (by decide), hfile, [file], ?_, ?_⟩
  · rw [origin_oneFile, hsteps]
    exact .down rfl hup hshort (.here _)
  · show List.lookup [file] [([file], FileNode.file content)] = _
    rw [List.lookup_cons_self]

theorem isWritable_oneFile (hpieces : Path.pieces name = [name]) (hname : name ≠ "." ∧ name ≠ "..")
    (hslash : Path.endsInSlash name = false) (hshort : name.utf8ByteSize ≤ Path.longestName) :
    (oneFile file content).IsWritable name [] name := by
  have hlast : (Path.pieces name).getLast? = some name := by
    rw [hpieces, List.getLast?_singleton]
  have hbefore : (Path.steps name).dropLast = [] := by
    rw [Path.steps, hpieces, List.filter_cons_of_pos (by simpa using hname.1), List.filter_nil]
    rfl
  refine ⟨hslash, hlast, hname, hshort.trans (by decide), hshort, ?_, rfl, ?_⟩
  · rw [origin_oneFile, hbefore]
    exact .here []
  · intro hdirectory
    have hlookup : List.lookup [name] [([file], FileNode.file content)] = some .directory :=
      hdirectory
    rw [List.lookup_cons] at hlookup
    split at hlookup
    · cases hlookup
    · cases hlookup

end OneFile

/-! ## The main result -/

variable {arguments : List String}

theorem runOnTree_of_compile (h : readArguments arguments = .ok (.compile options))
    (tree : FileTree) :
    ((runOnTree arguments tree).1.code, (runOnTree arguments tree).2) =
      codeAndTree options tree := by
  rw [← code_compileFile, runOnTree, run, h]

theorem runOnTree_of_not_compile
    (h : ∀ options, readArguments arguments ≠ .ok (.compile options)) :
    (runOnTree arguments tree).2 = tree := by
  rw [runOnTree, run]
  split
  · rfl
  · rfl
  · rfl
  · rename_i options hoptions
    exact absurd hoptions (h options)

/-- A compilation that is asked for either fails or has all that it needs. -/
theorem runOnTree_cases (hread : readArguments arguments = .ok (.compile options))
    (tree : FileTree) :
    ((runOnTree arguments tree).1.code = 1 ∧ (runOnTree arguments tree).2 = tree)
      ∨ ∃ source text parent name,
          Succeeds options tree source text options.outputPath parent name := by
  have hrun := runOnTree_of_compile hread tree
  rcases codeAndTree_cases options tree with hfailure | hsucceeds
  · rw [hfailure, Prod.mk.injEq] at hrun
    exact Or.inl hrun
  · exact Or.inr hsucceeds

theorem Succeeds.runOnTree_eq {source text name : String} {parent : Place}
    (h : Succeeds options tree source text path parent name)
    (hpath : options.IsOutput options.outputPath)
    (hread : readArguments arguments = .ok (.compile options)) :
    (runOnTree arguments tree).1.code = 0
      ∧ (runOnTree arguments tree).2 = tree.put (parent ++ [name]) (.file text.toUTF8) := by
  obtain rfl : path = options.outputPath := h.names_output.unique hpath
  have hrun := runOnTree_of_compile hread tree
  rw [codeAndTree_of_succeeds h, Prod.mk.injEq] at hrun
  exact hrun

/-- A compilation that ends with 0 has all that it needs, and writes to the path of the output. -/
theorem exists_succeeds_of_code (hread : readArguments arguments = .ok (.compile options))
    (hcode : (runOnTree arguments tree).1.code = 0) :
    options.IsOutput options.outputPath
      ∧ ∃ source text path parent name, Succeeds options tree source text path parent name := by
  rcases runOnTree_cases hread tree with ⟨hfailure, -⟩ | ⟨source, text, parent, name, h⟩
  · rw [hcode] at hfailure
    exact absurd hfailure (by decide)
  · exact ⟨h.names_output, source, text, _, parent, name, h⟩

/-- **All or nothing.** With an exit code other than 0, or if no compilation is asked for, the files
stay as they are. If a compilation ends with 0, then the input is a file with extension `vm` and
with a text that compiles, and the output can be written; the output file has the assembly text of
that text, and everything else is as before. Where these conditions hold the exit code is 0; this is
left open only for an input named `..vm` without a path for the output. -/
theorem all_or_nothing (arguments : List String) (tree : FileTree) :
    ((runOnTree arguments tree).1.code ≠ 0 → (runOnTree arguments tree).2 = tree)
      ∧ ((∀ options, readArguments arguments ≠ .ok (.compile options)) →
          (runOnTree arguments tree).2 = tree)
      ∧ ∀ options, readArguments arguments = .ok (.compile options) →
        ((runOnTree arguments tree).1.code = 0 →
          (∃ source text path parent name, Succeeds options tree source text path parent name)
          ∧ ∀ source text path parent name,
            Succeeds options tree source text path parent name →
              ∀ place, (runOnTree arguments tree).2.node? place =
                if place = parent ++ [name] then some (.file text.toUTF8) else tree.node? place)
        ∧ ((options.output = none → Path.fileName? options.input ≠ some "..vm") →
          ((runOnTree arguments tree).1.code = 0 ↔
            ∃ source text path parent name,
              Succeeds options tree source text path parent name)) := by
  refine ⟨fun hcode => ?_, runOnTree_of_not_compile, fun options hread =>
    ⟨fun hcode => ?_, fun hname => ⟨fun hcode => (exists_succeeds_of_code hread hcode).2, ?_⟩⟩⟩
  · -- what is not a request for a compilation has no access to files, whatever its code
    by_cases hcompile : ∃ options, readArguments arguments = .ok (.compile options)
    · obtain ⟨options, hread⟩ := hcompile
      rcases runOnTree_cases hread tree with ⟨-, htree⟩ | ⟨source, text, parent, name, h⟩
      · exact htree
      · exact absurd (h.runOnTree_eq h.names_output hread).1 hcode
    · rw [not_exists] at hcompile
      exact runOnTree_of_not_compile hcompile
  · obtain ⟨hpath, hsucceeds⟩ := exists_succeeds_of_code hread hcode
    refine ⟨hsucceeds, fun source text path parent name h place => ?_⟩
    rw [(h.runOnTree_eq hpath hread).2, FileTree.node?_put (by simp)]
  · -- the path of the output is what is written to, since the input's name is not the excluded one
    rintro ⟨source, text, path, parent, name, h⟩
    rcases isOutput_outputPath h.extension h.input.names_file with hpath | ⟨⟨hnone, hother⟩, -⟩
    · exact (h.runOnTree_eq hpath hread).1
    · exact absurd hother (hname hnone)

theorem assemble_neg : Source.assemble false "neg" = .ok "@SP\nA=M-1\nM=-M\n\n" := by
  decide +kernel

/-- A file that compiles to another one and to itself, one that does not compile, and a request that
is not for a compilation. -/
theorem all_or_nothing_neg :
    (runOnTree ["a.vm"] (oneFile "a.vm" "neg".toUTF8)).1.code = 0
      ∧ (runOnTree ["a.vm"] (oneFile "a.vm" "neg".toUTF8)).2.node? ["a.asm"]
          = some (.file "@SP\nA=M-1\nM=-M\n\n".toUTF8)
      ∧ (runOnTree ["a.vm"] (oneFile "a.vm" "neg".toUTF8)).2.node? ["a.vm"]
          = some (.file "neg".toUTF8)
      ∧ (runOnTree ["a.vm", "-oa.vm"] (oneFile "a.vm" "neg".toUTF8)).2.node? ["a.vm"]
          = some (.file "@SP\nA=M-1\nM=-M\n\n".toUTF8)
      ∧ (runOnTree ["a.vm", "-oa.vm"] (oneFile "a.vm" "neg\nend".toUTF8)).2
          = oneFile "a.vm" "neg\nend".toUTF8
      ∧ (runOnTree ["-V"] (oneFile "a.vm" "neg".toUTF8)).2 = oneFile "a.vm" "neg".toUTF8 := by
  have hread : readArguments ["a.vm"] = .ok (.compile ⟨"a.vm", none, false, 0⟩) := rfl
  have hreadItself : readArguments ["a.vm", "-oa.vm"]
      = .ok (.compile ⟨"a.vm", some "a.vm", false, 0⟩) := rfl
  have hreadVersion : readArguments ["-V"] = .ok .version := rfl
  have hfile : (oneFile "a.vm" "neg".toUTF8).HasFile "a.vm" "neg".toUTF8 :=
    hasFile_oneFile (by decide) (by decide) (by decide) (by decide)
  have houtput : Options.IsOutput ⟨"a.vm", none, false, 0⟩ ("a" ++ ".asm") := .replaced rfl rfl
  have h : Succeeds ⟨"a.vm", none, false, 0⟩ (oneFile "a.vm" "neg".toUTF8) "neg"
      "@SP\nA=M-1\nM=-M\n\n" "a.asm" [] "a.asm" :=
    { extension := by decide
      input := hfile
      compiles := assemble_neg
      names_output := houtput
      output := isWritable_oneFile (by decide) (by decide) (by decide) (by decide) }
  have hitself : Succeeds ⟨"a.vm", some "a.vm", false, 0⟩ (oneFile "a.vm" "neg".toUTF8) "neg"
      "@SP\nA=M-1\nM=-M\n\n" "a.vm" [] "a.vm" :=
    { extension := by decide
      input := hfile
      compiles := assemble_neg
      names_output := .given rfl
      output := isWritable_oneFile (by decide) (by decide) (by decide) (by decide) }
  obtain ⟨-, -, hcompile⟩ := all_or_nothing ["a.vm"] (oneFile "a.vm" "neg".toUTF8)
  obtain ⟨hfiles, hcode⟩ := hcompile _ hread
  have hzero := (hcode fun _ => by decide).2 ⟨_, _, _, _, _, h⟩
  have hnode := (hfiles hzero).2 _ _ _ _ _ h
  obtain ⟨-, -, hoverwrite⟩ := all_or_nothing ["a.vm", "-oa.vm"] (oneFile "a.vm" "neg".toUTF8)
  obtain ⟨hfilesItself, hcodeItself⟩ := hoverwrite _ hreadItself
  have hzeroItself := (hcodeItself fun _ => by decide).2 ⟨_, _, _, _, _, hitself⟩
  obtain ⟨hfailure, -⟩ := all_or_nothing ["a.vm", "-oa.vm"] (oneFile "a.vm" "neg\nend".toUTF8)
  obtain ⟨-, hversion, -⟩ := all_or_nothing ["-V"] (oneFile "a.vm" "neg".toUTF8)
  refine ⟨hzero, (hnode _).trans (if_pos rfl), (hnode _).trans (if_neg (by decide)),
    ((hfilesItself hzeroItself).2 _ _ _ _ _ hitself _).trans (if_pos rfl),
    hfailure (by decide +kernel), hversion ?_⟩
  intro options hoptions
  rw [hreadVersion] at hoptions
  cases hoptions

/-- No compilation succeeds whose output cannot be written. -/
theorem code_of_not_isWritable (hread : readArguments arguments = .ok (.compile options))
    (h : ∀ parent name, ¬ tree.IsWritable options.outputPath parent name) :
    (runOnTree arguments tree).1.code = 1 := by
  rcases runOnTree_cases hread tree with ⟨hcode, -⟩ | ⟨_, _, parent, name, hsucceeds⟩
  · exact hcode
  · exact absurd hsucceeds.output (h parent name)

/-- An output that is an argument of its own. -/
theorem readArguments_output {output : String} (hoption : isOption output = false)
    (hempty : output.isEmpty = false) :
    readArguments ["a.vm", "-o", output] = .ok (.compile ⟨"a.vm", some output, false, 0⟩) := by
  have hset : Draft.setOutput { input := some "a.vm" } output
      = .ok { input := some "a.vm", output := some output } := by
    rw [Draft.setOutput, hempty]
    rfl
  have hread : readArguments ["a.vm", "-o", output]
      = Draft.readAll { input := some "a.vm" } true [output] := rfl
  rw [hread, Draft.readAll, if_pos rfl, hoption, hset]
  rfl

/-- A name that is too long for a file, by one byte. -/
def longName : String := String.ofList (List.replicate (Path.longestName + 1) 'y')

theorem toList_longName : longName.toList = List.replicate (Path.longestName + 1) 'y' :=
  String.toList_ofList

theorem pieces_longName : Path.pieces longName = [longName] := by
  apply Path.pieces_eq_singleton
  · rw [toList_longName, List.mem_replicate]
    exact fun h => absurd h.2 (by decide)
  · intro hempty
    have hlength := congrArg (fun name : String => name.toList.length) hempty
    rw [toList_longName, List.length_replicate] at hlength
    exact absurd hlength (by decide)

/-- **An output that is refused.** The input is a file that compiles, and the output is no directory,
does not end in a slash and is to be written in the root, which is a directory. But its name is too
long. -/
theorem longName_refused :
    readArguments ["a.vm", "-o", longName] = .ok (.compile ⟨"a.vm", some longName, false, 0⟩)
      ∧ Path.hasExtension "a.vm" "vm" = true
      ∧ (oneFile "a.vm" "neg".toUTF8).HasFile "a.vm" "neg".toUTF8
      ∧ Source.assemble false "neg" = .ok "@SP\nA=M-1\nM=-M\n\n"
      ∧ Path.pieces longName = [longName]
      ∧ Path.endsInSlash longName = false
      ∧ (oneFile "a.vm" "neg".toUTF8).node? [] = some .directory
      ∧ (oneFile "a.vm" "neg".toUTF8).node? [longName] = none
      ∧ (runOnTree ["a.vm", "-o", longName] (oneFile "a.vm" "neg".toUTF8)).1.code = 1 := by
  have hempty : longName.isEmpty = false := by decide +kernel
  have hoption : isOption longName = false := by
    rw [isOption, toList_longName]
    rfl
  have hslash : Path.endsInSlash longName = false := by
    rw [Path.endsInSlash, toList_longName]
    rfl
  have hread := readArguments_output hoption hempty
  have hfile : (oneFile "a.vm" "neg".toUTF8).HasFile "a.vm" "neg".toUTF8 :=
    hasFile_oneFile (by decide) (by decide) (by decide) (by decide)
  refine ⟨hread, by decide, hfile, assemble_neg, pieces_longName, hslash, rfl, ?_, ?_⟩
  · have hne : ([longName] == ["a.vm"]) = false := by decide +kernel
    show List.lookup [longName] [(["a.vm"], FileNode.file "neg".toUTF8)] = none
    rw [List.lookup_cons, hne]
    rfl
  · -- what can be written has a name of at most 255 bytes, and this one has 256
    apply code_of_not_isWritable hread
    intro parent name hwritable
    have hlast : (Path.pieces longName).getLast? = some name := hwritable.last
    rw [pieces_longName, List.getLast?_singleton] at hlast
    obtain rfl := Option.some.inj hlast
    have hsize : longName.utf8ByteSize = Path.longestName + 1 := by decide +kernel
    have hshort := hwritable.short_name
    omega

end CommandLine

end HackStack
