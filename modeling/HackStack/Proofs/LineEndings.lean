import Mathlib.Data.List.Basic
import HackStack.Proofs.CompiledSource

set_option autoImplicit false

/-! # Lines of text and lines of bytes

What it means to cut a list into lines, said without splitting it (`Text.IsCut`). Text is cut at
characters and a stream at bytes; a character other than line feed and carriage return has no byte
of theirs in its encoding, so both ways yield the same lines (`Source.lines_toUTF8`).
-/

namespace HackStack

namespace Text

/-! ## Cutting at line feeds -/

section Cut

variable {α : Type}

/-- The lines that a line feed ends, without their endings, and what follows the last line feed. A
carriage return just before the line feed belongs to the ending. -/
inductive IsCut (lf cr : α) : List α → List (List α) → List α → Prop
  | rest {s : List α} (h : lf ∉ s) : IsCut lf cr s [] s
  | lineFeed {line s rest : List α} {more : List (List α)} (h : lf ∉ line)
      (hreturn : line.getLast? ≠ some cr) (hmore : IsCut lf cr s more rest) :
      IsCut lf cr (line ++ lf :: s) (line :: more) rest
  | returnLineFeed {line s rest : List α} {more : List (List α)} (h : lf ∉ line)
      (hmore : IsCut lf cr s more rest) :
      IsCut lf cr (line ++ cr :: lf :: s) (line :: more) rest

theorem exists_isCut (lf cr : α) (s : List α) : ∃ ended rest, IsCut lf cr s ended rest := by
  -- what follows the first line feed is shorter
  induction hlength : s.length using Nat.strongRecOn generalizing s with
  | _ n ih =>
      by_cases hmem : lf ∈ s
      · obtain ⟨line, tail, rfl, hline⟩ := List.eq_append_cons_of_mem hmem
        have hshorter : tail.length < n := by
          rw [← hlength, List.length_append, List.length_cons]
          omega
        obtain ⟨ended, rest, htail⟩ := ih tail.length hshorter tail rfl
        by_cases hreturn : line.getLast? = some cr
        · obtain ⟨body, rfl⟩ := List.getLast?_eq_some_iff.1 hreturn
          have hbody : lf ∉ body := fun h => hline (List.mem_append_left _ h)
          refine ⟨body :: ended, rest, ?_⟩
          rw [List.append_assoc]
          exact .returnLineFeed hbody htail
        · exact ⟨line :: ended, rest, .lineFeed hline hreturn htail⟩
      · exact ⟨[], s, .rest hmem⟩

variable [BEq α] [LawfulBEq α]

theorem dropReturn_of_ne {cr : α} {line : List α} (h : line.getLast? ≠ some cr) :
    dropReturn cr line = line := by
  rw [dropReturn, if_neg (by simpa using h)]

theorem dropReturn_append_return (cr : α) (line : List α) :
    dropReturn cr (line ++ [cr]) = line := by
  simp [dropReturn]

/-- Lists are cut in one way, the way in which lines are taken out of them. -/
theorem IsCut.eq {lf cr : α} (hne : lf ≠ cr) {s rest : List α} {ended : List (List α)}
    (h : IsCut lf cr s ended rest) : endedLines lf cr s = ended ∧ lastPiece lf s = rest := by
  induction h with
  | rest h => exact ⟨endedLines_of_not_mem h, lastPiece_of_not_mem h⟩
  | lineFeed h hreturn _ ih =>
      rw [endedLines_append_cons h, lastPiece_append_cons h, dropReturn_of_ne hreturn, ih.1]
      exact ⟨rfl, ih.2⟩
  | @returnLineFeed line s rest more h _ ih =>
      have hline : lf ∉ line ++ [cr] := by
        rw [List.mem_append, List.mem_singleton]
        exact fun hmem => hmem.elim h hne
      have hassoc : line ++ cr :: lf :: s = (line ++ [cr]) ++ lf :: s := by
        rw [List.append_assoc]
        rfl
      rw [hassoc, endedLines_append_cons hline, lastPiece_append_cons hline,
        dropReturn_append_return, ih.1]
      exact ⟨rfl, ih.2⟩

end Cut

/-- The lines of a text that is cut. -/
theorem lines_of_isCut {text : String} {ended : List (List Char)} {rest : List Char}
    (h : IsCut '\n' '\r' text.toList ended rest) :
    lines text = (ended ++ if rest = [] then [] else [rest]).map String.ofList := by
  obtain ⟨hended, hrest⟩ := h.eq (by decide)
  rw [lines, hended, hrest]
  simp only [List.isEmpty_iff]

/-- A line feed ends the first line of a text. -/
theorem lines_append_cons {line : List Char} (h : '\n' ∉ line) (rest : List Char) :
    lines (String.ofList (line ++ '\n' :: rest))
      = String.ofList (dropReturn '\r' line) :: lines (String.ofList rest) := by
  simp only [lines, String.toList_ofList, endedLines_append_cons h, lastPiece_append_cons h,
    List.cons_append, List.map_cons]

/-- A text without line feeds is one line, unless it is empty. -/
theorem lines_of_not_mem {line : List Char} (h : '\n' ∉ line) (hne : line ≠ []) :
    lines (String.ofList line) = [String.ofList line] := by
  simp [lines, endedLines_of_not_mem h, lastPiece_of_not_mem h, hne]

/-! ## Text made of lines -/

theorem ofLines_nil : ofLines [] = "" := rfl

theorem ofLines_cons (line : String) (rest : List String) :
    ofLines (line :: rest) = line ++ "\n" ++ ofLines rest := by
  rw [ofLines, List.map_cons, String.join_cons]
  rfl

theorem ofLines_append (before after : List String) :
    ofLines (before ++ after) = ofLines before ++ ofLines after := by
  rw [ofLines, List.map_append, String.join_append]
  rfl

/-- Lines without line endings in them are the lines of the text that they make. -/
theorem lines_ofLines {texts : List String}
    (h : ∀ line ∈ texts, '\n' ∉ line.toList ∧ '\r' ∉ line.toList) :
    lines (ofLines texts) = texts := by
  have hcut : IsCut '\n' '\r' (ofLines texts).toList (texts.map String.toList) [] := by
    induction texts with
    | nil => exact .rest (by simp [ofLines_nil])
    | cons line rest ih =>
        rw [List.forall_mem_cons] at h
        have hlist : (ofLines (line :: rest)).toList
            = line.toList ++ '\n' :: (ofLines rest).toList := by
          rw [ofLines_cons]
          simp
        rw [hlist]
        refine .lineFeed h.1.1 (fun hlast => h.1.2 ?_) (ih h.2)
        exact List.mem_of_getLast? hlast
  rw [lines_of_isCut hcut]
  simp [Function.comp_def]

/-! ## Encoded text -/

/-- The bytes of a text. -/
def encode (s : List Char) : List UInt8 := s.flatMap String.utf8EncodeChar

theorem encode_append (s t : List Char) : encode (s ++ t) = encode s ++ encode t :=
  List.flatMap_append

theorem encode_cons (c : Char) (s : List Char) :
    encode (c :: s) = String.utf8EncodeChar c ++ encode s := rfl

theorem toUTF8_eq_encode (text : String) : text.toUTF8 = (encode text.toList).toByteArray :=
  String.utf8Encode_toList.symm

theorem fromUTF8?_toUTF8 (text : String) : String.fromUTF8? text.toUTF8 = some text := by
  have hvalid : text.toUTF8.IsValidUTF8 := text.isValidUTF8
  rw [String.fromUTF8?, dif_pos hvalid]
  rfl

theorem fromUTF8?_encode (s : List Char) :
    String.fromUTF8? (encode s).toByteArray = some (String.ofList s) := by
  have hbytes := toUTF8_eq_encode (String.ofList s)
  rw [String.toList_ofList] at hbytes
  rw [← hbytes, fromUTF8?_toUTF8]

/-- A byte below 128 is the encoding of the character with its number, and part of no other. -/
theorem toNat_eq_of_mem_utf8EncodeChar {c : Char} {b : UInt8} (h : b ∈ String.utf8EncodeChar c)
    (hb : b.toNat < 128) : c.toNat = b.toNat := by
  have hc : c.toNat = c.val.toNat := rfl
  unfold String.utf8EncodeChar at h
  simp only at h
  split at h
  · rw [List.mem_singleton] at h
    rw [h, UInt8.toNat_ofNat', hc]
    omega
  · -- all bytes of a longer encoding are 128 or more
    split at h
    · simp only [List.mem_cons, List.not_mem_nil, or_false] at h
      rcases h with rfl | rfl <;> (rw [UInt8.toNat_ofNat'] at hb; omega)
    · split at h
      · simp only [List.mem_cons, List.not_mem_nil, or_false] at h
        rcases h with rfl | rfl | rfl <;> (rw [UInt8.toNat_ofNat'] at hb; omega)
      · simp only [List.mem_cons, List.not_mem_nil, or_false] at h
        rcases h with rfl | rfl | rfl | rfl <;> (rw [UInt8.toNat_ofNat'] at hb; omega)

theorem not_mem_encode {c : Char} {b : UInt8} (hb : b.toNat < 128) (hc : c.toNat = b.toNat)
    {s : List Char} (h : c ∉ s) : b ∉ encode s := by
  intro hmem
  obtain ⟨d, hd, hbyte⟩ := List.mem_flatMap.1 hmem
  have hvalue : d.toNat = c.toNat := (toNat_eq_of_mem_utf8EncodeChar hbyte hb).trans hc.symm
  have heq : d = c := Char.toNat_inj.1 hvalue
  exact h (heq ▸ hd)

theorem getLast?_encode_ne {c : Char} {b : UInt8} (hb : b.toNat < 128) (hc : c.toNat = b.toNat)
    {s : List Char} (h : s.getLast? ≠ some c) : (encode s).getLast? ≠ some b := by
  rcases List.eq_nil_or_concat s with rfl | ⟨body, d, rfl⟩
  · simp [encode]
  · intro hlast
    have hone : encode [d] = String.utf8EncodeChar d := by rw [encode_cons]; exact List.append_nil _
    have hmem : b ∈ String.utf8EncodeChar d := by
      have hne : String.utf8EncodeChar d ≠ [] := String.utf8EncodeChar_ne_nil
      rw [List.concat_eq_append, encode_append, hone, List.getLast?_append_of_ne_nil _ hne] at hlast
      exact List.mem_of_getLast? hlast
    have hvalue : d.toNat = c.toNat := (toNat_eq_of_mem_utf8EncodeChar hmem hb).trans hc.symm
    have heq : d = c := Char.toNat_inj.1 hvalue
    exact h (by simp [heq])

/-- The bytes of a text are cut where the text is. -/
theorem IsCut.encode {s rest : List Char} {ended : List (List Char)}
    (h : IsCut '\n' '\r' s ended rest) :
    IsCut ByteSource.lineFeed ByteSource.carriageReturn (encode s) (ended.map encode)
      (encode rest) := by
  have hlineFeed : String.utf8EncodeChar '\n' = [ByteSource.lineFeed] := by decide
  have hreturn : String.utf8EncodeChar '\r' = [ByteSource.carriageReturn] := by decide
  induction h with
  | rest h => exact .rest (not_mem_encode (by decide) (by decide) h)
  | lineFeed h hlast _ ih =>
      rw [encode_append, encode_cons, hlineFeed]
      exact .lineFeed (not_mem_encode (by decide) (by decide) h)
        (getLast?_encode_ne (by decide) (by decide) hlast) ih
  | returnLineFeed h _ ih =>
      rw [encode_append, encode_cons, encode_cons, hlineFeed, hreturn]
      exact .returnLineFeed (not_mem_encode (by decide) (by decide) h) ih

theorem eq_encode_of_fromUTF8? {bytes : List UInt8} {text : String}
    (h : String.fromUTF8? bytes.toByteArray = some text) : bytes = encode text.toList := by
  have hbytes : bytes.toByteArray = text.toUTF8 := by
    unfold String.fromUTF8? at h
    split at h
    · cases h
      rfl
    · cases h
  rw [toUTF8_eq_encode] at hbytes
  rw [← List.toList_data_toByteArray (l := bytes), hbytes, List.toList_data_toByteArray]

/-- Bytes are text if the lines that they are cut into are. -/
theorem exists_encode_of_isCut {s rest : List UInt8} {ended : List (List UInt8)}
    (h : IsCut ByteSource.lineFeed ByteSource.carriageReturn s ended rest)
    (hended : ∀ line ∈ ended, ∃ chars, line = encode chars) (hrest : ∃ chars, rest = encode chars) :
    ∃ chars, s = encode chars := by
  have hlineFeed : String.utf8EncodeChar '\n' = [ByteSource.lineFeed] := by decide
  have hreturn : String.utf8EncodeChar '\r' = [ByteSource.carriageReturn] := by decide
  induction h with
  | rest _ => exact hrest
  | lineFeed _ _ _ ih =>
      rw [List.forall_mem_cons] at hended
      obtain ⟨⟨line, rfl⟩, hmore⟩ := hended
      obtain ⟨tail, rfl⟩ := ih hmore hrest
      refine ⟨line ++ '\n' :: tail, ?_⟩
      rw [encode_append, encode_cons, hlineFeed]
      rfl
  | returnLineFeed _ _ ih =>
      rw [List.forall_mem_cons] at hended
      obtain ⟨⟨line, rfl⟩, hmore⟩ := hended
      obtain ⟨tail, rfl⟩ := ih hmore hrest
      refine ⟨line ++ '\r' :: '\n' :: tail, ?_⟩
      rw [encode_append, encode_cons, encode_cons, hlineFeed, hreturn]
      rfl

end Text

/-! ## The lines of a source -/

namespace ByteSource

open Text

/-- The line that bytes are, if they are text. -/
def lineOf (bytes : List UInt8) : Line :=
  match String.fromUTF8? bytes.toByteArray with
  | some text => .ok text
  | none => .error .notText

/-- The lines of the data. Where reading fails, the failure stands for the last line. -/
def lines (source : ByteSource) : List Line :=
  let data := source.data.data.toList
  let rest := lastPiece lineFeed data
  let last : List Line :=
    match source.fault with
    | some error => [.error error]
    | none => if rest.isEmpty then [] else [lineOf rest]
  (endedLines lineFeed carriageReturn data).map lineOf ++ last

theorem event_lineOf (bytes : List UInt8) : (lineOf bytes).event = lineEvent bytes := by
  rw [lineOf, lineEvent]
  cases String.fromUTF8? bytes.toByteArray <;> rfl

theorem events_eq (source : ByteSource) : source.events = source.lines.map Line.event := by
  have hlines : ∀ ended : List (List UInt8),
      (ended.map lineOf).map Line.event = ended.map lineEvent := by
    intro ended
    rw [List.map_map]
    exact List.map_congr_left fun bytes _ => event_lineOf bytes
  rw [events, lines, List.map_append, hlines]
  cases source.fault with
  | some error => rfl
  | none =>
      by_cases hrest : (lastPiece lineFeed source.data.data.toList).isEmpty = true
      · simp [hrest]
      · simp [hrest, event_lineOf]

/-- The lines of data that is cut, for any failure of reading. -/
theorem lines_of_isCut {source : ByteSource} {ended : List (List UInt8)} {rest : List UInt8}
    (h : IsCut lineFeed carriageReturn source.data.data.toList ended rest) :
    source.lines = ended.map lineOf ++
      match source.fault with
      | some error => [.error error]
      | none => if rest = [] then [] else [lineOf rest] := by
  obtain ⟨hended, hrest⟩ := h.eq (by decide)
  rw [lines, hended, hrest]
  simp only [List.isEmpty_iff]

theorem exists_encode_of_lineOf {bytes : List UInt8} {text : String}
    (h : lineOf bytes = .ok text) : ∃ chars, bytes = Text.encode chars := by
  unfold lineOf at h
  split at h
  · rename_i found hfound
    exact ⟨_, Text.eq_encode_of_fromUTF8? hfound⟩
  · cases h

/-- Data whose lines can all be read is text, and reading it does not fail. -/
theorem exists_text {bytes : ByteSource} (h : ∀ line ∈ bytes.lines, ∃ text, line = .ok text) :
    ∃ source : String, bytes = { data := source.toUTF8 } := by
  obtain ⟨data, fault⟩ := bytes
  obtain ⟨ended, rest, hcut⟩ := Text.exists_isCut lineFeed carriageReturn data.data.toList
  rw [lines_of_isCut hcut, List.forall_mem_append, List.forall_mem_map] at h
  obtain ⟨hended, hlast⟩ := h
  have hencoded : ∀ line ∈ ended, ∃ chars, line = Text.encode chars := by
    intro line hline
    obtain ⟨text, htext⟩ := hended line hline
    exact exists_encode_of_lineOf htext
  cases fault with
  | some error =>
      obtain ⟨text, htext⟩ := hlast _ (List.mem_singleton_self _)
      cases htext
  | none =>
      have hrest : ∃ chars, rest = Text.encode chars := by
        by_cases hempty : rest = []
        · exact ⟨[], hempty⟩
        · obtain ⟨text, htext⟩ := hlast (lineOf rest) (by simp [hempty])
          exact exists_encode_of_lineOf htext
      obtain ⟨chars, hchars⟩ := Text.exists_encode_of_isCut hcut hencoded hrest
      refine ⟨String.ofList chars, ?_⟩
      have hdata : data = (String.ofList chars).toUTF8 := by
        rw [Text.toUTF8_eq_encode, String.toList_ofList, ← hchars]
        apply ByteArray.ext
        rw [← Array.toList_inj, List.toList_data_toByteArray]
      rw [hdata]

end ByteSource

namespace Source

open Text

/-- A text and its bytes have the same lines. -/
theorem lines_toUTF8 (source : String) :
    ByteSource.lines { data := source.toUTF8 } = lines source := by
  obtain ⟨ended, rest, hcut⟩ := exists_isCut '\n' '\r' source.toList
  have hdata : source.toUTF8.data.toList = encode source.toList := by
    rw [toUTF8_eq_encode, List.toList_data_toByteArray]
  have hbytes := hcut.encode
  rw [← hdata] at hbytes
  have hline : ∀ line, ByteSource.lineOf (encode line) = .ok (String.ofList line) := by
    intro line
    rw [ByteSource.lineOf, fromUTF8?_encode]
  have hempty : encode rest = [] ↔ rest = [] := by
    cases rest with
    | nil => simp [encode]
    | cons c rest => simp [encode_cons, String.utf8EncodeChar_ne_nil]
  rw [ByteSource.lines_of_isCut hbytes, lines, Text.lines_of_isCut hcut]
  simp only [hempty, List.map_append, List.map_map]
  congr 1
  · exact List.map_congr_left fun line _ => hline line
  · by_cases hrest : rest = []
    · simp [hrest]
    · simp [hrest, hline]

end Source

end HackStack
