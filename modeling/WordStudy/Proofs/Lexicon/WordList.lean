import Mathlib.Data.List.DropRight
import WordStudy.Lexicon.WordList
import WordStudy.Proofs.Text.Pieces
import WordStudy.Proofs.Text.Utf8

/-!
# Word lists that are written

A list is read line by line, so that **two files joined by a line feed** have the entries of the
first and then those of the second. Entries that are written one on a line are read as they were,
whichever way the lines end and whatever lines without entries stand between them.
-/

namespace WordStudy

namespace Text

/-! ## §1 Trimmed lines -/

theorem trim_eq_rdropWhile (text : List Char) :
    trim text = (text.dropWhile isBlank).rdropWhile isBlank := rfl

theorem trim_of_forall_isBlank {text : List Char} (h : ∀ c ∈ text, isBlank c = true) :
    trim text = [] := by
  rw [trim_eq_rdropWhile, List.dropWhile_eq_nil_iff.mpr h, List.rdropWhile_nil]

/-- A line begins, without the white space, with the first character that is none. -/
theorem head?_trim {indent : List Char} (hindent : ∀ c ∈ indent, isBlank c = true) {c : Char}
    (hc : isBlank c = false) (rest : List Char) : (trim (indent ++ c :: rest)).head? = some c := by
  have hdark : ¬isBlank c = true := by simp [hc]
  rw [trim_eq_rdropWhile, List.dropWhile_append_of_pos hindent, List.dropWhile_cons_of_neg hdark]
  -- What is dropped at the end is no more than what stands behind the character.
  obtain ⟨dropped, hkept⟩ := List.rdropWhile_prefix isBlank (c :: rest)
  cases htrim : (c :: rest).rdropWhile isBlank with
  | nil => exact absurd (List.rdropWhile_eq_nil_iff.mp htrim c List.mem_cons_self) hdark
  | cons d kept =>
    rw [htrim, List.cons_append] at hkept
    rw [List.head?_cons, (List.cons.inj hkept).1]

/-- A text without white space at its ends is trimmed to itself, with or without a carriage return
behind it. -/
theorem trim_append_return {text back : List Char} (hne : text ≠ [])
    (hfirst : isBlank (text.head hne) = false) (hlast : isBlank (text.getLast hne) = false)
    (hback : back = [] ∨ back = ['\r']) : trim (text ++ back) = text := by
  have hfront : (text ++ back).dropWhile isBlank = text ++ back := by
    cases text with
    | nil => exact absurd rfl hne
    | cons c text => exact List.dropWhile_cons_of_neg (by simpa using hfirst)
  have hend : text.rdropWhile isBlank = text :=
    List.rdropWhile_eq_self_iff.mpr fun _ => by simp [hlast]
  rw [trim_eq_rdropWhile, hfront]
  rcases hback with rfl | rfl
  · rw [List.append_nil, hend]
  · rw [List.rdropWhile_concat_pos _ _ _ (by decide), hend]

/-! ## §2 Words of a line -/

theorem join_eq_intercalate (separator : List Char) (pieces : List (List Char)) :
    join separator pieces = separator.intercalate pieces := by
  induction pieces with
  | nil => rfl
  | cons piece pieces ih =>
    cases pieces with
    | nil => simp [join, List.intercalate]
    | cons next pieces => rw [join, ih, List.intercalate_cons_cons]

/-- **A token**: characters that are no white space, at least one. -/
def IsToken (token : List Char) : Prop := token ≠ [] ∧ IsUncut isBlank token

instance (token : List Char) : Decidable (IsToken token) := instDecidableAnd

/-- **Tokens joined by single spaces are the words** of the text. -/
theorem words_intercalate {tokens : List (List Char)} (hne : tokens ≠ [])
    (htokens : ∀ token ∈ tokens, IsToken token) : words ([' '].intercalate tokens) = tokens := by
  rw [words, splitBy_intercalate hne (fun token htoken => (htokens token htoken).2) (by decide)]
  exact List.filter_eq_self.mpr fun token htoken => by simp [(htokens token htoken).1]

theorem intercalate_ne_nil {tokens : List (List Char)} (hne : tokens ≠ [])
    (htokens : ∀ token ∈ tokens, IsToken token) : [' '].intercalate tokens ≠ [] := by
  intro hnil
  have hwords := words_intercalate hne htokens
  rw [hnil] at hwords
  exact hne hwords.symm

theorem isBlank_getLast_token {token : List Char} (h : IsToken token) :
    isBlank (token.getLast h.1) = false := h.2 _ (List.getLast_mem h.1)

/-- What is joined ends with its last token. -/
theorem isBlank_getLast_intercalate {tokens : List (List Char)} (hne : tokens ≠ [])
    (htokens : ∀ token ∈ tokens, IsToken token) :
    isBlank (([' '].intercalate tokens).getLast (intercalate_ne_nil hne htokens)) = false := by
  induction tokens with
  | nil => exact absurd rfl hne
  | cons token tokens ih =>
    cases tokens with
    | nil =>
      simpa [List.intercalate] using isBlank_getLast_token (htokens token (by simp))
    | cons next tokens =>
      have hrest := fun t ht => htokens t (List.mem_cons_of_mem token ht)
      simp only [List.intercalate_cons_cons]
      rw [List.getLast_append_of_ne_nil _ (intercalate_ne_nil (List.cons_ne_nil _ _) hrest)]
      exact ih (List.cons_ne_nil _ _) hrest

end Text

open Text

namespace WordList

/-! ## §3 Files joined -/

theorem rawLines_ne_nil (bytes : List UInt8) : rawLines bytes ≠ [] := by
  cases bytes with
  | nil => exact List.cons_ne_nil _ _
  | cons b rest =>
    rw [rawLines]
    split
    · exact List.cons_ne_nil _ _
    · split <;> exact List.cons_ne_nil _ _

theorem rawLines_of_notMem {line : List UInt8} (h : 0x0A ∉ line) : rawLines line = [line] := by
  induction line with
  | nil => rfl
  | cons b rest ih =>
    have hb : b ≠ 0x0A := fun heq => h (heq ▸ List.mem_cons_self)
    simp [rawLines, ih fun hmem => h (List.mem_cons_of_mem _ hmem), hb]

/-- **A line feed** stands between the lines before it and those behind it. -/
theorem rawLines_append_cons (front rest : List UInt8) :
    rawLines (front ++ 0x0A :: rest) = rawLines front ++ rawLines rest := by
  induction front with
  | nil =>
    cases hrest : rawLines rest with
    | nil => exact absurd hrest (rawLines_ne_nil rest)
    | cons line lines => simp [rawLines, hrest]
  | cons b front ih =>
    cases hfront : rawLines front with
    | nil => exact absurd hfront (rawLines_ne_nil front)
    | cons line lines =>
      simp only [List.cons_append, rawLines, ih, hfront]
      split <;> rfl

/-- **Two files joined by a line feed** have the lines of the one and then those of the other. -/
theorem lines_append_cons (front rest : List UInt8) :
    lines (front ++ 0x0A :: rest) = lines front ++ lines rest := by
  rw [lines, rawLines_append_cons, List.map_append, List.filter_append]
  rfl

theorem entries_append_cons (front rest : List UInt8) :
    entries (front ++ 0x0A :: rest) = entries front ++ entries rest := by
  rw [entries, lines_append_cons, List.map_append]
  rfl

theorem stems_append_cons (front rest : List UInt8) :
    stems (front ++ 0x0A :: rest) = stems front ++ stems rest := by
  rw [stems, lines_append_cons, List.filterMap_append]
  rfl

end WordList

/-! ## §4 Lines that are written -/

/-- **The entry can be written on a line**: its word is one token of text, in upper case and without
`#` in front, and its definition is made of tokens with single spaces between them. -/
structure WordEntry.IsWritable (entry : WordEntry) : Prop where
  word : ∃ token, IsToken token ∧ token.head? ≠ some '#' ∧ entry.word = Utf8.encode token
  capital : ∀ b ∈ entry.word, isLower b = false
  definition : ∀ text, entry.definition = some text →
    ∃ tokens, tokens ≠ [] ∧ (∀ token ∈ tokens, IsToken token) ∧ text.toList = [' '].intercalate tokens

namespace WordList

/-- A line of a list file. -/
inductive Line where
  | entry (entry : WordEntry)
  | blank (text : List Char)
  /-- A `#` and anything behind it. -/
  | comment (indent : List Char) (bytes : List UInt8)
  deriving DecidableEq

namespace Line

/-- The bytes of a line without its end. A definition stands behind a space. -/
def bytes : Line → List UInt8
  | entry ⟨word, none⟩ => word
  | entry ⟨word, some text⟩ => word ++ 0x20 :: Utf8.bytesOf text
  | blank text => Utf8.encode text
  | comment indent bytes => Utf8.encode indent ++ 0x23 :: bytes

/-- The entry of a line that has one. -/
def entry? : Line → Option WordEntry
  | entry e => some e
  | _ => none

/-- The line is one line, and what it holds can be told. -/
def IsWritable : Line → Prop
  | entry e => e.IsWritable
  | blank text => ∀ c ∈ text, isBlank c = true ∧ c ≠ '\n'
  | comment indent bytes => (∀ c ∈ indent, isBlank c = true ∧ c ≠ '\n') ∧ 0x0A ∉ bytes

end Line

/-- How a line ends. -/
inductive LineEnd where
  | lineFeed
  | returnAndLineFeed
  deriving DecidableEq

/-- What stands between a line and the line feed. -/
def LineEnd.carriage : LineEnd → List UInt8
  | lineFeed => []
  | returnAndLineFeed => [0x0D]

/-- A file of lines, each with its end, and a last line that has none. -/
def file (lines : List (Line × LineEnd)) (last : Line) : List UInt8 :=
  (lines.flatMap fun (line, lineEnd) => line.bytes ++ lineEnd.carriage ++ [0x0A]) ++ last.bytes

/-- A line is trimmed, and it counts if it is not blank and does not begin with `#`. -/
theorem entries_of_notMem {line : List UInt8} (h : 0x0A ∉ line) {text : List Char}
    (htext : trim (Utf8.characters line) = text) :
    entries line = if text.isEmpty || text.head? == some '#' then [] else [entryOf text] := by
  simp only [entries, lines, rawLines_of_notMem h, List.map_cons, List.map_nil, htext]
  cases hempty : text.isEmpty <;> cases hsign : text.head? == some '#' <;> simp_all [bne]

/-- Tokens have no line feed, nor has what is made of them. -/
theorem isUncut_of_isToken {token : List Char} (h : IsToken token) : IsUncut (· == '\n') token := by
  intro c hc
  refine beq_eq_false_iff_ne.mpr ?_
  rintro rfl
  exact Bool.noConfusion ((h.2 _ hc).symm.trans (by decide : isBlank '\n' = true))

/-- Text without a line feed is one line. -/
theorem notMem_encode_of_isUncut {text : List Char} (h : IsUncut (· == '\n') text) :
    0x0A ∉ Utf8.encode text :=
  have hmem : '\n' ∉ text := fun hmem => by simpa using h _ hmem
  Utf8.notMem_encode (show '\n'.toNat < 128 by decide) hmem

/-- **An entry that can be written is read off its text**, which has no white space at its ends. -/
theorem exists_text_of_isWritable {entry : WordEntry} (h : entry.IsWritable) :
    ∃ text, ∃ hne : text ≠ [], (Line.entry entry).bytes = Utf8.encode text ∧
      IsUncut (· == '\n') text ∧
      isBlank (text.head hne) = false ∧ isBlank (text.getLast hne) = false ∧
      text.head? ≠ some '#' ∧ entryOf text = entry := by
  obtain ⟨word, definition⟩ := entry
  obtain ⟨token, htoken, hsign, rfl⟩ := h.word
  -- Capitals stay as they are, so the word written is the word read.
  have hupper : (Word.ofText (String.ofList token)).upper = Utf8.encode token := by
    simp only [Word.ofText, Utf8.bytesOf, String.toList_ofList]
    exact (List.map_congr_left fun b hb => if_neg (by simp [h.capital b hb])).trans (List.map_id' _)
  have hfirst : isBlank (token.head htoken.1) = false := htoken.2 _ (List.head_mem htoken.1)
  have hline := isUncut_of_isToken htoken
  cases definition with
  | none =>
    refine ⟨token, htoken.1, rfl, hline, hfirst, isBlank_getLast_token htoken, hsign, ?_⟩
    rw [entryOf, cutAt_of_isUncut htoken.2]
    exact congrArg (WordEntry.mk · none) hupper
  | some text =>
    obtain ⟨tokens, hne, htokens, htext⟩ := h.definition text rfl
    have hne' : text.toList ≠ [] := htext ▸ intercalate_ne_nil hne htokens
    have hrest : IsUncut (· == '\n') text.toList :=
      htext ▸ isUncut_intercalate (fun t ht => isUncut_of_isToken (htokens t ht)) (by decide)
    refine ⟨token ++ ' ' :: text.toList, by simp, ?_,
      hline.append (isUncut_cons.mpr ⟨by decide, hrest⟩), ?_, ?_, ?_, ?_⟩
    · rw [Utf8.encode_append, Utf8.encode_cons_of_lt (by decide)]
      rfl
    · rwa [List.head_append_of_ne_nil htoken.1]
    · rw [List.getLast_append_of_ne_nil _ (List.cons_ne_nil _ _), List.getLast_cons hne']
      simp only [htext]
      exact isBlank_getLast_intercalate hne htokens
    · rwa [List.head?_append_of_ne_nil _ htoken.1]
    · have hdefinition : join [' '] (words text.toList) = text.toList := by
        -- A definition of words parted by single blanks is the same after its blanks are joined.
        rw [htext, words_intercalate hne htokens, join_eq_intercalate]
      simp only [entryOf, cutAt_append htoken.2 (by decide : isBlank ' ' = true), hupper, hdefinition,
        String.ofList_toList, List.isEmpty_iff, hne', if_false]

/-- What stands between a line and the line feed is white space without a line feed. -/
theorem exists_carriage (lineEnd : LineEnd) :
    ∃ back : List Char, lineEnd.carriage = Utf8.encode back ∧ (back = [] ∨ back = ['\r']) ∧
      (∀ c ∈ back, isBlank c = true) ∧ IsUncut (· == '\n') back := by
  cases lineEnd with
  | lineFeed => exact ⟨[], rfl, .inl rfl, List.forall_mem_nil _, by decide⟩
  | returnAndLineFeed =>
    exact ⟨['\r'], rfl, .inr rfl, List.forall_mem_singleton.mpr (by decide), by decide⟩

/-- **A line that can be written has its own entry**, if it has one, whichever way it ends. -/
theorem entries_line {line : Line} (h : line.IsWritable) (lineEnd : LineEnd) :
    entries (line.bytes ++ lineEnd.carriage) = line.entry?.toList := by
  obtain ⟨back, hcarriage, hback, hblank, hline⟩ := exists_carriage lineEnd
  rw [hcarriage]
  cases line with
  | entry entry =>
    obtain ⟨text, hne, hbytes, htext, hfirst, hlast, hsign, hentry⟩ := exists_text_of_isWritable h
    have htrim : trim (Utf8.characters (Utf8.encode (text ++ back))) = text := by
      rw [Utf8.characters_encode, trim_append_return hne hfirst hlast hback]
    rw [hbytes, ← Utf8.encode_append,
      entries_of_notMem (notMem_encode_of_isUncut (htext.append hline)) htrim, hentry,
      if_neg (by simp [hne, hsign])]
    rfl
  | blank text =>
    have htrim : trim (Utf8.characters (Utf8.encode (text ++ back))) = [] := by
      rw [Utf8.characters_encode, trim_of_forall_isBlank]
      exact List.forall_mem_append.mpr ⟨fun c hc => (h c hc).1, hblank⟩
    have htext : IsUncut (· == '\n') text := fun c hc => by simpa using (h c hc).2
    rw [Line.bytes, ← Utf8.encode_append,
      entries_of_notMem (notMem_encode_of_isUncut (htext.append hline)) htrim]
    rfl
  | comment indent bytes =>
    obtain ⟨hindent, hbytes⟩ := h
    -- Whatever the bytes behind the sign are read as, the line begins with the sign.
    have hread : Utf8.characters (0x23 :: (bytes ++ Utf8.encode back)) =
        '#' :: Utf8.characters (bytes ++ Utf8.encode back) :=
      Utf8.characters_encode_append ['#'] _
    have hsign : (trim (Utf8.characters (Utf8.encode indent ++
        0x23 :: (bytes ++ Utf8.encode back)))).head? = some '#' := by
      rw [Utf8.characters_encode_append, hread]
      exact head?_trim (fun c hc => (hindent c hc).1) (by decide) _
    have htext : IsUncut (· == '\n') indent := fun c hc => by simpa using (hindent c hc).2
    have hnotMem : 0x0A ∉ Utf8.encode indent ++ 0x23 :: (bytes ++ Utf8.encode back) := by
      simp [notMem_encode_of_isUncut htext, notMem_encode_of_isUncut hline, hbytes]
    rw [Line.bytes, List.append_assoc, List.cons_append, entries_of_notMem hnotMem rfl, hsign,
      if_pos (by simp)]
    rfl

/-! ## §5 Files that are written -/

/-- **A file of lines that can be written has their entries**, in order. -/
theorem entries_file {lines : List (Line × LineEnd)} {last : Line}
    (hlines : ∀ line ∈ lines, line.1.IsWritable) (hlast : last.IsWritable) :
    entries (file lines last) = (lines.map (·.1) ++ [last]).filterMap Line.entry? := by
  -- One line after another, each up to its line end; the last one has none.
  induction lines with
  | nil =>
    have hread := entries_line hlast .lineFeed
    rw [LineEnd.carriage, List.append_nil] at hread
    rw [file, List.flatMap_nil, List.nil_append, hread]
    cases hentry : last.entry? <;> simp [hentry]
  | cons line lines ih =>
    obtain ⟨line, lineEnd⟩ := line
    have hfile : file ((line, lineEnd) :: lines) last =
        (line.bytes ++ lineEnd.carriage) ++ 0x0A :: file lines last := by
      simp [file]
    rw [hfile, entries_append_cons, entries_line (hlines _ List.mem_cons_self) lineEnd,
      ih fun other hother => hlines other (List.mem_cons_of_mem _ hother)]
    cases hentry : line.entry? <;> simp [hentry]

/-- **What is read of a list.** Two files joined by a line feed have the entries, or the stems, of
the one and then those of the other, whatever bytes they are made of. And entries that are written
one on a line are read as they were, in order, with either kind of line end, with or without one
behind the last line, and with any blank lines and lines that begin with `#` among them. -/
theorem entries_of_written_lines :
    (∀ front rest, entries (front ++ 0x0A :: rest) = entries front ++ entries rest) ∧
    (∀ front rest, stems (front ++ 0x0A :: rest) = stems front ++ stems rest) ∧
    ∀ lines last, (∀ line ∈ lines, line.1.IsWritable) → last.IsWritable →
      entries (file lines last) = (lines.map (·.1) ++ [last]).filterMap Line.entry? :=
  ⟨entries_append_cons, stems_append_cons, fun _ _ hlines hlast => entries_file hlines hlast⟩

/-- A comment of bytes that are no text, `CAFÉ` with a definition and `DOG` without one. -/
theorem entries_of_four_lines :
    ∃ lines last, (∀ line ∈ lines, line.1.IsWritable) ∧ last.IsWritable ∧
      entries (file lines last) =
        [⟨Word.ofText "CAFÉ", some "a small bar"⟩, ⟨Word.ofText "DOG", none⟩] := by
  let coffee : WordEntry := ⟨Word.ofText "CAFÉ", some "a small bar"⟩
  let dog : WordEntry := ⟨Word.ofText "DOG", none⟩
  have hcoffee : coffee.IsWritable := by
    refine ⟨⟨['C', 'A', 'F', 'É'], by decide, by decide, by decide +kernel⟩, by decide +kernel, ?_⟩
    intro text htext
    cases htext
    exact ⟨[['a'], ['s', 'm', 'a', 'l', 'l'], ['b', 'a', 'r']], by decide, by decide,
      by decide +kernel⟩
  have hdog : dog.IsWritable :=
    ⟨⟨['D', 'O', 'G'], by decide, by decide, by decide +kernel⟩, by decide +kernel, nofun⟩
  let lines : List (Line × LineEnd) := [(.comment ['\t'] [0xFF, 0x0D], .lineFeed),
    (.entry coffee, .returnAndLineFeed), (.blank ['\u00A0'], .returnAndLineFeed)]
  have hlines : ∀ line ∈ lines, line.1.IsWritable := by
    simp only [lines, List.forall_mem_cons]
    exact ⟨⟨List.forall_mem_singleton.mpr (by decide), by decide⟩, hcoffee,
      List.forall_mem_singleton.mpr (by decide), nofun⟩
  obtain ⟨-, -, hread⟩ := entries_of_written_lines
  exact ⟨lines, .entry dog, hlines, hdog, hread lines (.entry dog) hlines hdog⟩

end WordList

end WordStudy
