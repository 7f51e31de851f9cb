import Mathlib.Data.List.TakeWhile
import WordStudy.Proofs.Lexicon.Senses
import WordStudy.Proofs.Match.Case

/-!
# Links are resolved one level deep

A text is **linked** if each of its braces belongs to a link, and such a text is cut into its characters
and links just as it is written. Each link is shown as its word and a sense, whose own links are reduced
to their words. So where all texts are linked, a resolved one has no brace left, and it depends on
nothing but the senses of the words that the text itself links to.
-/

namespace WordStudy

open Text

/-! ## §1 Linked texts -/

/-- A brace opens or closes a link. -/
def isBrace (c : Char) : Bool := c == '\x7b' || c == '\x7d'

/-- **A name** in a link: tag characters, at least one. -/
def IsName (text : List Char) : Prop := text ≠ [] ∧ ∀ c ∈ text, isTagCharacter c = true

instance (text : List Char) : Decidable (IsName text) :=
  have : Decidable (∀ c ∈ text, isTagCharacter c = true) := List.decidableBAll _ text
  inferInstanceAs (Decidable (text ≠ [] ∧ ∀ c ∈ text, isTagCharacter c = true))

namespace LinkPart

/-- The part as it is written. -/
def written : LinkPart → List Char
  | .plain c => [c]
  | .link word none => '\x7b' :: (word ++ ['\x7d'])
  | .link word (some tag) => '\x7b' :: (word ++ '=' :: (tag ++ ['\x7d']))

/-- A character is no brace, and a link is made of names. -/
def IsProper : LinkPart → Prop
  | .plain c => isBrace c = false
  | .link word none => IsName word
  | .link word (some tag) => IsName word ∧ IsName tag

instance : (part : LinkPart) → Decidable part.IsProper
  | .plain c => inferInstanceAs (Decidable (isBrace c = false))
  | .link word none => inferInstanceAs (Decidable (IsName word))
  | .link word (some tag) => inferInstanceAs (Decidable (IsName word ∧ IsName tag))

/-- The part without a link: a link is reduced to its word. -/
def bare : LinkPart → List Char
  | .plain c => [c]
  | .link word _ => Definitions.upperText word

end LinkPart

/-- **Each brace of the text belongs to a link.** -/
def IsLinkedText (text : List Char) : Prop :=
  ∃ parts : List LinkPart, (∀ part ∈ parts, part.IsProper) ∧ text = parts.flatMap (·.written)

namespace Definitions

/-- A name ends where no tag character follows. -/
theorem spanTag_append {name : List Char} (h : IsName name) {c : Char} (hc : isTagCharacter c = false)
    (rest : List Char) : spanTag (name ++ c :: rest) = (name, c :: rest) := by
  rw [spanTag, List.takeWhile_append_of_pos h.2, List.dropWhile_append_of_pos h.2,
    List.takeWhile_cons_of_neg (by simp [hc]), List.dropWhile_cons_of_neg (by simp [hc]),
    List.append_nil]

theorem eq_append_of_spanTag {text name rest : List Char} (h : spanTag text = (name, rest)) :
    text = name ++ rest := by
  obtain ⟨rfl, rfl⟩ := Prod.mk.inj h
  exact List.takeWhile_append_dropWhile.symm

/-- **A link that is found** is written behind the brace. -/
theorem linkAt_eq_some {text : List Char} {part : LinkPart} {length : Nat}
    (h : linkAt text = some (part, length)) :
    ∃ behind rest, part.written = '\x7b' :: behind ∧ text = behind ++ rest ∧
      behind.length = length := by
  -- A link has a word, or a word and a tag; either is closed by its brace.
  unfold linkAt at h
  split at h
  · cases h
  · next word rest hword hscan =>
    obtain ⟨rfl, rfl⟩ := Prod.mk.inj (Option.some.inj h)
    exact ⟨word ++ ['\x7d'], rest, rfl, by simp [eq_append_of_spanTag hscan], by simp⟩
  · next word rest hword hscan =>
    split at h
    · cases h
    · next tag rest' htag hscan' =>
      obtain ⟨rfl, rfl⟩ := Prod.mk.inj (Option.some.inj h)
      refine ⟨word ++ '=' :: (tag ++ ['\x7d']), rest', rfl, ?_, ?_⟩
      · simp [eq_append_of_spanTag hscan, eq_append_of_spanTag hscan']
      · simp
        omega
    · cases h
  · cases h

/-- **A link is found** behind its brace, and it takes the characters that it is written with. -/
theorem linkAt_written {word : List Char} {tag : Option (List Char)}
    (h : (LinkPart.link word tag).IsProper) (rest : List Char) :
    ∃ behind, (LinkPart.link word tag).written = '\x7b' :: behind ∧
      linkAt (behind ++ rest) = some (.link word tag, behind.length) := by
  cases tag with
  | none =>
    refine ⟨_, rfl, ?_⟩
    rw [List.append_assoc, List.singleton_append, linkAt, spanTag_append h rfl]
    -- A scan that takes nothing finds no link, so the name must be seen to have a character.
    obtain ⟨first, others, rfl⟩ := List.exists_cons_of_ne_nil h.1
    simp
  | some tag =>
    obtain ⟨hword, htag⟩ := h
    refine ⟨_, rfl, ?_⟩
    rw [List.append_assoc, List.cons_append, List.append_assoc, List.singleton_append, linkAt,
      spanTag_append hword rfl]
    obtain ⟨first, others, rfl⟩ := List.exists_cons_of_ne_nil hword.1
    simp only [spanTag_append htag (rfl : isTagCharacter '\x7d' = false)]
    obtain ⟨first', others', rfl⟩ := List.exists_cons_of_ne_nil htag.1
    simp
    omega

theorem partsFrom_length (front rest : List Char) :
    partsFrom front.length (front ++ rest) = partsFrom 0 rest := by
  induction front with
  | nil => rfl
  | cons c front ih => exact ih

/-- **A part that is written is found again.** -/
theorem partsFrom_written {part : LinkPart} (h : part.IsProper) (rest : List Char) :
    partsFrom 0 (part.written ++ rest) = part :: partsFrom 0 rest := by
  cases part with
  | plain c =>
    have hopen : c ≠ '\x7b' := by
      rintro rfl
      cases h
    rw [LinkPart.written, List.singleton_append, partsFrom, if_neg hopen]
  | link word tag =>
    obtain ⟨behind, hwritten, hlink⟩ := linkAt_written h rest
    rw [hwritten, List.cons_append, partsFrom, if_pos rfl, hlink]
    exact congrArg _ (partsFrom_length behind rest)

/-- **A linked text is cut** into the parts that it is written of. -/
theorem parts_flatMap_written {parts' : List LinkPart} (h : ∀ part ∈ parts', part.IsProper) :
    parts (parts'.flatMap (·.written)) = parts' := by
  unfold parts
  induction parts' with
  | nil => rfl
  | cons part parts' ih =>
    obtain ⟨hpart, hrest⟩ := List.forall_mem_cons.mp h
    rw [List.flatMap_cons, partsFrom_written hpart, ih hrest]

/-- **Cutting loses nothing** but the characters that are passed over. -/
theorem flatMap_written_partsFrom (skip : Nat) (text : List Char) :
    (partsFrom skip text).flatMap (·.written) = text.drop skip := by
  fun_induction partsFrom skip text with
  | case1 skip => simp
  | case2 skip c rest ih => simpa using ih
  | case3 rest part length hlink ih =>
    obtain ⟨behind, others, hwritten, rfl, rfl⟩ := linkAt_eq_some hlink
    rw [List.flatMap_cons, ih, hwritten]
    simp
  | case4 rest hlink ih => simpa [LinkPart.written] using ih
  | case5 c rest hc ih => simpa [LinkPart.written] using ih

/-- **A text is linked** if no brace is left over when it is cut. -/
theorem isLinkedText_iff {text : List Char} :
    IsLinkedText text ↔ ∀ part ∈ parts text, part.IsProper := by
  constructor
  · rintro ⟨parts', hproper, rfl⟩
    rwa [parts_flatMap_written hproper]
  · exact fun h => ⟨parts text, h, (flatMap_written_partsFrom 0 text).symm⟩

instance (text : List Char) : Decidable (IsLinkedText text) := decidable_of_iff' _ isLinkedText_iff

/-! ## §2 No brace is left -/

/-- The text has no brace. -/
def IsBraceless (text : List Char) : Prop := ∀ c ∈ text, isBrace c = false

instance (text : List Char) : Decidable (IsBraceless text) := List.decidableBAll _ text

theorem isBraceless_append {s t : List Char} (hs : IsBraceless s) (ht : IsBraceless t) :
    IsBraceless (s ++ t) := by
  intro c hc
  rcases List.mem_append.mp hc with hc | hc
  · exact hs c hc
  · exact ht c hc

/-- A name has no brace in upper case either. -/
theorem isBraceless_upperText {name : List Char} (h : IsName name) :
    IsBraceless (upperText name) := by
  intro d hd
  obtain ⟨c, hc, rfl⟩ := List.mem_map.mp hd
  have hsign (sign : Char) (hsign : sign.isAlpha = false) (htag : isTagCharacter sign = false) :
      (c.toUpper == sign) = false := by
    rw [beq_eq_false_iff_ne, Ne, toUpper_eq_iff hsign]
    rintro rfl
    cases (h.2 c hc).symm.trans htag
  rw [isBrace, hsign _ rfl rfl, hsign _ rfl rfl]
  rfl

theorem isBraceless_bare {part : LinkPart} (h : part.IsProper) : IsBraceless part.bare := by
  cases part with
  | plain c => exact List.forall_mem_singleton.mpr h
  | link word tag =>
    cases tag with
    | none => exact isBraceless_upperText h
    | some tag => exact isBraceless_upperText h.1

theorem stripLinks_eq_flatMap (text : List Char) : stripLinks text = (parts text).flatMap (·.bare) := by
  refine List.flatMap_congr fun part _ => ?_
  cases part <;> rfl

/-- **A sense whose links are reduced** has no brace. -/
theorem isBraceless_stripLinks {text : List Char} (h : IsLinkedText text) :
    IsBraceless (stripLinks text) := by
  obtain ⟨parts', hproper, rfl⟩ := h
  rw [stripLinks_eq_flatMap, parts_flatMap_written hproper]
  intro c hc
  obtain ⟨part, hpart, hmem⟩ := List.mem_flatMap.mp hc
  exact isBraceless_bare (hproper part hpart) c hmem

/-- A part as it is shown: a link as its word and, if there is one, a sense with its links reduced. -/
def shown (d : Definitions) : LinkPart → List Char
  | .plain c => [c]
  | .link word tag => upperText word ++
      (d.linkedSense word tag).elim [] fun sense => [',', ' '] ++ stripLinks sense.toList

/-- The senses of a text, each on a line of its own. -/
def onLines (text : List Char) : List Char := join ['\n'] (splitOn senseSeparator text)

/-- **A resolved text** shows the parts of the text one by one. -/
theorem toList_resolveLinks (d : Definitions) (text : String) :
    (d.resolveLinks text).toList = onLines ((parts text.toList).flatMap d.shown) := by
  rw [resolveLinks, String.toList_ofList]
  refine congrArg onLines (List.flatMap_congr fun part _ => ?_)
  cases part with
  | plain c => rfl
  | link word tag =>
    change d.resolveLink word tag = d.shown (.link word tag)
    unfold resolveLink shown
    split
    · next sense hsense => simp [hsense]
    · next hnone => simp [hnone]

/-- Putting senses on lines brings in no brace. -/
theorem isBraceless_onLines {text : List Char} (h : IsBraceless text) : IsBraceless (onLines text) := by
  intro c hc
  rcases mem_join hc with hc | ⟨piece, hpiece, hc⟩
  · rw [List.mem_singleton.mp hc]
    rfl
  · have hmem := mem_join_of_mem senseSeparator hpiece hc
    rw [join_splitOn] at hmem
    exact h c hmem

/-! ## §3 What a link shows -/

/-- The sense that a link shows is one of its word. -/
theorem mem_senses_of_linkedSense {entries : List (Word × String)} {word : List Char}
    {tag : Option (List Char)} {sense : String}
    (h : (ofEntries entries).linkedSense word tag = some sense) :
    sense ∈ (ofEntries entries).senses (Word.ofText (String.ofList word)) := by
  rcases Option.or_eq_some_iff.mp h with h | ⟨-, h⟩
  · obtain ⟨t, -, hhead⟩ := Option.bind_eq_some_iff.mp h
    rw [sensesFor_ofEntries] at hhead
    exact (List.mem_filter.mp (List.mem_of_mem_head? hhead)).1
  · exact List.mem_of_mem_head? h

/-- **A link depends on the senses of its word** only. -/
theorem linkedSense_congr {entries entries' : List (Word × String)} {word : List Char}
    (h : (ofEntries entries').senses (Word.ofText (String.ofList word)) =
      (ofEntries entries).senses (Word.ofText (String.ofList word))) (tag : Option (List Char)) :
    (ofEntries entries').linkedSense word tag = (ofEntries entries).linkedSense word tag := by
  simp only [linkedSense, sensesFor_ofEntries, h]

/-- A part is shown without a brace if all senses are linked. -/
theorem isBraceless_shown {entries : List (Word × String)}
    (hstored : ∀ w, ∀ sense ∈ (ofEntries entries).senses w, IsLinkedText sense.toList)
    {part : LinkPart} (h : part.IsProper) : IsBraceless ((ofEntries entries).shown part) := by
  have hbare := isBraceless_bare h
  cases part with
  | plain c => exact hbare
  | link word tag =>
    refine isBraceless_append hbare ?_
    cases hsense : (ofEntries entries).linkedSense word tag with
    | none => exact List.forall_mem_nil _
    | some sense =>
      have hlinked := hstored _ sense (mem_senses_of_linkedSense hsense)
      exact isBraceless_append (by decide) (isBraceless_stripLinks hlinked)

/-- What holds for each sense that is added holds for those that are stored. -/
theorem forall_senses_ofEntries {entries : List (Word × String)} {P : String → Prop}
    (h : ∀ entry ∈ entries, ∀ sense ∈ pieces (trim entry.2.toList), P sense) (w : Word) :
    ∀ sense ∈ (ofEntries entries).senses w, P sense := by
  intro sense hsense
  have hmem := (senses_ofEntries_perm entries w).mem_iff.mp hsense
  cases hlast : lastDefinition entries w with
  | none =>
    rw [hlast] at hmem
    cases hmem
  | some text =>
    rw [hlast] at hmem
    obtain ⟨entry, hfind, rfl⟩ := Option.map_eq_some_iff.mp hlast
    exact h entry (List.mem_reverse.mp (List.mem_of_find?_eq_some hfind)) sense hmem

/-- **Links are resolved one level deep.** Let a text and all senses that are stored be linked. The
text is shown part by part, each link as its word and a sense with its links reduced to their words. So
no brace is left, and any definitions that have the same senses for the words that the text links to,
whatever they have for others, show the text alike. -/
theorem resolveLinks_of_linked (entries : List (Word × String)) (text : String)
    (parts' : List LinkPart) (hproper : ∀ part ∈ parts', part.IsProper)
    (htext : text.toList = parts'.flatMap (·.written))
    (hstored : ∀ w, ∀ sense ∈ (ofEntries entries).senses w, IsLinkedText sense.toList) :
    let d := ofEntries entries
    (d.resolveLinks text).toList = onLines (parts'.flatMap d.shown) ∧
    IsBraceless (d.resolveLinks text).toList ∧
    ∀ entries', (∀ word tag, .link word tag ∈ parts' →
        (ofEntries entries').senses (Word.ofText (String.ofList word)) =
          d.senses (Word.ofText (String.ofList word))) →
      (ofEntries entries').resolveLinks text = d.resolveLinks text := by
  have hshown (d : Definitions) : (d.resolveLinks text).toList = onLines (parts'.flatMap d.shown) := by
    rw [toList_resolveLinks, htext, parts_flatMap_written hproper]
  refine ⟨hshown _, ?_, fun entries' hagree => ?_⟩
  -- No brace is left: a link shows a braceless sense, and all else was plain text.
  · rw [hshown]
    refine isBraceless_onLines fun c hc => ?_
    obtain ⟨part, hpart, hmem⟩ := List.mem_flatMap.mp hc
    exact isBraceless_shown hstored (hproper part hpart) c hmem
  · rw [← String.toList_inj, hshown, hshown]
    -- Only the links shown differ between the stores, and these agree on them.
    refine congrArg onLines (List.flatMap_congr fun part hpart => ?_)
    cases part with
    | plain c => rfl
    | link word tag => rw [shown, shown, linkedSense_congr (hagree word tag hpart)]

/-- The sense of `KITTY` links to `CAT`, and the sense of `CAT` back to `KITTY`: only the first one is
shown, and it stays the same if `CAT` is not defined. -/
theorem resolveLinks_of_kitty :
    let text := "see \x7bKITTY=n\x7d"
    let cat := (Word.ofText "CAT", "a feline \x7bKITTY\x7d [n CATS]")
    let kitty := (Word.ofText "KITTY", "\x7bCAT=n\x7d [n KITTIES]")
    (ofEntries [cat, kitty]).resolveLinks text = "see KITTY, CAT [n KITTIES]" ∧
    IsBraceless ((ofEntries [cat, kitty]).resolveLinks text).toList ∧
    (ofEntries [kitty]).resolveLinks text = (ofEntries [cat, kitty]).resolveLinks text := by
  intro text cat kitty
  have hparts : text.toList =
      ([.plain 's', .plain 'e', .plain 'e', .plain ' ',
        .link "KITTY".toList (some ['n'])] : List LinkPart).flatMap (·.written) := by decide +kernel
  obtain ⟨-, hbraceless, hagree⟩ := resolveLinks_of_linked [cat, kitty] text _ (by decide +kernel) hparts
    (forall_senses_ofEntries (by decide +kernel))
  refine ⟨by decide +kernel, hbraceless, hagree [kitty] ?_⟩
  intro word tag hlink
  have hword : word = "KITTY".toList := by simp_all
  rw [hword]
  decide +kernel

end Definitions

end WordStudy
