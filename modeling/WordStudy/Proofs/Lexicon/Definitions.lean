import WordStudy.Proofs.Lexicon.History

/-!
# Definitions are never empty

A definition is cut into senses and the senses are put together again in another order. Cutting
loses nothing, and a blank definition is not taken in the first place, so **a word that has a
definition has a text that is not empty**. This matters where an empty text stands for no
definition, as it does in a row.
-/

namespace WordStudy

/-! ## §1 Cutting and joining -/

namespace Text

theorem eq_append_of_behind {start text rest : List Char} (h : behind start text = some rest) :
    text = start ++ rest := by
  induction start generalizing text with
  | nil =>
    cases h
    rfl
  | cons s start ih =>
    cases text with
    | nil => cases h
    | cons c text =>
      simp only [behind] at h
      split at h
      · next heq => rw [heq, ih h, List.cons_append]
      · cases h

theorem join_cons_of_ne_nil (separator piece : List Char) {pieces : List (List Char)}
    (h : pieces ≠ []) : join separator (piece :: pieces) = piece ++ separator ++ join separator pieces := by
  cases pieces with
  | nil => exact absurd rfl h
  | cons next pieces => rfl

theorem splitOn_go_ne_nil (separator : List Char) (skip : Nat) (piece text : List Char) :
    splitOn.go separator skip piece text ≠ [] := by
  fun_induction splitOn.go separator skip piece text <;> simp_all

/-- What is cut from a place on, put together, is the piece at hand and the text behind the
separator that is being passed over. -/
theorem join_splitOn_go (separator : List Char) (skip : Nat) (piece text : List Char) :
    join separator (splitOn.go separator skip piece text) = piece.reverse ++ text.drop skip := by
  fun_induction splitOn.go separator skip piece text with
  | case1 skip piece => simp [join]
  | case2 skip piece c rest ih => simpa using ih
  | case3 piece c rest hfound ih =>
    obtain ⟨behindIt, hbehind⟩ := Option.isSome_iff_exists.mp hfound.2
    have htext := eq_append_of_behind hbehind
    rw [join_cons_of_ne_nil _ _ (splitOn_go_ne_nil _ _ _ _), ih]
    -- An empty separator is never found, and another one is skipped once it was.
    cases separator with
    | nil => exact absurd rfl hfound.1
    | cons s separator =>
      obtain ⟨rfl, rfl⟩ := List.cons.inj htext
      simp
  | case4 piece c rest hnot ih => simpa using ih

/-- **Pieces joined again are the text.** -/
theorem join_splitOn (separator text : List Char) : join separator (splitOn separator text) = text := by
  rw [splitOn, join_splitOn_go]
  simp

/-- What is joined has the characters of its pieces and of the separator only. -/
theorem mem_join {separator : List Char} {pieces : List (List Char)} {c : Char} :
    c ∈ join separator pieces → c ∈ separator ∨ ∃ piece ∈ pieces, c ∈ piece := by
  induction pieces with
  | nil => exact fun h => absurd h List.not_mem_nil
  | cons piece pieces ih =>
    cases pieces with
    | nil => exact fun h => .inr ⟨piece, List.mem_singleton_self _, h⟩
    | cons next pieces =>
      simp only [join, List.mem_append]
      -- The letter is of the first piece, of the separator behind it, or further behind.
      rintro ((h | h) | h)
      · exact .inr ⟨piece, List.mem_cons_self, h⟩
      · exact .inl h
      · rcases ih h with h | ⟨other, hother, h⟩
        · exact .inl h
        · exact .inr ⟨other, List.mem_cons_of_mem _ hother, h⟩

theorem mem_join_of_mem (separator : List Char) {pieces : List (List Char)} {piece : List Char}
    (hpiece : piece ∈ pieces) {c : Char} (hc : c ∈ piece) : c ∈ join separator pieces := by
  induction pieces with
  | nil => cases hpiece
  | cons first pieces ih =>
    rcases List.mem_cons.mp hpiece with rfl | hpiece
    · cases pieces with
      | nil => exact hc
      | cons next pieces => simp [join, hc]
    · rw [join_cons_of_ne_nil _ _ (List.ne_nil_of_mem hpiece)]
      exact List.mem_append_right _ (ih hpiece)

end Text

open Text

namespace Definitions

/-! ## §2 Senses -/

theorem insertSense_perm (tag sense : String) (groups : List TaggedSenses) :
    ((insertSense tag sense groups).flatMap (·.senses)).Perm (sense :: groups.flatMap (·.senses)) := by
  induction groups with
  | nil => exact .refl _
  | cons group groups ih =>
    simp only [insertSense]
    split
    · -- The sense goes behind those of its own tag.
      simp only [List.flatMap_cons, List.append_assoc, List.singleton_append]
      exact List.perm_middle
    split
    · exact .refl _
    · simp only [List.flatMap_cons]
      exact (ih.append_left group.senses).trans List.perm_middle

/-- **Grouping keeps the senses**, in some order. -/
theorem group_perm (text : List Char) :
    ((group text).flatMap (·.senses)).Perm ((splitOn senseSeparator text).map String.ofList) := by
  -- Stated over the groups so far, as the pieces are put in one after another.
  have hfold : ∀ (pieces : List (List Char)) (groups : List TaggedSenses),
      ((pieces.foldl (fun groups sense =>
          insertSense (String.ofList (tagOf sense)) (String.ofList sense) groups) groups).flatMap
            (·.senses)).Perm (groups.flatMap (·.senses) ++ pieces.map String.ofList) := by
    intro pieces
    induction pieces with
    | nil => simp
    | cons piece pieces ih =>
      intro groups
      rw [List.foldl_cons, List.map_cons]
      refine (ih _).trans ?_
      exact ((insertSense_perm _ _ groups).append_right _).trans List.perm_middle.symm
  simpa [group] using hfold (splitOn senseSeparator text) []

/-- **No word has the empty sense only.** -/
def IsTelling (d : Definitions) : Prop := ∀ w, d.senses w ≠ [""]

theorem isTelling_empty : empty.IsTelling := by
  intro w
  simp [senses, groups, empty]

/-- A text that is not empty has not only the empty sense. -/
theorem senses_group_ne {text : List Char} (h : text ≠ []) :
    (group text).flatMap (·.senses) ≠ [""] := by
  intro heq
  have hperm := group_perm text
  rw [heq] at hperm
  have hpieces : splitOn senseSeparator text = [[]] := by
    obtain ⟨piece, hpiece, hempty⟩ := List.map_eq_singleton_iff.mp (List.singleton_perm.mp hperm).symm
    rw [hpiece, String.ofList_eq_empty_iff.mp hempty]
  have hjoin := join_splitOn senseSeparator text
  rw [hpieces] at hjoin
  exact h hjoin.symm

theorem IsTelling.add {d : Definitions} (h : d.IsTelling) (w : Word) (definition : String) :
    (d.add w definition).IsTelling := by
  unfold Definitions.add
  dsimp only
  split
  · exact h
  · next htext =>
    intro v
    have hne : trim definition.toList ≠ [] := by simp_all
    rw [senses, groups, Std.TreeMap.getElem?_insert]
    split
    · exact senses_group_ne hne
    · exact h v

/-- **A definition is not empty.** -/
theorem IsTelling.text?_ne {d : Definitions} (h : d.IsTelling) (w : Word) : d.text? w ≠ some "" := by
  intro hempty
  unfold text? at hempty
  split at hempty
  · cases hempty
  · next hsenses =>
    have hjoined := Option.some.inj hempty
    match hd : d.senses w with
    | [] => exact hsenses hd
    | [sense] =>
      rw [hd, String.intercalate_singleton] at hjoined
      exact h w (by rw [hd, hjoined])
    | sense :: next :: senses =>
      -- There is a separator between two senses.
      rw [hd, String.intercalate_cons_cons] at hjoined
      simp [senseSeparator] at hjoined

end Definitions

/-! ## §3 Lexicons -/

namespace Lexicon

theorem isTelling_create {name : String} {settings : Settings} {lex : Lexicon}
    (h : create name settings = .ok lex) : lex.definitions.IsTelling := by
  obtain ⟨bag, -, rfl⟩ := create_eq_ok h
  exact Definitions.isTelling_empty

theorem isKept_isTelling : IsKept fun lex => lex.definitions.IsTelling where
  add lex hlex entry w hw definition := by
    cases definition with
    | none => exact hlex
    | some definition => exact hlex.add w definition
  merge lex hlex := hlex
  stems lex hlex stems := hlex
  view lex hlex store cache := hlex

end Lexicon

end WordStudy
