import WordStudy.Proofs.Match.Assignment

/-!
# The marks of a rack

A rack marks the letters of a word that its letter tiles suffice for, counted from the left. It
finds them without regard to the other tiles and to the mode. **They are still those of a real
assignment**, for the rack spells a word with letter tiles first.
-/

namespace WordStudy

namespace Rack

/-! ## §1 Which letters are marked -/

theorem spendLetters_cons (left : List UInt8) (b : UInt8) (w : Word) :
    spendLetters left (b :: w) = left.contains b :: spendLetters (left.erase b) w := by
  rw [spendLetters]
  split
  · next hmem => rw [hmem]
  · next hno =>
    rw [Bool.eq_false_iff.mpr hno, List.erase_of_not_mem (mt List.contains_iff_mem.mpr hno)]

/-- **A letter is marked** if there are as many tiles of it as there are such letters up to it. -/
theorem getElem?_spendLetters {left : List UInt8} {w : Word} {j : Nat} {b : UInt8}
    (h : w[j]? = some b) :
    (spendLetters left w)[j]? = some (decide ((w.take (j + 1)).count b ≤ left.count b)) := by
  induction w generalizing left j with
  | nil => simp at h
  | cons c w ih =>
    rw [spendLetters_cons]
    cases j with
    | zero =>
      obtain rfl : c = b := by simpa using h
      simp [← List.one_le_count_iff]
    | succ j =>
      have hrest : w[j]? = some b := by simpa using h
      -- The letter itself is among those up to it, so that a letter of which there is no tile makes
      -- no difference.
      have hpos : 0 < (w.take (j + 1)).count b := by
        rw [List.count_pos_iff]
        exact List.mem_of_getElem? ((List.getElem?_take_of_lt (Nat.lt_succ_self j)).trans hrest)
      rw [List.getElem?_cons_succ, ih hrest, List.take_succ_cons, List.count_cons]
      rw [Option.some.injEq, decide_eq_decide]
      by_cases hc : c = b
      · subst hc
        simp only [List.count_erase_self, beq_self_eq_true, if_true]
        omega
      · simp [List.count_erase_of_ne (Ne.symm hc), hc]

/-- The letter tiles are the letters among the signs. -/
theorem count_lettersOf (signs : List Token) (l : UInt8) :
    (lettersOf signs).count l = signs.count (.letter l) := by
  induction signs with
  | nil => rfl
  | cons sign signs ih =>
    cases sign <;> simp_all [lettersOf, List.count_cons]

end Rack

/-! ## §2 Letter tiles first -/

/-- For each letter of a word, whether it is assigned to a letter tile. -/
def TileAssignment.onLetters {tiles : List Token} {unlimited : Bool} {w : Word}
    (a : TileAssignment tiles unlimited w) : List Bool :=
  List.ofFn fun i => (a.tileOf i).any fun t => (tiles.get t).isLetter

theorem TileAssignment.onLetters_cons {tiles : List Token} {unlimited : Bool} {b : UInt8} {w : Word}
    {a : TileAssignment tiles unlimited w} {longer : TileAssignment tiles unlimited (b :: w)}
    {first : Option (Fin tiles.length)} (h : longer.tileOf = Fin.cons first a.tileOf) :
    longer.onLetters = (first.any fun t => (tiles.get t).isLetter) :: a.onLetters := by
  rw [onLetters, h]
  exact List.ofFn_succ

namespace Rack

variable {unlimited : Bool} {tiles next : Tiles} {b : UInt8} {w : Word}

/-- Whatever is spent for a letter, a tile of it is gone if there was one. -/
theorem letters_of_mem_take (h : next ∈ take unlimited tiles b) :
    next.letters = tiles.letters.erase b := by
  unfold take at h
  split at h
  · rw [List.mem_singleton.mp h]
  · next hno =>
    rw [List.erase_of_not_mem (mt List.contains_iff_mem.mpr hno)]
    split at h
    · split at h
      · rw [List.mem_singleton.mp h]
      · split at h
        · rw [List.mem_singleton.mp h]
        · cases h
    · obtain ⟨set, -, rfl⟩ := List.mem_map.mp h
      rfl

/-- **Every way is an assignment in which just the marked letters have letter tiles.** -/
theorem exists_assignment_of_foldlM {r : Rack} {ways last : List Tiles} (signs : List Token)
    (h : w.foldlM r.step ways = some last) (hlast : next ∈ last) :
    ∃ tiles ∈ ways, ∀ numbers : Finset (Fin signs.length), tilesAt signs numbers = tiles.tokens →
      ∃ a : TileAssignment signs r.unlimited w, a.used ⊆ numbers ∧
        next.tokens = tilesAt signs (numbers \ a.used) ∧
        a.onLetters = spendLetters tiles.letters w := by
  induction w generalizing ways with
  | nil =>
    cases h
    refine ⟨next, hlast, fun numbers hnumbers => ?_⟩
    obtain ⟨a, hnone⟩ := TileAssignment.exists_empty signs r.unlimited
    exact ⟨a, by simp [hnone], by simp [hnone, hnumbers], rfl⟩
  | cons b w ih =>
    rw [List.foldlM_cons] at h
    obtain ⟨between, hstep, hrest⟩ := Option.bind_eq_some_iff.mp h
    obtain ⟨after, hafter, hassign⟩ := ih hrest
    obtain ⟨before, hbefore, htake⟩ := mem_step hstep hafter
    have hletters := letters_of_mem_take htake
    refine ⟨before, hbefore, fun numbers hnumbers => ?_⟩
    obtain ⟨t, htakes, hletter, htokens⟩ | ⟨hopen, hno, rfl⟩ := tokens_of_mem_take htake
    · rw [htokens] at hnumbers
      obtain ⟨n, hn, rfl, hleft⟩ := tilesAt_eq_cons_iff.mp hnumbers
      obtain ⟨a, hsub, hnext, hmarks⟩ := hassign _ hleft
      obtain ⟨longer, htiles, hsub', hleft'⟩ := a.exists_cons_tile hn hsub htakes
      refine ⟨longer, hsub', by rw [hleft', hnext], ?_⟩
      rw [TileAssignment.onLetters_cons htiles, hmarks, spendLetters_cons, ← hletters]
      exact congrArg (· :: _) hletter
    · obtain ⟨a, hsub, hnext, hmarks⟩ := hassign numbers hnumbers
      obtain ⟨longer, htiles, hused⟩ := a.exists_cons_star b hopen
      refine ⟨longer, hused ▸ hsub, by rw [hused, hnext], ?_⟩
      rw [TileAssignment.onLetters_cons htiles, hmarks, spendLetters_cons, ← hletters, hno]
      rfl

theorem eq_ofTokens_of_read {text : String} {r : Rack} (h : Rack.read text = some r) :
    ∃ signs, Token.read text = some signs ∧ r = ofTokens signs := by
  unfold read at h
  split at h
  · cases h
  · next signs hsigns =>
    dsimp only at h
    split at h
    · cases h
    · exact ⟨signs, hsigns, (Option.some.inj h).symm⟩

/-- **The marks of a rack are realised**: a word that the rack spells can be assigned to its tiles
as the mode asks so that just the marked letters have letter tiles. -/
theorem exists_assignment_onLetters {text : String} {r : Rack} (hread : Rack.read text = some r)
    {mode : RackMode} (h : r.spells mode w = true) :
    ∃ signs, Token.read text = some signs ∧
      ∃ a : TileAssignment (signs.filter (!·.isStar)) (signs.any Token.isStar) w,
        mode.IsMetBy a ∧ a.onLetters = r.literalLetters w := by
  obtain ⟨signs, hsigns, rfl⟩ := eq_ofTokens_of_read hread
  obtain ⟨ways, hways, haccepts⟩ := exists_ways_of_spells h
  obtain ⟨next, hnext, hallows⟩ := exists_allows_of_accepts haccepts
  obtain ⟨tiles, htiles, hassign⟩ :=
    exists_assignment_of_foldlM (signs.filter (!·.isStar)) hways hnext
  obtain rfl := List.mem_singleton.mp htiles
  have hall := (tilesAt_univ (signs.filter (!·.isStar))).trans (tokens_start_ofTokens signs).symm
  obtain ⟨a, -, htokens, hmarks⟩ := hassign Finset.univ hall
  rw [htokens] at hallows
  exact ⟨signs, hsigns, a, (a.allows_iff_isMetBy mode).mp hallows, hmarks⟩

end Rack

end WordStudy
