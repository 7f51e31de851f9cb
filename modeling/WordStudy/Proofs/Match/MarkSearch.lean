import WordStudy.Proofs.Match.Alignment

/-!
# The search for marks

The marks of a pattern can be found by trying, with one list of marks for all tries. A try **writes
over** what a failed one left, and a place from which the rest cannot be spelled is tried only once.
What is found this way are the marks, since a try leaves alone what is in front of it, writes over
all that is behind if it succeeds, and remembers nothing but failures.
-/

namespace WordStudy

namespace Pattern

/-! ## §1 Trying -/

/-- What a search has written down. -/
structure MarkSearch where
  /-- The places from which the rest is not spelled, by the tokens and the bytes that are left. -/
  failed : List (Nat × Nat)
  /-- The mark of each byte of the word. -/
  marks : List Bool

namespace MarkSearch

def start (w : Word) : MarkSearch := ⟨[], List.replicate w.length false⟩

def mark (s : MarkSearch) (place : Nat) (literal : Bool) : MarkSearch :=
  { s with marks := s.marks.set place literal }

/-- The outcome of a try, which is not made where one has failed before; a failure is remembered. -/
def attempt (s : MarkSearch) (tokens : List Token) (w : Word) (result : Bool × MarkSearch) :
    Bool × MarkSearch :=
  if s.failed.contains (tokens.length, w.length) then (false, s)
  else if result.1 then result
  else (false, { result.2 with failed := (tokens.length, w.length) :: result.2.failed })

end MarkSearch

/-- Try to spell what is left of a word by a star and the tokens behind it. The star first takes
nothing and then a byte more; `behind` tries the other tokens. -/
def findBehindStar (tokens : List Token) (behind : Word → Nat → MarkSearch → Bool × MarkSearch) :
    Word → Nat → MarkSearch → Bool × MarkSearch
  | [], place, s => s.attempt (.star :: tokens) [] (behind [] place s)
  | b :: w, place, s =>
    s.attempt (.star :: tokens) (b :: w)
      (let result := behind (b :: w) place s
      if result.1 then result
      else findBehindStar tokens behind w (place + 1) (result.2.mark place false))

/-- **Try to spell what is left of a word**, from byte number `place` on, and tell whether it is
spelled. -/
def findMarks : List Token → Word → Nat → MarkSearch → Bool × MarkSearch
  | [], w, _, s => (w.isEmpty, s)
  | .star :: tokens, w, place, s => findBehindStar tokens (findMarks tokens) w place s
  | token :: tokens, w, place, s =>
    s.attempt (token :: tokens) w
      (match w with
      | [] => (false, s)
      | b :: w =>
        if token.takes b then findMarks tokens w (place + 1) (s.mark place token.isLetter)
        else (false, s))

section

variable {token : Token} (tokens : List Token) (h : token.isStar = false)

include h in
theorem findMarks_one_nil (place : Nat) (s : MarkSearch) :
    findMarks (token :: tokens) [] place s = s.attempt (token :: tokens) [] (false, s) := by
  cases token with
  | star => cases h
  | _ => rfl

include h in
theorem findMarks_one_cons (b : UInt8) (w : Word) (place : Nat) (s : MarkSearch) :
    findMarks (token :: tokens) (b :: w) place s = s.attempt (token :: tokens) (b :: w)
      (if token.takes b then findMarks tokens w (place + 1) (s.mark place token.isLetter)
      else (false, s)) := by
  cases token with
  | star => cases h
  | _ => rfl

end

/-! ## §2 What is found -/

/-- **Only failures are remembered**, and there is a mark for each byte. -/
structure MarkSearch.IsHonest (s : MarkSearch) (allTokens : List Token) (whole : Word) : Prop where
  length_eq : s.marks.length = whole.length
  failed : ∀ tokens w, tokens <:+ allTokens → w <:+ whole →
    (tokens.length, w.length) ∈ s.failed → literalMarks tokens w = none

/-- **What a try does**: it finds the marks of what is left if there are any, and leaves those in
front as they were. -/
structure Finds (allTokens : List Token) (whole : Word) (tokens : List Token) (w : Word)
    (place : Nat) (s : MarkSearch) (result : Bool × MarkSearch) : Prop where
  isHonest : result.2.IsHonest allTokens whole
  take_eq : result.2.marks.take place = s.marks.take place
  found : ∀ marks, literalMarks tokens w = some marks →
    result.1 = true ∧ result.2.marks.drop place = marks
  failed : literalMarks tokens w = none → result.1 = false

section

variable {allTokens tokens : List Token} {whole w : Word} {place : Nat} {s : MarkSearch}
  {result : Bool × MarkSearch}

theorem MarkSearch.IsHonest.mark (h : s.IsHonest allTokens whole) (place : Nat) (literal : Bool) :
    (s.mark place literal).IsHonest allTokens whole :=
  ⟨(List.length_set ..).trans h.length_eq, h.failed⟩

theorem eq_of_isSuffix {α : Type} {xs ys all : List α} (hx : xs <:+ all) (hy : ys <:+ all)
    (h : xs.length = ys.length) : xs = ys :=
  (List.suffix_of_suffix_length_le hx hy (Nat.le_of_eq h)).eq_of_length h

/-- Where nothing is spelled, a try may give up. -/
theorem Finds.of_none (h : s.IsHonest allTokens whole) (hnone : literalMarks tokens w = none) :
    Finds allTokens whole tokens w place s (false, s) :=
  ⟨h, rfl, fun _ hmarks => by simp [hnone] at hmarks, fun _ => rfl⟩

/-- **Failures may be remembered**, and what is remembered need not be tried. -/
theorem Finds.attempt (hs : s.IsHonest allTokens whole) (htokens : tokens <:+ allTokens)
    (hw : w <:+ whole) (h : Finds allTokens whole tokens w place s result) :
    Finds allTokens whole tokens w place s (s.attempt tokens w result) := by
  unfold MarkSearch.attempt
  split
  -- A try that is remembered as failed is not made again, and it would fail.
  · next hknown =>
    exact .of_none hs (hs.failed tokens w htokens hw (List.contains_iff_mem.mp hknown))
  split
  · exact h
  -- A try that fails is remembered; suffixes are told by their lengths, so it is this one.
  · next hfound =>
    have hnone : literalMarks tokens w = none :=
      Option.eq_none_iff_forall_ne_some.mpr fun marks hmarks => hfound (h.found marks hmarks).1
    refine ⟨⟨h.isHonest.length_eq, ?_⟩, h.take_eq, fun _ hmarks => by simp [hnone] at hmarks,
      fun _ => rfl⟩
    intro tokens' w' htokens' hw' hmem
    rcases List.mem_cons.mp hmem with heq | hmem
    · obtain ⟨hlength, hlength'⟩ := Prod.mk.inj heq
      rw [eq_of_isSuffix htokens' htokens hlength, eq_of_isSuffix hw' hw hlength']
      exact hnone
    · exact h.isHonest.failed tokens' w' htokens' hw' hmem

/-- **A mark stays** that is written in front of what is tried. -/
theorem Finds.of_mark {b : UInt8} {literal : Bool} {tokens' : List Token}
    (hplace : place < s.marks.length)
    (hmarks : literalMarks tokens' (b :: w) = (literalMarks tokens w).map (literal :: ·))
    (h : Finds allTokens whole tokens w (place + 1) (s.mark place literal) result) :
    Finds allTokens whole tokens' (b :: w) place s result := by
  -- The marks in front of the place, and the one at it, are not touched any more.
  have htake : result.2.marks.take (place + 1) = s.marks.take place ++ [literal] := by
    rw [h.take_eq, MarkSearch.mark, List.take_succ_eq_append_getElem (by simpa using hplace),
      List.take_set_of_le (Nat.le_refl place), List.getElem_set_self]
  have hlength : (s.marks.take place).length = place :=
    List.length_take_of_le (Nat.le_of_lt hplace)
  have hall : result.2.marks =
      s.marks.take place ++ literal :: result.2.marks.drop (place + 1) := by
    conv_lhs => rw [← List.take_append_drop (place + 1) result.2.marks, htake]
    rw [List.append_assoc, List.singleton_append]
  refine ⟨h.isHonest, ?_, ?_, ?_⟩
  · rw [hall, List.take_left' hlength]
  · intro marks hall'
    rw [hmarks] at hall'
    obtain ⟨rest, hrest, rfl⟩ := Option.map_eq_some_iff.mp hall'
    obtain ⟨hfound, hdrop⟩ := h.found rest hrest
    refine ⟨hfound, ?_⟩
    rw [hall, List.drop_left' hlength, hdrop]
  · intro hnone
    rw [hmarks] at hnone
    exact h.failed (Option.map_eq_none_iff.mp hnone)

/-- A try for other tokens with the same marks does as well. -/
theorem Finds.congr {tokens' : List Token} (hmarks : literalMarks tokens' w = literalMarks tokens w)
    (h : Finds allTokens whole tokens w place s result) :
    Finds allTokens whole tokens' w place s result :=
  ⟨h.isHonest, h.take_eq, hmarks ▸ h.found, hmarks ▸ h.failed⟩

/-- A try may come behind another one that leaves alone what is in front. -/
theorem Finds.behind {s' : MarkSearch} (heq : s'.marks.take place = s.marks.take place)
    (h : Finds allTokens whole tokens w place s' result) :
    Finds allTokens whole tokens w place s result :=
  ⟨h.isHonest, h.take_eq.trans heq, h.found, h.failed⟩

end

open Checked (eq_star_of_isStar literalMarks_one_nil literalMarks_one_cons literalMarks_star_nil
  literalMarks_star_cons)

/-- **A star is tried byte by byte**, if the tokens behind it are tried as they should be. -/
theorem finds_findBehindStar {allTokens tokens : List Token} {whole : Word}
    {behind : Word → Nat → MarkSearch → Bool × MarkSearch}
    (htokens : .star :: tokens <:+ allTokens)
    (hbehind : ∀ w place s, w <:+ whole → place + w.length = whole.length →
      s.IsHonest allTokens whole → Finds allTokens whole tokens w place s (behind w place s))
    {w : Word} {place : Nat} {s : MarkSearch} (hw : w <:+ whole)
    (hplace : place + w.length = whole.length) (hs : s.IsHonest allTokens whole) :
    Finds allTokens whole (.star :: tokens) w place s
      (findBehindStar tokens behind w place s) := by
  -- The star takes one more byte at each turn, so the induction is on what is left of the word.
  induction w generalizing place s with
  | nil => exact .attempt hs htokens hw ((hbehind [] place s hw hplace hs).congr
    (literalMarks_star_nil tokens))
  | cons b w ih =>
    refine .attempt hs htokens hw ?_
    have hfirst := hbehind (b :: w) place s hw hplace hs
    have hstar := literalMarks_star_cons tokens b w
    have hplace' : place + 1 + w.length = whole.length := by
      rw [List.length_cons] at hplace
      omega
    by_cases hfound : (behind (b :: w) place s).1 = true
    · -- The tokens behind the star fit here.
      simp only [hfound, if_true]
      cases hmarks : literalMarks tokens (b :: w) with
      | none => simp [hfirst.failed hmarks] at hfound
      | some marks =>
        rw [hmarks] at hstar
        exact hfirst.congr (hstar.trans hmarks.symm)
    -- They do not fit here: the star takes the byte, which is marked as filled in.
    · rw [if_neg hfound]
      have hnone : literalMarks tokens (b :: w) = none :=
        Option.eq_none_iff_forall_ne_some.mpr fun marks hmarks =>
          hfound (hfirst.found marks hmarks).1
      rw [hnone] at hstar
      have hhonest := hfirst.isHonest
      have hin : place < (behind (b :: w) place s).2.marks.length := by
        rw [hhonest.length_eq]
        omega
      have hrest := ih ((List.suffix_cons b w).trans hw) hplace' (hhonest.mark place false)
      exact (hrest.of_mark hin hstar).behind hfirst.take_eq

/-- **Every try does what it should.** -/
theorem finds_findMarks {allTokens tokens : List Token} {whole w : Word} {place : Nat}
    {s : MarkSearch} (htokens : tokens <:+ allTokens) (hw : w <:+ whole)
    (hplace : place + w.length = whole.length) (hs : s.IsHonest allTokens whole) :
    Finds allTokens whole tokens w place s (findMarks tokens w place s) := by
  -- Only a star tries several words; any other token takes one byte or fails.
  induction tokens generalizing w place s with
  | nil =>
    cases w with
    | nil =>
      refine ⟨hs, rfl, fun marks hmarks => ⟨rfl, ?_⟩, nofun⟩
      cases hmarks
      exact List.drop_eq_nil_of_le (Nat.le_of_eq (hs.length_eq.trans hplace.symm))
    | cons b w => exact .of_none hs rfl
  | cons token tokens ih =>
    have htokens' : tokens <:+ allTokens := (List.suffix_cons token tokens).trans htokens
    cases htoken : token.isStar with
    | true =>
      obtain rfl := eq_star_of_isStar htoken
      exact finds_findBehindStar htokens
        (fun w place s hw hplace hs => ih htokens' hw hplace hs) hw hplace hs
    | false =>
      cases w with
      | nil =>
        rw [findMarks_one_nil tokens htoken]
        exact .attempt hs htokens hw (.of_none hs (literalMarks_one_nil _ htoken))
      | cons b w =>
        rw [findMarks_one_cons tokens htoken]
        refine .attempt hs htokens hw ?_
        have hmarks := literalMarks_one_cons tokens b w htoken
        have hplace' : place + 1 + w.length = whole.length := by
          rw [List.length_cons] at hplace
          omega
        have hin : place < s.marks.length := by
          rw [hs.length_eq]
          omega
        cases htakes : token.takes b with
        | true =>
          rw [htakes, if_pos rfl] at hmarks
          have hrest := ih htokens' ((List.suffix_cons b w).trans hw) hplace'
            (hs.mark place token.isLetter)
          exact hrest.of_mark hin hmarks
        | false =>
          rw [htakes, if_neg Bool.false_ne_true] at hmarks
          exact .of_none hs hmarks

/-- The marks that the search writes down, `none` if it fails. -/
def findLiterals (p : Pattern) (w : Word) : Option (List Bool) :=
  let result := findMarks p.tokens w 0 (.start w)
  if result.1 then some result.2.marks else none

/-- **The search finds the marks**, and none if the pattern does not spell the word. -/
theorem findLiterals_eq (p : Pattern) (w : Word) : p.findLiterals w = p.literalLetters w := by
  -- Before the search begins nothing failed, and there is a mark for each byte.
  have hstart : (MarkSearch.start w).IsHonest p.tokens w :=
    ⟨List.length_replicate, fun _ _ _ _ hmem => absurd hmem List.not_mem_nil⟩
  have h := finds_findMarks (List.suffix_refl p.tokens) (List.suffix_refl w) (Nat.zero_add _) hstart
  unfold findLiterals literalLetters
  cases hmarks : literalMarks p.tokens w with
  | none =>
    simp only [h.failed hmarks]
    rfl
  | some marks =>
    obtain ⟨hfound, rfl⟩ := h.found marks hmarks
    simp only [hfound, if_true, List.drop_zero]

end Pattern

end WordStudy
