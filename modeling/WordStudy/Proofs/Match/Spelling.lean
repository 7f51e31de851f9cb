import WordStudy.Match.Live

/-!
# What signs spell

Signs spell symbols if the symbols can be cut into pieces, one for each sign in order, where a star
takes any piece and another sign one symbol that it takes. Reading the symbols with live positions
decides this. The argument goes through what is **still to come**: the live positions are such that
one of them can spell the rest exactly if all signs spell all symbols.
-/

namespace WordStudy

namespace SignRules

variable {σ β : Type} (rules : SignRules σ β)

/-! ## §1 Cutting symbols into pieces -/

/-- **The signs spell the symbols**, piece by piece. -/
inductive Spelling : List σ → List β → Prop where
  | nil : Spelling [] []
  /-- A star takes nothing more. -/
  | skip {s : σ} {ss : List σ} {bs : List β} :
      rules.isStar s = true → Spelling ss bs → Spelling (s :: ss) bs
  /-- A star takes one symbol more. -/
  | more {s : σ} {ss : List σ} {b : β} {bs : List β} :
      rules.isStar s = true → Spelling (s :: ss) bs → Spelling (s :: ss) (b :: bs)
  /-- Another sign takes its symbol. -/
  | one {s : σ} {ss : List σ} {b : β} {bs : List β} :
      rules.isStar s = false → rules.takes s b = true → Spelling ss bs →
        Spelling (s :: ss) (b :: bs)

variable {rules}

theorem spelling_nil {bs : List β} : rules.Spelling [] bs ↔ bs = [] := by
  constructor
  · intro h
    cases h
    rfl
  · rintro rfl
    exact .nil

/-- A star in front takes nothing or the first symbol. -/
theorem spelling_star_cons {s : σ} (hs : rules.isStar s = true) {ss : List σ} {b : β}
    {bs : List β} :
    rules.Spelling (s :: ss) (b :: bs) ↔
      rules.Spelling ss (b :: bs) ∨ rules.Spelling (s :: ss) bs := by
  constructor
  · intro h
    cases h with
    | skip _ h => exact .inl h
    | more _ h => exact .inr h
    | one hno _ _ => simp [hs] at hno
  · rintro (h | h)
    · exact .skip hs h
    · exact .more hs h

/-- A sign that is no star takes the first symbol. -/
theorem spelling_one_cons {s : σ} (hs : rules.isStar s = false) {ss : List σ} {b : β}
    {bs : List β} :
    rules.Spelling (s :: ss) (b :: bs) ↔ rules.takes s b = true ∧ rules.Spelling ss bs := by
  constructor
  · intro h
    cases h with
    | skip hstar _ => simp [hs] at hstar
    | more hstar _ => simp [hs] at hstar
    | one _ htakes h => exact ⟨htakes, h⟩
  · rintro ⟨htakes, h⟩
    exact .one hs htakes h

/-- Where nothing is left to spell, only stars are left. -/
theorem spelling_cons_nil {s : σ} {ss : List σ} :
    rules.Spelling (s :: ss) [] ↔ rules.isStar s = true ∧ rules.Spelling ss [] := by
  constructor
  · intro h
    cases h with
    | skip hs h => exact ⟨hs, h⟩
  · rintro ⟨hs, h⟩
    exact .skip hs h

/-- A star takes any piece. -/
theorem spelling_star {s : σ} (hs : rules.isStar s = true) (bs : List β) :
    rules.Spelling [s] bs := by
  induction bs with
  | nil => exact .skip hs .nil
  | cons b bs ih => exact .more hs ih

theorem Spelling.append {ss ts : List σ} {bs cs : List β} (h : rules.Spelling ss bs)
    (h' : rules.Spelling ts cs) : rules.Spelling (ss ++ ts) (bs ++ cs) := by
  induction h with
  | nil => exact h'
  | skip hs _ ih => exact .skip hs ih
  | more hs _ ih => exact .more hs ih
  | one hs htakes _ ih => exact .one hs htakes ih

/-- The piece of the first sign and what the others spell. -/
theorem Spelling.uncons {s : σ} {ss : List σ} {bs : List β} (h : rules.Spelling (s :: ss) bs) :
    ∃ piece rest, bs = piece ++ rest ∧ rules.Spelling [s] piece ∧ rules.Spelling ss rest := by
  induction bs with
  | nil =>
    obtain ⟨hs, h⟩ := spelling_cons_nil.mp h
    exact ⟨[], [], rfl, .skip hs .nil, h⟩
  | cons b bs ih =>
    cases hs : rules.isStar s with
    | true =>
      -- The star ends here, or its piece goes on with the symbol.
      rcases (spelling_star_cons hs).mp h with h | h
      · exact ⟨[], b :: bs, rfl, .skip hs .nil, h⟩
      · obtain ⟨piece, rest, rfl, hpiece, hrest⟩ := ih h
        exact ⟨b :: piece, rest, rfl, .more hs hpiece, hrest⟩
    | false =>
      obtain ⟨htakes, h⟩ := (spelling_one_cons hs).mp h
      exact ⟨[b], bs, rfl, .one hs htakes .nil, h⟩

/-- A sign that is no star takes one symbol. -/
theorem spelling_one {s : σ} (hs : rules.isStar s = false) {bs : List β} :
    rules.Spelling [s] bs ↔ ∃ b, bs = [b] ∧ rules.takes s b = true := by
  constructor
  · intro h
    cases h with
    | skip hstar _ => simp [hs] at hstar
    | more hstar _ => simp [hs] at hstar
    | one _ htakes h =>
      obtain rfl := spelling_nil.mp h
      exact ⟨_, rfl, htakes⟩
  · rintro ⟨b, rfl, htakes⟩
    exact .one hs htakes .nil

/-- A piece that one sign spells is also spelled backwards. -/
theorem Spelling.reverse_single {s : σ} {bs : List β} (h : rules.Spelling [s] bs) :
    rules.Spelling [s] bs.reverse := by
  cases hs : rules.isStar s with
  | true => exact spelling_star hs _
  | false =>
    obtain ⟨b, rfl, htakes⟩ := (spelling_one hs).mp h
    exact (spelling_one hs).mpr ⟨b, rfl, htakes⟩

/-- **Signs in reverse spell the symbols in reverse.** -/
theorem Spelling.reverse {ss : List σ} {bs : List β} (h : rules.Spelling ss bs) :
    rules.Spelling ss.reverse bs.reverse := by
  induction ss generalizing bs with
  | nil =>
    obtain rfl := spelling_nil.mp h
    exact .nil
  | cons s ss ih =>
    obtain ⟨piece, rest, rfl, hpiece, hrest⟩ := h.uncons
    rw [List.reverse_cons, List.reverse_append]
    exact (ih hrest).append hpiece.reverse_single

/-- Every sign but a star takes a symbol. -/
theorem Spelling.countP_le_length {ss : List σ} {bs : List β} (h : rules.Spelling ss bs) :
    ss.countP (!rules.isStar ·) ≤ bs.length := by
  induction h with
  | nil => simp
  | skip hs _ ih => simpa [hs] using ih
  | more hs _ ih =>
    simp only [hs, List.countP_cons, List.length_cons] at ih ⊢
    omega
  | one hs _ _ ih => simpa [hs] using ih

/-- Without stars there are as many symbols as signs. -/
theorem Spelling.length_eq {ss : List σ} {bs : List β} (h : rules.Spelling ss bs)
    (hstar : ss.any rules.isStar = false) : bs.length = ss.length := by
  induction h with
  | nil => rfl
  | skip hs _ _ => simp [hs] at hstar
  | more hs _ _ => simp [hs] at hstar
  | one hs _ _ ih => simpa using ih (by simpa [hs] using hstar)

/-! ## §2 Live positions -/

/-- Some live position can spell what is still to come. -/
def Resumes (rules : SignRules σ β) : List σ → Live → List β → Prop
  | s :: ss, was :: live, bs => (was = true ∧ rules.Spelling (s :: ss) bs) ∨ Resumes rules ss live bs
  | [], [was], bs => was = true ∧ bs = []
  | _, _, _ => False

/-- A star passes liveness on to the next position. -/
def Closed (rules : SignRules σ β) : List σ → Live → Prop
  | s :: ss, was :: live =>
    (rules.isStar s = true → was = true → live.head? = some true) ∧ Closed rules ss live
  | [], [_] => True
  | _, _ => False

/-! The positions are one more than the signs, which `Closed` implies: other lengths are ruled out by
matching on it. -/

/-- A live first position can spell what all signs spell. -/
theorem resumes_of_head {ss : List σ} {live : Live} {bs : List β} (hclosed : Closed rules ss live)
    (hlive : live.head? = some true) (h : rules.Spelling ss bs) : Resumes rules ss live bs := by
  cases ss with
  | nil =>
    match live, hclosed with
    | [was], _ => exact ⟨by simpa using hlive, spelling_nil.mp h⟩
  | cons s ss =>
    match live, hclosed with
    | was :: live, _ => exact .inl ⟨by simpa using hlive, h⟩

theorem head?_liveStart (ss : List σ) (here : Bool) :
    (rules.liveStart ss here).head? = some here := by
  cases ss <;> rfl

theorem closed_liveStart (ss : List σ) (here : Bool) : Closed rules ss (rules.liveStart ss here) := by
  induction ss generalizing here with
  | nil => trivial
  | cons s ss ih =>
    refine ⟨?_, ih _⟩
    rintro hs rfl
    rw [head?_liveStart, hs]
    rfl

/-- No position behind a dead first one is live at the start. -/
theorem not_resumes_liveStart_false (ss : List σ) (bs : List β) :
    ¬ Resumes rules ss (rules.liveStart ss false) bs := by
  induction ss with
  | nil => simp [liveStart, Resumes]
  | cons s ss ih => simpa [liveStart, Resumes] using ih

/-- At the start, what can be spelled is what all signs spell. -/
theorem resumes_start (ss : List σ) (bs : List β) :
    Resumes rules ss (rules.start ss) bs ↔ rules.Spelling ss bs := by
  unfold start
  induction ss with
  | nil => simp [liveStart, Resumes, spelling_nil]
  | cons s ss ih =>
    simp only [liveStart, Resumes, Bool.true_and, true_and]
    cases hs : rules.isStar s with
    | true =>
      -- What is spelled from behind the star is spelled by the star and it.
      rw [ih]
      exact or_iff_left_of_imp (.skip hs)
    | false => simp [not_resumes_liveStart_false]

theorem head?_liveStep (b : β) {ss : List σ} {live : Live} (hclosed : Closed rules ss live) :
    (rules.liveStep b ss live true).head? = some true := by
  cases ss with
  | nil => rfl
  | cons s ss =>
    match live, hclosed with
    | was :: live, _ => rfl

theorem closed_liveStep (b : β) {ss : List σ} {live : Live} (hclosed : Closed rules ss live)
    (arrives : Bool) : Closed rules ss (rules.liveStep b ss live arrives) := by
  induction ss generalizing live arrives with
  | nil =>
    match live, hclosed with
    | [was], _ => trivial
  | cons s ss ih =>
    match live, hclosed with
    | was :: live, ⟨_, hrest⟩ =>
      refine ⟨?_, ih hrest _⟩
      intro hs hhere
      simp only [hs, Bool.true_and, if_true] at hhere ⊢
      rw [hhere]
      exact head?_liveStep b hrest

/-- **Reading a symbol takes it off** what is still to come. -/
theorem resumes_liveStep (b : β) {ss : List σ} {live : Live} (hclosed : Closed rules ss live)
    (arrives : Bool) (bs : List β) :
    Resumes rules ss (rules.liveStep b ss live arrives) bs ↔
      Resumes rules ss live (b :: bs) ∨ (arrives = true ∧ rules.Spelling ss bs) := by
  induction ss generalizing live arrives with
  | nil =>
    match live, hclosed with
    | [was], _ => simp [liveStep, Resumes, spelling_nil]
  | cons s ss ih =>
    match live, hclosed with
    | was :: live, ⟨hpass, hrest⟩ =>
      simp only [liveStep, Resumes]
      rw [ih hrest]
      cases hs : rules.isStar s with
      | true =>
        -- The star stays live; what it passes on was live before, by `Closed`.
        have hskip : rules.Spelling ss bs → rules.Spelling (s :: ss) bs := .skip hs
        have hresume : was = true → rules.Spelling ss (b :: bs) → Resumes rules ss live (b :: bs) :=
          fun hwas => resumes_of_head hrest (hpass hs hwas)
        rw [spelling_star_cons hs]
        simp only [Bool.true_and, if_true, Bool.or_eq_true]
        grind
      | false =>
        rw [spelling_one_cons hs]
        simp only [Bool.false_and, Bool.or_false, Bool.false_eq_true, if_false, Bool.and_eq_true]
        grind

theorem not_resumes_of_not_any {ss : List σ} {live : Live} (h : live.any = false) (bs : List β) :
    ¬ Resumes rules ss live bs := by
  induction ss generalizing live with
  | nil =>
    match live with
    | [] => exact id
    | [was] => simp_all [Live.any, Resumes]
    | _ :: _ :: _ => exact id
  | cons s ss ih =>
    match live with
    | [] => exact id
    | was :: live =>
      simp only [Live.any, List.any_cons, id, Bool.or_eq_false_iff] at h
      simpa [Resumes, h.1] using ih h.2

/-- At the end, the position behind all signs has to be live. -/
theorem complete_iff_resumes {ss : List σ} {live : Live} (hclosed : Closed rules ss live) :
    live.complete = true ↔ Resumes rules ss live [] := by
  induction ss generalizing live with
  | nil =>
    match live, hclosed with
    | [was], _ => simp [Live.complete, Resumes]
  | cons s ss ih =>
    match live, hclosed with
    | was :: live, ⟨hpass, hrest⟩ =>
      have hne : live ≠ [] := by
        rintro rfl
        cases ss <;> exact hrest
      -- The position behind all signs is not the first one.
      have hlast : Live.complete (was :: live) = Live.complete live := by
        simp [Live.complete, List.getLast?_cons_of_ne_nil hne]
      rw [hlast, ih hrest, Resumes, spelling_cons_nil]
      refine (or_iff_right_of_imp ?_).symm
      rintro ⟨hwas, hs, hspell⟩
      exact resumes_of_head hrest (hpass hs hwas) hspell

theorem foldlM_step_iff {ss : List σ} {live : Live} (hclosed : Closed rules ss live)
    (bs : List β) :
    (∃ live', bs.foldlM (rules.step ss) live = some live' ∧ live'.complete = true) ↔
      Resumes rules ss live bs := by
  induction bs generalizing live with
  | nil => simp [complete_iff_resumes hclosed]
  | cons b bs ih =>
    -- Nothing arrives at the first position from outside.
    have hnext := closed_liveStep b hclosed false
    have hstep := resumes_liveStep b hclosed false bs
    simp only [Bool.false_eq_true, false_and, or_false] at hstep
    rw [List.foldlM_cons, ← hstep]
    simp only [step]
    cases hany : (rules.liveStep b ss live false).any with
    | true => simpa using ih hnext
    | false => simp [not_resumes_of_not_any hany bs]

/-- **Reading with live positions decides** whether the signs spell the symbols. -/
theorem spells_iff (ss : List σ) (bs : List β) :
    rules.spells ss bs = true ↔ rules.Spelling ss bs := by
  -- At the start all is still to come; at the end, nothing.
  have hclosed : Closed rules ss (rules.start ss) := closed_liveStart ss true
  rw [← resumes_start, ← foldlM_step_iff hclosed]
  unfold spells
  cases bs.foldlM (rules.step ss) (rules.start ss) <;> simp

/-- Reading backwards decides the same. -/
theorem spells_reverse (ss : List σ) (bs : List β) :
    rules.spells ss.reverse bs.reverse = rules.spells ss bs := by
  rw [Bool.eq_iff_iff, spells_iff, spells_iff]
  constructor
  · intro h
    simpa using h.reverse
  · exact Spelling.reverse

end SignRules

end WordStudy
