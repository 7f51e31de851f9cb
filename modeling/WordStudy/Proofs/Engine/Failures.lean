import WordStudy.Engine.Basic
import WordStudy.Proofs.Lexicon.Lookups

/-!
# Failures of the engine

An operation that fails leaves the engine as it was, with **one exception**: a bad image that is
imported under a new name. The lexicon is made before the image is read, and it stays behind without
words. Whatever fails besides is never noticed by what comes behind it.
-/

namespace WordStudy

/-- One operation that an engine may refuse, with what comes of reading the file or opening the
store that it names. -/
inductive EngineStep where
  | importText (name path : String) (bytes : FileBytes) (definitions : Bool)
  | importWords (name : String) (words : List Word)
  | importImage (name : String) (bytes : List UInt8) (backwards : Bool)
    (expected : Option (BitVec 16))
  | importImageFile (name path : String) (bytes : FileBytes) (backwards : Bool)
    (expected : Option (BitVec 16))
  | importStems (name path : String) (bytes : FileBytes)
  /-- Ask for the image of a vocabulary. -/
  | image (name : String)
  | connect (name : String) (store : Except StoreFault AttributeStore)

/-- The lexicon that the operation is about. -/
def EngineStep.name : EngineStep → String
  | importText name .. => name
  | importWords name _ => name
  | importImage name .. => name
  | importImageFile name .. => name
  | importStems name .. => name
  | image name => name
  | connect name _ => name

/-- What an operation gives that succeeds. -/
inductive EngineAnswer where
  | count (n : Nat)
  | done
  | image (bytes : List UInt8)
  deriving DecidableEq, Repr

namespace Engine

/-! ## §1 Operations -/

/-- An outcome with its result as an answer. -/
def answered {α : Type} (answer : α → EngineAnswer) (outcome : Outcome α) : Outcome EngineAnswer :=
  (outcome.1.map answer, outcome.2)

/-- **One operation**: its outcome, and the engine after it. -/
def attempt (e : Engine) : EngineStep → Outcome EngineAnswer
  | .importText name path bytes definitions =>
    answered .count (e.importText name path bytes definitions)
  | .importWords name words => answered .count (e.importWords name words)
  | .importImage name bytes backwards expected =>
    answered (fun _ => .done) (e.importImage name bytes backwards expected)
  | .importImageFile name path bytes backwards expected =>
    answered (fun _ => .done) (e.importImageFile name path bytes backwards expected)
  | .importStems name path bytes => answered .count (e.importStems name path bytes)
  | .image name => answered .image (e.image name, e)
  | .connect name store => answered (fun _ => .done) (e.connect name store)

theorem answered_eq_error {α : Type} {answer : α → EngineAnswer} {outcome : Outcome α}
    {fault : EngineFault} :
    (answered answer outcome).1 = .error fault ↔ outcome.1 = .error fault := by
  obtain ⟨result, e⟩ := outcome
  cases result <;> simp [answered, Except.map]

/-! ## §2 Engines with the same lexicons -/

/-- **Two engines are the same**: they have the same settings, and the same lexicon with each
name. -/
structure Same (e e' : Engine) : Prop where
  settings : e'.settings = e.settings
  lexicons : e'.lexicons.Equiv e.lexicons

theorem Same.refl (e : Engine) : e.Same e := ⟨rfl, .rfl⟩

section Same

variable {e e' : Engine} (h : e.Same e')

include h

theorem Same.lexicon? (name : String) : e'.lexicon? name = e.lexicon? name := h.lexicons.getElem?_eq

theorem Same.names : e'.names = e.names := by
  unfold Engine.names
  rw [Std.TreeMap.equiv_iff_toList_eq.mp h.lexicons]

theorem Same.put (name : String) (lex : Lexicon) : (e.put name lex).Same (e'.put name lex) :=
  ⟨h.settings, h.lexicons.insert name lex⟩

theorem Same.open? (name : String) : e'.open? name = e.open? name := by
  unfold Engine.open?
  rw [h.lexicon?, h.settings]

end Same

/-- Putting a lexicon where it is changes nothing. -/
theorem same_put {e : Engine} {name : String} {lex : Lexicon} (h : e.lexicon? name = some lex) :
    e.Same (e.put name lex) := by
  refine ⟨rfl, Std.TreeMap.Equiv.of_forall_constGet?_eq fun other => ?_⟩
  rw [Engine.put, Std.TreeMap.getElem?_insert]
  split
  · next heq =>
    rw [Std.LawfulEqCmp.eq_of_compare heq] at h
    exact h.symm
  · rfl

theorem lexicon?_put_of_ne (e : Engine) {name other : String} (lex : Lexicon) (h : other ≠ name) :
    (e.put name lex).lexicon? other = e.lexicon? other := by
  unfold Engine.lexicon? Engine.put
  rw [Std.TreeMap.getElem?_insert, if_neg]
  exact fun heq => h (Std.LawfulEqCmp.eq_of_compare heq).symm

/-! ## §3 One failure -/

theorem open?_eq_ok {e : Engine} {name : String} {lex : Lexicon} (h : e.open? name = .ok lex) :
    e.lexicon? name = some lex ∨
      e.lexicon? name = none ∧ Lexicon.create name e.settings = .ok lex := by
  -- The lexicon is there, or it is created from the settings.
  unfold Engine.open? at h
  split at h
  · next lex' hlex =>
    cases h
    exact .inl hlex
  · next hnone =>
    split at h
    · next lex' hcreate =>
      cases h
      exact .inr ⟨hnone, hcreate⟩
    · cases h

/-- A lexicon that cannot be made is the fault of a table. -/
theorem open?_eq_error {e : Engine} {name : String} {fault : EngineFault}
    (h : e.open? name = .error fault) : ∃ cause, fault = .table cause := by
  unfold Engine.open? at h
  split at h
  · cases h
  · split at h
    · cases h
    · next cause hcreate =>
      cases h
      exact ⟨cause, rfl⟩

/-- An image is bad, and no lexicon has the name that it is read for. -/
def FailsOnNew (e : Engine) (name : String) (fault : EngineFault) : Prop :=
  e.lexicon? name = none ∧ ∃ cause, fault = .image cause

/-- **What a failure leaves**: the engine as it was, or with a lexicon that was made for a bad
image. -/
structure Leaves (e : Engine) (name : String) (fault : EngineFault) (after : Engine) : Prop where
  same : ¬ e.FailsOnNew name fault → e.Same after
  added : e.FailsOnNew name fault →
    ∃ lex, Lexicon.create name e.settings = .ok lex ∧ after = e.put name lex

theorem leaves_refl {e : Engine} {name : String} {fault : EngineFault}
    (h : ∀ cause, fault = .image cause → e.lexicon? name ≠ none) : e.Leaves name fault e where
  same _ := Same.refl e
  added hnew := by
    obtain ⟨hnone, cause, hcause⟩ := hnew
    exact absurd hnone (h cause hcause)

/-- **A change that fails for an image** leaves a lexicon without words under a new name, and puts
back the one that it found. -/
theorem leaves_edit {α : Type} {e : Engine} {name : String}
    {change : Lexicon → Except EngineFault (Lexicon × α)} {fault : EngineFault}
    (hchange : ∀ lex, change lex = .error fault → ∃ cause, fault = .image cause)
    (h : (e.edit name change).1 = .error fault) :
    e.Leaves name fault (e.edit name change).2 := by
  unfold Engine.edit at h ⊢
  split at h
  · next fault' hopen =>
    -- Without a lexicon nothing is changed, and no image was looked at.
    cases h
    obtain ⟨cause, rfl⟩ := open?_eq_error hopen
    exact leaves_refl fun cause' hcause => by cases hcause
  · next lex hopen =>
    split at h
    · next fault' hfails =>
      cases h
      rcases open?_eq_ok hopen with hloaded | ⟨hnone, hcreate⟩
      · refine ⟨fun _ => same_put hloaded, fun hnew => ?_⟩
        cases hnew.1.symm.trans hloaded
      · refine ⟨fun hnot => ?_, fun _ => ⟨lex, hcreate, rfl⟩⟩
        exact absurd ⟨hnone, hchange lex hfails⟩ hnot
    · cases h

theorem leaves_importText {e : Engine} {name path : String} {bytes : FileBytes}
    {definitions : Bool} {fault : EngineFault}
    (h : (e.importText name path bytes definitions).1 = .error fault) :
    e.Leaves name fault (e.importText name path bytes definitions).2 := by
  cases bytes with
  | error cause =>
    cases h
    exact leaves_refl fun cause' hcause => by cases hcause
  | ok bytes => exact leaves_edit (fun lex hfails => by cases hfails) h

theorem leaves_importImage {e : Engine} {name : String} {bytes : List UInt8} {backwards : Bool}
    {expected : Option (BitVec 16)} {fault : EngineFault}
    (h : (e.importImage name bytes backwards expected).1 = .error fault) :
    e.Leaves name fault (e.importImage name bytes backwards expected).2 := by
  apply leaves_edit _ h
  intro lex hfails
  split at hfails
  · cases hfails
  · next cause _ =>
    cases hfails
    exact ⟨cause, rfl⟩

theorem leaves_importImageFile {e : Engine} {name path : String} {bytes : FileBytes}
    {backwards : Bool} {expected : Option (BitVec 16)} {fault : EngineFault}
    (h : (e.importImageFile name path bytes backwards expected).1 = .error fault) :
    e.Leaves name fault (e.importImageFile name path bytes backwards expected).2 := by
  cases bytes with
  | error cause =>
    cases h
    exact leaves_refl fun cause' hcause => by cases hcause
  | ok bytes => exact leaves_importImage h

theorem leaves_importStems {e : Engine} {name path : String} {bytes : FileBytes}
    {fault : EngineFault} (h : (e.importStems name path bytes).1 = .error fault) :
    e.Leaves name fault (e.importStems name path bytes).2 := by
  unfold Engine.importStems at h ⊢
  split at h
  · cases h
  · next lex hlex =>
    split at h
    · exact leaves_refl fun _ _ hnone => by cases hnone.symm.trans hlex
    · cases h

/-- A vocabulary whose image is asked for is one that is there. -/
theorem leaves_image {e : Engine} {name : String} {fault : EngineFault}
    (h : e.image name = .error fault) : e.Leaves name fault e := by
  apply leaves_refl
  rintro cause rfl hnone
  simp [Engine.image, hnone] at h

theorem leaves_connect {e : Engine} {name : String} {store : Except StoreFault AttributeStore}
    {fault : EngineFault} (h : (e.connect name store).1 = .error fault) :
    e.Leaves name fault (e.connect name store).2 := by
  unfold Engine.connect at h ⊢
  split at h
  · cases h
    exact leaves_refl fun cause hcause => by cases hcause
  · split at h
    · cases h
      exact leaves_refl fun cause hcause => by cases hcause
    · cases h

/-- **One operation that fails.** -/
theorem leaves_attempt {e : Engine} {step : EngineStep} {fault : EngineFault}
    (h : (e.attempt step).1 = .error fault) :
    e.Leaves step.name fault (e.attempt step).2 := by
  cases step with
  | importText name path bytes definitions => exact leaves_importText (answered_eq_error.mp h)
  | importWords name words =>
    exact leaves_edit (fun lex hfails => by cases hfails) (answered_eq_error.mp h)
  | importImage name bytes backwards expected => exact leaves_importImage (answered_eq_error.mp h)
  | importImageFile name path bytes backwards expected =>
    exact leaves_importImageFile (answered_eq_error.mp h)
  | importStems name path bytes => exact leaves_importStems (answered_eq_error.mp h)
  | image name => exact leaves_image (answered_eq_error.mp h)
  | connect name store => exact leaves_connect (answered_eq_error.mp h)

/-! ## §4 Runs -/

/-- The engine after operations, the first one first, whether they fail or not. -/
def run (e : Engine) (steps : List EngineStep) : Engine :=
  steps.foldl (fun e step => (e.attempt step).2) e

/-- Outcomes that tell the same and leave the same engine. -/
def SameOutcome {α : Type} (o o' : Outcome α) : Prop := o'.1 = o.1 ∧ o.2.Same o'.2

section Same

variable {e e' : Engine} (h : e.Same e')

include h

theorem Same.edit {α : Type} (name : String)
    (change : Lexicon → Except EngineFault (Lexicon × α)) :
    SameOutcome (e.edit name change) (e'.edit name change) := by
  unfold Engine.edit
  rw [h.open?]
  split
  · exact ⟨rfl, h⟩
  · split
    · exact ⟨rfl, h.put name _⟩
    · exact ⟨rfl, h.put name _⟩

theorem Same.importText (name path : String) (bytes : FileBytes) (definitions : Bool) :
    SameOutcome (e.importText name path bytes definitions)
      (e'.importText name path bytes definitions) := by
  cases bytes with
  | error cause => exact ⟨rfl, h⟩
  | ok bytes => exact h.edit name _

theorem Same.importImageFile (name path : String) (bytes : FileBytes) (backwards : Bool)
    (expected : Option (BitVec 16)) :
    SameOutcome (e.importImageFile name path bytes backwards expected)
      (e'.importImageFile name path bytes backwards expected) := by
  cases bytes with
  | error cause => exact ⟨rfl, h⟩
  | ok bytes => exact h.edit name _

theorem Same.importStems (name path : String) (bytes : FileBytes) :
    SameOutcome (e.importStems name path bytes) (e'.importStems name path bytes) := by
  unfold Engine.importStems
  rw [h.lexicon?]
  split
  · exact ⟨rfl, h⟩
  · split
    · exact ⟨rfl, h⟩
    · exact ⟨rfl, h.put name _⟩

theorem Same.image (name : String) : e'.image name = e.image name := by
  unfold Engine.image
  rw [h.lexicon?]

theorem Same.connect (name : String) (store : Except StoreFault AttributeStore) :
    SameOutcome (e.connect name store) (e'.connect name store) := by
  unfold Engine.connect
  rw [h.lexicon?]
  split
  · exact ⟨rfl, h⟩
  · split
    · exact ⟨rfl, h⟩
    · exact ⟨rfl, h.put name _⟩

/-- **Engines that are the same** give one answer, and are the same after it. -/
theorem Same.attempt (step : EngineStep) : SameOutcome (e.attempt step) (e'.attempt step) := by
  -- The answer is made of the outcome, so two outcomes that agree give the same answer.
  have hanswered {α : Type} {answer : α → EngineAnswer} {o o' : Outcome α}
      (hsame : SameOutcome o o') : SameOutcome (answered answer o) (answered answer o') :=
    ⟨congrArg (Except.map answer) hsame.1, hsame.2⟩
  cases step with
  | importText name path bytes definitions => exact hanswered (h.importText ..)
  | importWords name words => exact hanswered (h.edit ..)
  | importImage name bytes backwards expected => exact hanswered (h.edit ..)
  | importImageFile name path bytes backwards expected => exact hanswered (h.importImageFile ..)
  | importStems name path bytes => exact hanswered (h.importStems ..)
  | image name => exact hanswered ⟨h.image name, h⟩
  | connect name store => exact hanswered (h.connect ..)

theorem Same.run (steps : List EngineStep) : (e.run steps).Same (e'.run steps) := by
  induction steps generalizing e e' with
  | nil => exact h
  | cons step steps ih => exact ih (h.attempt step).2

end Same

/-! ## §5 Any failure -/

/-- **What a failed operation leaves.** The engine is as it was, and no operations behind it ever
tell, unless the fault is one of an image that was to be imported under a new name: then there is one
lexicon more, with that name and without words. -/
theorem after_failure {e : Engine} {step : EngineStep} {fault : EngineFault}
    (h : (e.attempt step).1 = .error fault) :
    let after := (e.attempt step).2
    after.settings = e.settings ∧
    (¬ e.FailsOnNew step.name fault →
      after.names = e.names ∧ (∀ name, after.lexicon? name = e.lexicon? name) ∧
        ∀ more, (e.run more).Same (after.run more)) ∧
    (e.FailsOnNew step.name fault →
      (∃ lex, Lexicon.create step.name e.settings = .ok lex ∧ lex.vocabulary.words = [] ∧
        lex.isIndexed = false ∧ after.lexicon? step.name = some lex) ∧
      ∀ name, name ≠ step.name → after.lexicon? name = e.lexicon? name) := by
  intro after
  have hleaves : e.Leaves step.name fault after := leaves_attempt h
  refine ⟨?_, fun hnot => ?_, fun hnew => ?_⟩
  -- The settings are not touched by either outcome.
  · by_cases hnew : e.FailsOnNew step.name fault
    · obtain ⟨lex, -, hafter⟩ := hleaves.added hnew
      rw [hafter]
      rfl
    · exact (hleaves.same hnew).settings
  · have hsame := hleaves.same hnot
    exact ⟨hsame.names, hsame.lexicon?, hsame.run⟩
  · obtain ⟨lex, hcreate, hafter⟩ := hleaves.added hnew
    rw [hafter]
    -- The one lexicon that was put is a created one: it has no word and no store yet.
    refine ⟨⟨lex, hcreate, ?_, ?_, Lexicon.lexicon?_put e step.name lex⟩, ?_⟩
    · rw [Lexicon.vocabulary_of_create hcreate]
      rfl
    · obtain ⟨bag, -, rfl⟩ := Lexicon.create_eq_ok hcreate
      rfl
    · intro name hname
      exact lexicon?_put_of_ne e lex hname

/-- A bad image for a lexicon with the word `AT`: the name and the word stay. -/
theorem after_bad_image_of_loaded :
    ∃ (e : Engine) (step : EngineStep), e.names = [""] ∧ e.accepts "" [0x41, 0x54] = true ∧
      (e.attempt step).1 = .error (.image .noHeader) ∧
      (e.attempt step).2.names = [""] ∧ (e.attempt step).2.accepts "" [0x41, 0x54] = true := by
  let e : Engine := ((create Lexicon.twoLetters).importWords "" [[0x41, 0x54]]).2
  have hnames : e.names = [""] := by decide +kernel
  have hword : e.accepts "" [0x41, 0x54] = true := by decide +kernel
  have hfails : (e.attempt (.importImage "" [0x00] false none)).1 = .error (.image .noHeader) := by
    decide +kernel
  have hloaded : (e.lexicon? "").isSome = true := by decide +kernel
  -- The lexicon was there before, so the failure is not that of a new name.
  obtain ⟨-, hkept, -⟩ := after_failure hfails
  obtain ⟨hsameNames, hlexicon, -⟩ := hkept fun hnew => by
    have hnone : e.lexicon? "" = none := hnew.1
    rw [hnone] at hloaded
    cases hloaded
  refine ⟨e, _, hnames, hword, hfails, hsameNames.trans hnames, ?_⟩
  rw [← hword]
  exact congrArg (fun lex? : Option Lexicon => lex?.elim false (·.accepts [0x41, 0x54]))
    (hlexicon "")

/-- A bad image for a name that is new: the name is there afterwards. -/
theorem names_after_bad_image :
    ((create .standard).attempt (.importImage "NEW" [0x00] false none)).1 =
        .error (.image .noHeader) ∧
      (create .standard).names = [] ∧
      ((create .standard).attempt (.importImage "NEW" [0x00] false none)).2.names = ["NEW"] := by
  have hfails : ((create .standard).attempt (.importImage "NEW" [0x00] false none)).1 =
      .error (.image .noHeader) := by decide +kernel
  obtain ⟨lex, -, hafter⟩ := (leaves_attempt hfails).added ⟨rfl, _, rfl⟩
  refine ⟨hfails, rfl, ?_⟩
  rw [hafter]
  rfl

end Engine

end WordStudy
