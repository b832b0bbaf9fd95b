import BraceScopes.Proofs.Store
import BraceScopes.Proofs.Text.Agree
import BraceScopes.Query.Bodyless
import BraceScopes.Query.Enclosing
import BraceScopes.Query.Header
/-!
Runs of a session. A request leaves the session alone, brings it up to date, or moves the mark down:
then what lies below the new mark lay below the old one and stands in both texts.
-/
namespace BraceScopes

inductive Request where
  | resolve
  | edit (e : Edit)
  | changes (version : Int) (cs : List Change)
  | invalidate (p : Nat)
  | suspended (es : List Edit)
  | push (d : Detector)
  | scopeAt (brace : Nat)
  | enclosing (offset : Nat) (accept : Scope → Bool)
  | scopes (i : Interval) (accept keep : Scope → Bool)
  | declarationStart (offset : Nat) (bound : Option Nat)
  | package
  | imports
  | classAbstract
  | interfaceAbstract (owner : Scope)

/-- Whether the edits of a request are noticed and the detectors stay. -/
def Request.isPlain : Request → Bool
  | .suspended _ => false
  | .push _ => false
  | _ => true

namespace Session

/-- The session after a request. A refused edit changes nothing. -/
def perform (s : Session) : Request → Session
  | .resolve => s.resolve
  | .edit e => (s.applyEdit e).toOption.getD s
  | .changes version cs => (s.applyChanges version cs).1
  | .invalidate p => s.invalidateFrom p
  | .suspended es => (s.applySuspended es).1
  | .push d => s.pushDetector d
  | .scopeAt brace => (s.scopeAt brace).2
  | .enclosing offset accept => (s.enclosingScope offset accept).2
  | .scopes i accept keep => (s.allScopes i accept keep).2
  | .declarationStart offset bound => (s.declarationStart offset bound).2
  | .package => s.package.2
  | .imports => s.imports.2
  | .classAbstract => s.classAbstractMethods.2
  | .interfaceAbstract owner => (s.interfaceAbstractMethods owner).2

def run (s : Session) (rs : List Request) : Session := rs.foldl perform s

/-- A session with any detectors, in which nothing is resolved yet. -/
def new (t : Text) (rules : Rules) (config : ScopeConfig) (chain : List Detector) : Session :=
  { ofText t rules config with detectors := chain }

end Session

namespace Watermark

/-- The bytes before `n` lie below the mark. -/
def Covers (m : Watermark) (n : Nat) : Prop := ∀ p, m.dirtyFrom = some p → n ≤ p

variable {m : Watermark} {n p : Nat}

theorem Covers.mono (h : m.Covers n) (hp : p ≤ n) : m.Covers p :=
  fun q hq => Nat.le_trans hp (h q hq)

theorem covers_clean (n : Nat) : clean.Covers n := fun p hp => by simp [dirtyFrom] at hp

theorem Covers.zero_of_uninitialized (h : uninitialized.Covers n) : n = 0 :=
  Nat.le_zero.mp (h 0 rfl)

theorem covers_of_lower (h : (m.lower p).Covers n) : m.Covers n ∧ (m ≠ .uninitialized → n ≤ p) := by
  cases m with
  | uninitialized => exact ⟨h, fun hne => absurd rfl hne⟩
  | clean => exact ⟨covers_clean n, fun _ => h p rfl⟩
  | dirty q =>
    have hle : n ≤ min q p := h (min q p) rfl
    refine ⟨fun k hk => ?_, fun _ => by omega⟩
    cases hk
    omega

/-- The mark follows a change of the text: what lies below the new mark lay below the old one and
stands in both texts. -/
structure Follows (t t' : Text) (m m' : Watermark) : Prop where
  uninitialized : m' = .uninitialized ↔ m = .uninitialized
  below : ∀ n, m'.Covers n → m.Covers n ∧ Text.AgreeBelow n t t'

theorem Follows.refl (t : Text) (m : Watermark) : Follows t t m m :=
  ⟨Iff.rfl, fun n h => ⟨h, Text.AgreeBelow.refl n t⟩⟩

theorem Follows.trans {t t' t'' : Text} {m m' m'' : Watermark} (h : Follows t t' m m')
    (h' : Follows t' t'' m' m'') : Follows t t'' m m'' := by
  refine ⟨h'.uninitialized.trans h.uninitialized, fun n hn => ?_⟩
  obtain ⟨hm', hagree'⟩ := h'.below n hn
  obtain ⟨hm, hagree⟩ := h.below n hm'
  exact ⟨hm, hagree.trans hagree'⟩

theorem lower_uninitialized_iff : m.lower p = .uninitialized ↔ m = .uninitialized := by
  cases m <;> simp [lower]

end Watermark

open Watermark

namespace Session

variable {s s' : Session}

/-- A session that does not observe its edits has resolved nothing yet. -/
def Honest (s : Session) : Prop := s.observing = false → s.watermark = .uninitialized

/-- Whether the session observes or not, its mark follows an edit. -/
theorem follows_notice {t t' : Text} {m : Watermark} {p : Nat}
    (h : s.observing = false → m = .uninitialized) (hagree : Text.AgreeBelow p t t') :
    Follows t t' m (s.notice m p) := by
  unfold notice
  cases hobs : s.observing with
  | true =>
    simp only [↓reduceIte]
    refine ⟨lower_uninitialized_iff, fun n hn => ?_⟩
    obtain ⟨hm, hle⟩ := covers_of_lower hn
    refine ⟨hm, fun i hi => ?_⟩
    by_cases hinit : m = .uninitialized
    · subst hinit
      have := hm.zero_of_uninitialized
      omega
    · exact hagree i (Nat.lt_of_lt_of_le hi (hle hinit))
  | false =>
    simp only [Bool.false_eq_true, ↓reduceIte]
    refine ⟨Iff.rfl, fun n hn => ⟨hn, fun i hi => ?_⟩⟩
    rw [h hobs] at hn
    have := hn.zero_of_uninitialized
    omega

theorem follows_applyEdit {d d' : Document} {m m' : Watermark} {e : Edit}
    (h : s.observing = false → m = .uninitialized)
    (he : d.applyEdit s.notice m e = .ok (d', m')) : Follows d.text d'.text m m' := by
  unfold Document.applyEdit at he
  split at he
  next => simp at he
  next hok =>
    cases he
    have hstart : d.text.isBoundary e.range.start = true := by
      unfold Document.editError? at hok
      split at hok
      next => simp at hok
      next =>
        split at hok
        next => simp at hok
        next hb => simpa using hb
    exact follows_notice h fun i hi => (Text.charAt_replace hstart hi).symm

theorem follows_applyEach (cs : List Change) (d : Document) {m : Watermark}
    (h : s.observing = false → m = .uninitialized) :
    Follows d.text (d.applyEach s.notice m cs).1.1.text m (d.applyEach s.notice m cs).1.2 := by
  induction cs generalizing d m with
  | nil => exact Follows.refl _ _
  | cons c cs ih =>
    rw [Document.applyEach]
    split
    next => exact Follows.refl _ _
    next d' m' he =>
      have first := follows_applyEdit h he
      exact first.trans (ih d' fun hobs => first.uninitialized.mpr (h hobs))

theorem follows_applyChanges {cs : List Change} {d : Document} {m : Watermark} {version : Int}
    (h : s.observing = false → m = .uninitialized) :
    Follows d.text (d.applyChanges s.notice m version cs).1.1.text m
      (d.applyChanges s.notice m version cs).1.2 := by
  have each := follows_applyEach cs d h
  unfold Document.applyChanges
  generalize d.applyEach s.notice m cs = out at each ⊢
  obtain ⟨⟨d', m'⟩, result⟩ := out
  cases result with
  | ok edits => exact each
  | error error => exact each

/-- The mark of a session moved, and the annotations above it were dropped. -/
structure Moved (s s' : Session) : Prop where
  rules : s'.rules = s.rules
  config : s'.config = s.config
  detectors : s'.detectors = s.detectors
  observing : s'.observing = s.observing
  follows : Follows s.text s'.text s.watermark s'.watermark
  kept : ∀ b a, s'.store.get? b = some a ↔ s'.watermark.Covers (b + 1) ∧ s.store.get? b = some a

theorem get?_dropStale (s : Session) (b : Nat) (a : Annotation) :
    s.dropStale.store.get? b = some a ↔ s.watermark.Covers (b + 1) ∧ s.store.get? b = some a := by
  unfold dropStale
  split
  next p hp =>
    rw [Store.get?_clearFrom]
    have hcovers : s.watermark.Covers (b + 1) ↔ b < p := by
      refine ⟨fun h => h p hp, fun hlt q hq => ?_⟩
      rw [hp] at hq
      cases hq
      exact hlt
    rw [hcovers]
    by_cases hlt : b < p
    · simp [hlt]
    · simp [hlt]
  next hp =>
    have hcovers : s.watermark.Covers (b + 1) := fun q hq => by simp [hp] at hq
    simp [hcovers]

theorem dropStale_fields (s : Session) : s.dropStale.document = s.document ∧
    s.dropStale.rules = s.rules ∧ s.dropStale.config = s.config ∧
    s.dropStale.detectors = s.detectors ∧ s.dropStale.observing = s.observing ∧
    s.dropStale.watermark = s.watermark := by
  unfold dropStale
  split
  next => exact ⟨rfl, rfl, rfl, rfl, rfl, rfl⟩
  next => exact ⟨rfl, rfl, rfl, rfl, rfl, rfl⟩

/-- Dropping what is stale after the document and the mark were changed. -/
theorem moved_dropStale {d : Document} {m : Watermark} (h : Follows s.text d.text s.watermark m) :
    Moved s ({ s with document := d, watermark := m } : Session).dropStale := by
  have kept := get?_dropStale { s with document := d, watermark := m }
  obtain ⟨hdoc, hrules, hconfig, hdetectors, hobs, hmark⟩ :=
    dropStale_fields { s with document := d, watermark := m }
  refine ⟨hrules, hconfig, hdetectors, hobs, ?_, fun b a => ?_⟩
  · rw [text, text, hdoc, hmark]
    exact h
  · rw [hmark]
    exact kept b a

theorem Moved.record (h : Moved s s') (events : List Trace.Event) : Moved s (s'.record events) :=
  ⟨h.rules, h.config, h.detectors, h.observing, h.follows, h.kept⟩

theorem moved_invalidateFrom (s : Session) (p : Nat) : Moved s (s.invalidateFrom p) := by
  have lowered : Follows s.text s.document.text s.watermark (s.watermark.lower p) :=
    ⟨lower_uninitialized_iff, fun n hn => ⟨(covers_of_lower hn).1, Text.AgreeBelow.refl n s.text⟩⟩
  exact moved_dropStale lowered

theorem perform_cases (h : s.Honest) {r : Request} (hr : r.isPlain = true) :
    s.perform r = s ∨ s.perform r = s.resolve ∨ Moved s (s.perform r) := by
  cases r with
  | edit e =>
    change (s.applyEdit e).toOption.getD s = s ∨ _ ∨ Moved s ((s.applyEdit e).toOption.getD s)
    unfold applyEdit
    split
    next => exact .inl rfl
    next d m he => exact .inr (.inr ((moved_dropStale (follows_applyEdit h he)).record _))
  | changes version cs =>
    refine .inr (.inr ?_)
    change Moved s (s.applyChanges version cs).1
    exact (moved_dropStale (follows_applyChanges h)).record _
  | invalidate p =>
    refine .inr (.inr ?_)
    exact moved_invalidateFrom s p
  | suspended es => simp [Request.isPlain] at hr
  | push d => simp [Request.isPlain] at hr
  | interfaceAbstract owner =>
    change (s.interfaceAbstractMethods owner).2 = s ∨ (s.interfaceAbstractMethods owner).2 = s.resolve ∨ _
    unfold interfaceAbstractMethods
    split
    next => exact .inl rfl
    next =>
      refine .inr (.inl ?_)
      simp only
      split <;> rfl
  | resolve | scopeAt | enclosing | scopes | declarationStart | package | imports | classAbstract =>
    exact .inr (.inl rfl)

end Session

end BraceScopes
