import BraceScopes.Proofs.Detect
import BraceScopes.Proofs.Resolve
import BraceScopes.Proofs.Session.Run
/-!
Where the annotations of a session come from. Each one was made by resolving some text that still
agrees with the present one up to its brace, and no annotation before it was dropped since.
-/
namespace BraceScopes

open BraceScopes.Lex Resolve

/-- The annotation `a` of the brace at `b` is the one that resolving the text gives it, by the
annotations before it. -/
structure ValidEntry (cfg : ScopeConfig) (r : Rules) (t : Text) (store : Store) (b : Nat)
    (a : Annotation) : Prop where
  opened : .opened b ∈ events t r
  brace : t.charAt b = some '{'
  annotation : a = annotate (.ofText t r) store (visitOf Detector.standard cfg (.ofText t r) b)

namespace ValidEntry

variable {cfg : ScopeConfig} {r : Rules} {t t' : Text} {store store' : Store} {b : Nat} {a : Annotation}

theorem congr_store (h : ValidEntry cfg r t store b a) (hstore : ∀ o < b, store.get? o = store'.get? o) :
    ValidEntry cfg r t store' b a :=
  ⟨h.opened, h.brace, h.annotation.trans (annotate_congr hstore)⟩

/-- The annotation of a brace depends on the text up to the brace and the events there. -/
theorem congr_text (h : ValidEntry cfg r t store b a) (hagree : Text.AgreeBelow (b + 1) t t')
    (hevents : below (b + 1) (events t r) = below (b + 1) (events t' r)) :
    ValidEntry cfg r t' store b a := by
  have hopened : .opened b ∈ events t' r :=
    (Lexed.mem_events_congr hevents (show (Event.opened b).pos < b + 1 by simp)).mp h.opened
  have hbelow : below b (events t r) = below b (events t' r) := by
    rw [← below_below (Nat.le_succ b), hevents, below_below (Nat.le_succ b)]
  have same := Lexed.sameBelow_ofText (hagree.shares h.brace) hbelow
  have visit : visitOf Detector.standard cfg (.ofText t r) b =
      visitOf Detector.standard cfg (.ofText t' r) b := by
    rw [visitOf, visitOf, same.firstAccepting_standard]
  have braces : ((Lexed.ofText t r).ancestors b).filter (Lexed.ofText t r).isBrace =
      ((Lexed.ofText t' r).ancestors b).filter (Lexed.ofText t' r).isBrace := by
    rw [(Lexed.reads_ofText t r).ancestors_of_opened (pairwise_events t r) h.opened,
      (Lexed.reads_ofText t' r).ancestors_of_opened (pairwise_events t' r) hopened,
      Lexed.stackBelow_congr hbelow (Nat.le_refl b)]
    refine List.filter_congr fun o ho => ?_
    have hlt := (opened_of_mem_stackBelow ho).2
    rw [Lexed.isBrace, Lexed.isBrace, Lexed.ofText_text, Lexed.ofText_text, hagree o (by omega)]
  have around : annotatedAround? (.ofText t r) store b = annotatedAround? (.ofText t' r) store b := by
    rw [annotatedAround?, annotatedAround?, braces]
  refine ⟨hopened, (hagree b (Nat.lt_succ_self b)).symm.trans h.brace, ?_⟩
  rw [h.annotation, visit]
  exact annotate_of_around around

end ValidEntry

namespace Session

/-- Every annotation of the session comes from a text that is the same as the present one up to its
brace, in the sense of `same`, and lies below the mark. -/
structure Sourced (cfg : ScopeConfig) (r : Rules) (same : Nat → Text → Text → Prop) (s : Session) :
    Prop where
  config : s.config = cfg
  rules : s.rules = r
  standard : s.detectors = Detector.standard
  honest : s.Honest
  below : ∀ b a, s.store.get? b = some a → s.watermark.Covers (b + 1)
  source : ∀ b a, s.store.get? b = some a → ∃ t, same b t s.text ∧ ValidEntry cfg r t s.store b a

namespace Sourced

variable {cfg : ScopeConfig} {r : Rules} {same : Nat → Text → Text → Prop} {s s' : Session}

theorem ofText (t : Text) : Sourced cfg r same (.ofText t r cfg) where
  config := rfl
  rules := rfl
  standard := rfl
  honest _ := rfl
  below b a h := by simp [Session.ofText] at h
  source b a h := by simp [Session.ofText] at h

theorem resolveFrom (h : Sourced cfg r same s) (refl : ∀ b t, same b t t) (p : Nat) :
    Sourced cfg r same (s.resolveFrom p) where
  config := h.config
  rules := h.rules
  standard := h.standard
  honest hobs := by simp [Session.resolveFrom, record] at hobs
  below b a _ := Watermark.covers_clean (b + 1)
  source b a hb := by
    have get := get?_run Detector.standard cfg s.text r s.store p
    have store : (s.resolveFrom p).store = Resolve.run Detector.standard cfg (.ofText s.text r) s.store p := by
      change Resolve.run s.detectors s.config (.ofText s.text s.rules) s.store p = _
      rw [h.standard, h.config, h.rules]
    rw [store] at hb ⊢
    have before : ∀ o < p, s.store.get? o = (Resolve.run Detector.standard cfg (.ofText s.text r) s.store p).get? o :=
      fun o ho => by rw [get o, if_pos ho]
    by_cases hlt : b < p
    · rw [← before b hlt] at hb
      obtain ⟨t, hsame, hvalid⟩ := h.source b a hb
      exact ⟨t, hsame, hvalid.congr_store fun o ho => before o (by omega)⟩
    · rw [get b, if_neg hlt] at hb
      split at hb
      next hmem =>
        obtain ⟨hopened, hbrace⟩ := mem_annotated hmem
        exact ⟨s.text, refl b s.text, hopened, hbrace, (Option.some.inj hb).symm⟩
      next => simp at hb

theorem resolve (h : Sourced cfg r same s) (refl : ∀ b t, same b t t) : Sourced cfg r same s.resolve := by
  unfold Session.resolve
  split
  next p hp => exact h.resolveFrom refl _
  next => exact h

theorem moved (h : Sourced cfg r same s) (m : Moved s s')
    (step : ∀ b a, s.store.get? b = some a → s'.store.get? b = some a →
      Text.AgreeBelow (b + 1) s.text s'.text → ∀ t, same b t s.text → same b t s'.text) :
    Sourced cfg r same s' where
  config := m.config.trans h.config
  rules := m.rules.trans h.rules
  standard := m.detectors.trans h.standard
  honest hobs := m.follows.uninitialized.mpr (h.honest (m.observing.symm.trans hobs))
  below b a hb := ((m.kept b a).mp hb).1
  source b a hb := by
    obtain ⟨hcovers, hold⟩ := (m.kept b a).mp hb
    obtain ⟨t, hsame, hvalid⟩ := h.source b a hold
    have hagree := (m.follows.below (b + 1) hcovers).2
    refine ⟨t, step b a hold hb hagree t hsame, hvalid.congr_store fun o ho => Option.ext fun c => ?_⟩
    rw [m.kept o c]
    simp [hcovers.mono (show o + 1 ≤ b + 1 by omega)]

/-- What a request keeps, if it keeps the texts alike up to the braces that stay annotated. -/
theorem perform (h : Sourced cfg r same s) (refl : ∀ b t, same b t t) {q : Request}
    (hq : q.isPlain = true)
    (step : ∀ b a, s.store.get? b = some a → (s.perform q).store.get? b = some a →
      Text.AgreeBelow (b + 1) s.text (s.perform q).text →
      ∀ t, same b t s.text → same b t (s.perform q).text) : Sourced cfg r same (s.perform q) := by
  rcases perform_cases h.honest hq with hcase | hcase | hcase
  · rw [hcase]
    exact h
  · rw [hcase]
    exact h.resolve refl
  · exact h.moved hcase step

end Sourced

end Session

end BraceScopes
