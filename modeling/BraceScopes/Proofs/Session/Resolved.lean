import BraceScopes.Proofs.Resolve
import BraceScopes.Proofs.Session.Run
/-!
Resolving a text that does not change. A session that keeps a part of the first outcome, wherever its mark
was moved, is brought back to the whole of it.
-/
namespace BraceScopes

open Resolve Watermark

namespace Session

variable {chain : List Detector} {cfg : ScopeConfig} {t : Text} {r : Rules} {full : Store} {s : Session}

theorem resolved_new (t : Text) (r : Rules) (cfg : ScopeConfig) (chain : List Detector) :
    Resolved chain cfg t r (new t r cfg chain).resolve.store := by
  change Resolved chain cfg t r (Resolve.run chain cfg (.ofText t r) .empty (min 0 t.size))
  rw [Nat.zero_min]
  exact resolved_run chain cfg t r .empty

/-- Below its mark, the session has the annotations of `full`. -/
structure PartOf (chain : List Detector) (cfg : ScopeConfig) (t : Text) (r : Rules) (full : Store)
    (s : Session) : Prop where
  text : s.text = t
  rules : s.rules = r
  config : s.config = cfg
  detectors : s.detectors = chain
  kept : ∀ b, s.watermark.Covers (b + 1) → s.store.get? b = full.get? b

namespace PartOf

theorem new : PartOf chain cfg t r full (new t r cfg chain) where
  text := rfl
  rules := rfl
  config := rfl
  detectors := rfl
  kept b hb := by
    have := hb.zero_of_uninitialized
    omega

theorem store_resolve (h : PartOf chain cfg t r full s) (hfull : Resolved chain cfg t r full) :
    s.resolve.store = full := by
  unfold resolve
  split
  next p hp =>
    change Resolve.run s.detectors s.config (.ofText s.text s.rules) s.store _ = full
    rw [h.detectors, h.config, h.text, h.rules]
    refine hfull.run_eq fun b hb => h.kept b fun q hq => ?_
    rw [hp] at hq
    cases hq
    omega
  next hclean =>
    refine Store.ext_get? fun b => h.kept b fun q hq => ?_
    rw [hclean] at hq
    cases hq

theorem resolve (h : PartOf chain cfg t r full s) (hfull : Resolved chain cfg t r full) :
    PartOf chain cfg t r full s.resolve := by
  have hstore := h.store_resolve hfull
  unfold Session.resolve at hstore ⊢
  split
  next p hp =>
    rw [hp] at hstore
    exact ⟨h.text, h.rules, h.config, h.detectors, fun b _ => by rw [hstore]⟩
  next => exact h

theorem invalidateFrom (h : PartOf chain cfg t r full s) (p : Nat) :
    PartOf chain cfg t r full (s.invalidateFrom p) := by
  have moved := moved_invalidateFrom s p
  have htext := (dropStale_fields { s with watermark := s.watermark.lower p }).1
  refine ⟨(congrArg Document.text htext).trans h.text, moved.rules.trans h.rules,
    moved.config.trans h.config, moved.detectors.trans h.detectors, ?_⟩
  intro b hb
  have hold := (moved.follows.below (b + 1) hb).1
  refine Option.ext fun a => ?_
  rw [moved.kept b a, h.kept b hold]
  exact and_iff_right hb

theorem run (h : PartOf chain cfg t r full s) (hfull : Resolved chain cfg t r full)
    {rs : List Request} (hrs : ∀ q ∈ rs, q = .resolve ∨ ∃ p, q = .invalidate p) :
    PartOf chain cfg t r full (s.run rs) := by
  induction rs generalizing s with
  | nil => exact h
  | cons q rs ih =>
    obtain ⟨hq, hrs⟩ := List.forall_mem_cons.mp hrs
    have step : PartOf chain cfg t r full (s.perform q) := by
      rcases hq with rfl | ⟨p, rfl⟩
      · exact h.resolve hfull
      · exact h.invalidateFrom p
    exact ih step hrs

end PartOf

end Session

/-- After the first resolving, the mark may be moved anywhere and the session resolved again any number
of times: in the end it has the annotations of the first time. -/
theorem resolve_again (t : Text) (r : Rules) (cfg : ScopeConfig) (chain : List Detector)
    (rs : List Request) (h : ∀ q ∈ rs, q = .resolve ∨ ∃ p, q = .invalidate p) :
    ((Session.new t r cfg chain).resolve.run rs).resolve.store =
      (Session.new t r cfg chain).resolve.store := by
  have hfull := Session.resolved_new t r cfg chain
  have first := Session.PartOf.new.resolve hfull
  exact (first.run hfull h).store_resolve hfull

/-- The mark is moved between two scopes, past the end of the text, and into a declaration whose type
arguments hold a brace. -/
theorem resolve_again_typeArguments :
    let text : Text := .ofString "x \x7b class A \x7b new B<\x7b\x7d>() \x7b"
    let rs : List Request := [.invalidate 5, .resolve, .invalidate 90, .invalidate 20]
    (∀ q ∈ rs, q = .resolve ∨ ∃ p, q = .invalidate p) ∧
      ((Session.new text .java {} Detector.standard).resolve.run rs).resolve.store =
        (Session.new text .java {} Detector.standard).resolve.store ∧
      ((Session.new text .java {} Detector.standard).resolve.run rs).store.size = 2 ∧
      (Session.new text .java {} Detector.standard).resolve.store.size = 3 := by
  intro text rs
  have only : ∀ q ∈ rs, q = .resolve ∨ ∃ p, q = .invalidate p := by simp [rs]
  exact ⟨only, resolve_again text .java {} Detector.standard rs only, by decide +kernel,
    by decide +kernel⟩

end BraceScopes
