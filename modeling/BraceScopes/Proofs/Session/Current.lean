import BraceScopes.Proofs.Session.Fresh
import BraceScopes.Proofs.Session.Structure
/-!
When a session is as good as a new one, said of the session and its text alone. Nothing has to be
compared but the braces below the mark: whether those that were kept are braces of code still, and whether
those that are missing still stand in a declaration.
-/
namespace BraceScopes

open BraceScopes.Lex Resolve

namespace Session

/-- The annotated braces below the mark are the ones that the present text asks for. They are brackets of
code, and a brace of code is missing there exactly when it stands in the declaration of the next annotated
brace that has one. -/
structure Current (cfg : ScopeConfig) (r : Rules) (s : Session) : Prop where
  opened : ∀ b a, s.store.get? b = some a → .opened b ∈ events s.text r
  omitted : ∀ b, s.watermark.Covers (b + 1) → .opened b ∈ events s.text r → s.text.charAt b = some '{' →
    (s.store.get? b = none ↔ InDeclaration Detector.standard cfg (.ofText s.text r)
      (fun c => (s.resolve.store.get? c).isSome = true) b)

variable {cfg : ScopeConfig} {r : Rules} {s : Session} {b : Nat}

/-- A brace of code is missing in a new session exactly when it stands in a declaration. -/
theorem not_mem_scopeBraces_iff {t : Text} (hopened : .opened b ∈ events t r)
    (hbrace : t.charAt b = some '{') :
    b ∉ scopeBraces cfg r t ↔
      InDeclaration Detector.standard cfg (.ofText t r) (· ∈ scopeBraces cfg r t) b :=
  not_mem_annotated_iff (Lexed.mem_bracesFrom_zero.mpr ⟨hopened, hbrace⟩)

/-- A session that is current annotates the scope braces of its text, once it is brought up to date. -/
theorem Current.isSome_resolve_iff (hcurrent : s.Current cfg r) (h : Sourced cfg r SameThrough s)
    (b : Nat) : (s.resolve.store.get? b).isSome = true ↔ b ∈ scopeBraces cfg r s.text := by
  -- Whether a brace is missing depends on the braces after it, so the induction runs from the end.
  induction hn : s.text.size - b using Nat.strongRecOn generalizing b with
  | ind n ih =>
    by_cases hcovers : s.watermark.Covers (b + 1)
    · rw [get?_resolve_of_covers h hcovers]
      by_cases hcode : .opened b ∈ events s.text r ∧ s.text.charAt b = some '{'
      · obtain ⟨hopened, hbrace⟩ := hcode
        have hsize : b < s.text.size := (step_of_mem hopened).1
        have after : ∀ c, b < c →
            ((s.resolve.store.get? c).isSome = true ↔ c ∈ scopeBraces cfg r s.text) := by
          intro c hc
          exact ih (s.text.size - c) (by omega) c rfl
        have missing : s.store.get? b = none ↔ b ∉ scopeBraces cfg r s.text := by
          rw [hcurrent.omitted b hcovers hopened hbrace, not_mem_scopeBraces_iff hopened hbrace]
          exact ⟨.congr after, .congr fun c hc => (after c hc).symm⟩
        rw [← Option.ne_none_iff_isSome]
        exact not_iff_comm.mp missing.symm
      · refine iff_of_false (fun hsome => ?_) fun hmem => hcode (mem_annotated hmem)
        obtain ⟨a, ha⟩ := Option.isSome_iff_exists.mp hsome
        exact hcode ⟨hcurrent.opened b a ha, h.brace ha⟩
    · rw [get?_resolve_of_not_covers h hcovers]
      split
      next hmem => simp [hmem]
      next hmem => simp [hmem]

/-- A session that ends up as a new one was current. -/
theorem current_of_resolve_eq_fresh (h : Sourced cfg .java SameThrough s)
    (heq : s.resolve.store = (Session.ofText s.text .java cfg).resolve.store) :
    s.Current cfg .java where
  opened b a hb := by
    have kept := kept_of_resolve_eq_fresh h heq (h.below b a hb)
    exact (mem_annotated (kept.mp (by rw [hb]; rfl))).1
  omitted b hcovers hopened hbrace := by
    have keys : ∀ c, (s.resolve.store.get? c).isSome = true ↔ c ∈ scopeBraces cfg .java s.text := by
      intro c
      rw [heq, get?_fresh]
      split
      next hmem => simp [hmem]
      next hmem => simp [hmem]
    have kept := kept_of_resolve_eq_fresh h heq hcovers
    rw [← Option.not_isSome_iff_eq_none, kept, not_mem_scopeBraces_iff hopened hbrace]
    exact ⟨.congr fun c _ => (keys c).symm, .congr fun c _ => keys c⟩

end Session

/-- After any run of requests, a session ends up with the store of a new session over its text exactly
when it is current. So it can differ in two ways only: a kept brace is no bracket of code any more, or the
declarations of the text take in other braces below the mark than they did. -/
theorem resolve_eq_fresh_iff_current (t : Text) (cfg : ScopeConfig) (rs : List Request)
    (h : ∀ q ∈ rs, q.isPlain = true) :
    let s := (Session.ofText t .java cfg).run rs
    s.resolve.store = (Session.ofText s.text .java cfg).resolve.store ↔ s.Current cfg .java := by
  intro s
  have sourced : s.Sourced cfg .java Session.SameThrough := Session.sourced_run (.ofText t) h
  constructor
  · exact Session.current_of_resolve_eq_fresh sourced
  · intro hcurrent
    refine Session.resolve_eq_fresh sourced fun b hcovers => ?_
    rw [← Session.get?_resolve_of_covers sourced hcovers]
    exact hcurrent.isSome_resolve_iff sourced b

end BraceScopes
