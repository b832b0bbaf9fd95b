import BraceScopes.Proofs.Lex.Stability
import BraceScopes.Proofs.Session.Entries
/-!
Incremental resolving against resolving from scratch. A session that is brought up to date has the
annotations of a new session over its text exactly when the braces that it kept are the ones that the
new session annotates below the mark.
-/
namespace BraceScopes

open BraceScopes.Lex Resolve

namespace Session

variable {cfg : ScopeConfig} {s : Session} {b : Nat} {a : Annotation}

/-- The texts agree up to and including the byte `b`. -/
def SameThrough (b : Nat) (t t' : Text) : Prop := Text.AgreeBelow (b + 1) t t'

/-- The braces that resolving a text from scratch annotates. -/
def scopeBraces (cfg : ScopeConfig) (r : Rules) (t : Text) : List Nat :=
  annotated Detector.standard cfg (.ofText t r)

/-- A kept annotation is valid as soon as its brace is one of the present text. -/
theorem Sourced.valid_of_opened (h : Sourced cfg .java SameThrough s) (hb : s.store.get? b = some a)
    (ho : .opened b ∈ events s.text .java) : ValidEntry cfg .java s.text s.store b a := by
  obtain ⟨t, hsame, hvalid⟩ := h.source b a hb
  have hevents := below_eq_of_common (p := 0) (e := .opened b) (f := .opened b) hsame hvalid.opened rfl
    ho rfl rfl
  exact hvalid.congr_text hsame hevents

theorem Sourced.brace {r : Rules} (h : Sourced cfg r SameThrough s) (hb : s.store.get? b = some a) :
    s.text.charAt b = some '{' := by
  obtain ⟨t, hsame, hvalid⟩ := h.source b a hb
  exact (hsame b (Nat.lt_succ_self b)).symm.trans hvalid.brace

theorem Sourced.lt_size {r : Rules} (h : Sourced cfg r SameThrough s) (hb : s.store.get? b = some a) :
    b < s.text.size :=
  Text.lt_size_of_charAt (h.brace hb)

theorem resolve_store {r : Rules} (h : Sourced cfg r SameThrough s) {p : Nat}
    (hp : s.watermark.dirtyFrom = some p) :
    s.resolve.store = Resolve.run Detector.standard cfg (.ofText s.text r) s.store (min p s.text.size) := by
  rw [resolve, hp]
  change Resolve.run s.detectors s.config (.ofText s.text s.rules) s.store _ = _
  rw [h.standard, h.config, h.rules]

/-- Below the mark, bringing a session up to date changes nothing. -/
theorem get?_resolve_of_covers {r : Rules} (h : Sourced cfg r SameThrough s)
    (hb : s.watermark.Covers (b + 1)) : s.resolve.store.get? b = s.store.get? b := by
  cases hp : s.watermark.dirtyFrom with
  | none => rw [resolve, hp]
  | some p =>
    have hlt : b < p := hb p hp
    rw [resolve_store h hp, get?_run]
    by_cases hsize : b < s.text.size
    · rw [if_pos (by omega)]
    · have hnot : b ∉ annotated Detector.standard cfg (.ofText s.text r) := fun hmem =>
        hsize (Text.lt_size_of_charAt (mem_annotated hmem).2)
      rw [if_neg (by omega), if_neg hnot]
      cases hget : s.store.get? b with
      | none => rfl
      | some a => exact absurd (h.lt_size hget) hsize

/-- Above the mark, the scope braces of the text are annotated anew. -/
theorem get?_resolve_of_not_covers {r : Rules} (h : Sourced cfg r SameThrough s)
    (hb : ¬ s.watermark.Covers (b + 1)) :
    s.resolve.store.get? b =
      if b ∈ scopeBraces cfg r s.text then
        some (annotate (.ofText s.text r) s.resolve.store
          (visitOf Detector.standard cfg (.ofText s.text r) b))
      else none := by
  cases hp : s.watermark.dirtyFrom with
  | none => exact absurd (fun q hq => by simp [hp] at hq) hb
  | some p =>
    have hge : ¬ b < min p s.text.size := fun hlt => hb fun q hq => by
      rw [hp] at hq
      cases hq
      omega
    rw [resolve_store h hp, get?_run, if_neg hge]
    rfl

/-- A new session annotates the scope braces of its text. -/
theorem get?_fresh (cfg : ScopeConfig) (r : Rules) (t : Text) (b : Nat) :
    (Session.ofText t r cfg).resolve.store.get? b =
      if b ∈ scopeBraces cfg r t then
        some (annotate (.ofText t r) (Session.ofText t r cfg).resolve.store
          (visitOf Detector.standard cfg (.ofText t r) b))
      else none :=
  get?_resolve_of_not_covers (Sourced.ofText t) fun hcovers => by
    have := hcovers.zero_of_uninitialized
    omega

/-- If a session kept exactly the scope braces of its text below the mark, then bringing it up to date
gives what resolving from scratch gives. -/
theorem resolve_eq_fresh (h : Sourced cfg .java SameThrough s)
    (hkept : ∀ b, s.watermark.Covers (b + 1) →
      ((s.store.get? b).isSome = true ↔ b ∈ scopeBraces cfg .java s.text)) :
    s.resolve.store = (Session.ofText s.text .java cfg).resolve.store := by
  refine Store.ext_get? fun b => ?_
  induction b using Nat.strongRecOn with
  | ind b ih =>
    rw [get?_fresh]
    by_cases hcovers : s.watermark.Covers (b + 1)
    · rw [get?_resolve_of_covers h hcovers]
      cases hget : s.store.get? b with
      | none =>
        have hnot : b ∉ scopeBraces cfg .java s.text := by
          intro hmem
          have := (hkept b hcovers).mpr hmem
          simp [hget] at this
        rw [if_neg hnot]
      | some a =>
        have hmem := (hkept b hcovers).mp (by rw [hget]; rfl)
        have hvalid := h.valid_of_opened hget (mem_annotated hmem).1
        rw [if_pos hmem, hvalid.annotation]
        refine congrArg some (annotate_congr fun o ho => ?_)
        have ho : o < b := ho
        rw [← ih o ho, get?_resolve_of_covers h (hcovers.mono (by omega))]
    · rw [get?_resolve_of_not_covers h hcovers]
      split
      next => exact congrArg some (annotate_congr ih)
      next => rfl

theorem kept_of_resolve_eq_fresh (h : Sourced cfg .java SameThrough s)
    (heq : s.resolve.store = (Session.ofText s.text .java cfg).resolve.store)
    (hcovers : s.watermark.Covers (b + 1)) :
    (s.store.get? b).isSome = true ↔ b ∈ scopeBraces cfg .java s.text := by
  have hfresh := get?_fresh cfg .java s.text b
  rw [← heq, get?_resolve_of_covers h hcovers] at hfresh
  rw [hfresh]
  by_cases hmem : b ∈ scopeBraces cfg .java s.text
  · simp [hmem]
  · simp [hmem]

theorem sourced_run {r : Rules} (h : Sourced cfg r SameThrough s) {rs : List Request}
    (hrs : ∀ q ∈ rs, q.isPlain = true) : Sourced cfg r SameThrough (s.run rs) := by
  induction rs generalizing s with
  | nil => exact h
  | cons q rs ih =>
    obtain ⟨hq, hrs⟩ := List.forall_mem_cons.mp hrs
    have step := h.perform (fun b t => Text.AgreeBelow.refl (b + 1) t) hq
      fun b a _ _ hagree t hsame => hsame.trans hagree
    exact ih step hrs

end Session

/-- After any run of requests, bringing the session up to date gives the store of a new session over
the same text exactly when the braces that are annotated below the mark are the scope braces of the
text there. -/
theorem resolve_eq_fresh_iff (t : Text) (rs : List Request) (h : ∀ q ∈ rs, q.isPlain = true) :
    let s := (Session.ofText t .java {}).run rs
    s.resolve.store = (Session.ofText s.text .java {}).resolve.store ↔
      ∀ b, s.watermark.Covers (b + 1) →
        ((s.store.get? b).isSome = true ↔ b ∈ Session.scopeBraces {} .java s.text) := by
  intro s
  have sourced : s.Sourced {} .java Session.SameThrough := Session.sourced_run (.ofText t) h
  constructor
  · intro heq b hcovers
    exact Session.kept_of_resolve_eq_fresh sourced heq hcovers
  · exact Session.resolve_eq_fresh sourced

/-- Two runs after which the session is not what a new one is. In the first, a brace inside type
arguments becomes part of the declaration that is completed behind it. In the second, the quote that
is added hides the brace of the line before. -/
theorem resolve_ne_fresh_completed :
    (let rs : List Request := [.resolve, .edit ⟨⟨13, 13, by decide⟩, .ofString " \x7b"⟩]
      let s := (Session.ofText (.ofString "new Foo<\x7b\x7d>()") .java {}).run rs
      (∀ q ∈ rs, q.isPlain = true) ∧
        s.resolve.store ≠ (Session.ofText s.text .java {}).resolve.store) ∧
    (let rs : List Request := [.resolve, .edit ⟨⟨4, 4, by decide⟩, .ofString "\""⟩]
      let s := (Session.ofText (.ofString "\"\\\n\x7b") .java {}).run rs
      (∀ q ∈ rs, q.isPlain = true) ∧
        s.resolve.store ≠ (Session.ofText s.text .java {}).resolve.store) := by
  constructor
  · intro rs s
    have plain : ∀ q ∈ rs, q.isPlain = true := by simp [rs, Request.isPlain]
    have mark : s.watermark = .dirty 13 := by decide +kernel
    have covers : s.watermark.Covers 9 := by
      intro p hp
      cases mark ▸ hp
      decide
    refine ⟨plain, fun heq => ?_⟩
    have kept := (resolve_eq_fresh_iff (.ofString "new Foo<\x7b\x7d>()") rs plain).mp heq 8 covers
    exact absurd kept (by decide +kernel)
  · intro rs s
    have plain : ∀ q ∈ rs, q.isPlain = true := by simp [rs, Request.isPlain]
    have mark : s.watermark = .dirty 4 := by decide +kernel
    have covers : s.watermark.Covers 4 := by
      intro p hp
      cases mark ▸ hp
      decide
    refine ⟨plain, fun heq => ?_⟩
    have kept := (resolve_eq_fresh_iff (.ofString "\"\\\n\x7b") rs plain).mp heq 3 covers
    exact absurd kept (by decide +kernel)

end BraceScopes
