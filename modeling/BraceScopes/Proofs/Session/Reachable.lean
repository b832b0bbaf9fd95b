import BraceScopes.Proofs.Resolve
import BraceScopes.Proofs.Session.Run
import BraceScopes.Proofs.Store.Links
/-!
What holds in every state of a session, also after edits that it did not notice. The links of its store
lead to earlier scopes, its annotations lie below the mark, and it observes edits from the first resolving
on.
-/
namespace BraceScopes

namespace Resolve

variable {chain : List Detector} {cfg : ScopeConfig} {t : Text} {r : Rules} {store : Store}

theorem of_annotatedAround {ix : Lexed} {b o : Nat} {a : Annotation}
    (h : annotatedAround? ix store b = some (o, a)) : o ∈ ix.ancestors b ∧ store.get? o = some a := by
  obtain ⟨q, hq, hfound⟩ := List.exists_of_findSome?_eq_some h
  obtain ⟨c, hc, heq⟩ := Option.map_eq_some_iff.mp hfound
  cases heq
  exact ⟨(List.mem_filter.mp hq).1, hc⟩

theorem linked_run (h : store.Linked) (p : Nat) : (run chain cfg (.ofText t r) store p).Linked := by
  have get := get?_run chain cfg t r store p
  generalize run chain cfg (.ofText t r) store p = out at get
  have anew : ∀ {k x}, ¬ k < p → out.get? k = some (.scope x) →
      annotate (.ofText t r) out (visitOf chain cfg (.ofText t r) k) = .scope x := by
    intro k x hge hk
    rw [get k, if_neg hge] at hk
    split at hk
    next => exact Option.some.inj hk
    next => cases hk
  constructor
  · intro k x hk
    by_cases hlt : k < p
    · rw [get k, if_pos hlt] at hk
      exact h.openBrace k x hk
    · exact (annotate_eq_scope (anew hlt hk)).2.1
  · intro k x o hk hparent
    by_cases hlt : k < p
    · rw [get k, if_pos hlt] at hk
      obtain ⟨hok, y, hy⟩ := h.parent k x o hk hparent
      refine ⟨hok, y, ?_⟩
      rw [get o, if_pos (by omega), hy]
    · have hscope := anew hlt hk
      have haround := (annotate_eq_scope hscope).2.2
      rw [hparent] at haround
      obtain ⟨⟨q, a⟩, hnear, rfl⟩ := Option.map_eq_some_iff.mp haround
      obtain ⟨hin, ho⟩ := of_annotatedAround hnear
      obtain ⟨y, hy⟩ := (annotate_isScope_iff.mp ⟨x, hscope⟩).2 q a hnear
      exact ⟨Lexed.ancestors_lt hin, y, hy ▸ ho⟩

end Resolve

namespace Session

/-- The states of sessions, whatever their rules, configuration and detectors. A document can also be
changed behind the back of its session, and stale annotations can be dropped at any time, as they are when
an edit is refused. -/
inductive Reachable : Session → Prop
  | new (t : Text) (r : Rules) (cfg : ScopeConfig) (chain : List Detector) : Reachable (new t r cfg chain)
  | request {s : Session} (q : Request) : Reachable s → Reachable (s.perform q)
  | unnoticed {s : Session} (d : Document) : Reachable s → Reachable { s with document := d }
  | stale {s : Session} : Reachable s → Reachable s.dropStale

theorem Reachable.run {s : Session} (h : Reachable s) (rs : List Request) : Reachable (s.run rs) := by
  induction rs generalizing s with
  | nil => exact h
  | cons q rs ih => exact ih (.request q h)

structure Coherent (s : Session) : Prop where
  linked : s.store.Linked
  below : ∀ b a, s.store.get? b = some a → s.watermark.Covers (b + 1)
  observing : s.observing = true ↔ s.watermark ≠ .uninitialized

namespace Coherent

variable {s s' : Session}

theorem honest (h : s.Coherent) : s.Honest := by
  intro hobs
  by_contra hne
  rw [h.observing.mpr hne] at hobs
  cases hobs

theorem new (t : Text) (r : Rules) (cfg : ScopeConfig) (chain : List Detector) :
    (new t r cfg chain).Coherent where
  linked := Store.linked_empty
  below b a hb := by cases hb
  observing := by simp [Session.new, ofText]

theorem resolve (h : s.Coherent) : s.resolve.Coherent := by
  unfold Session.resolve
  split
  next p hp =>
    refine ⟨Resolve.linked_run h.linked _, fun b _ _ => Watermark.covers_clean (b + 1), ?_⟩
    simp [resolveFrom, record]
  next => exact h

theorem moved (h : s.Coherent) (m : Moved s s') : s'.Coherent := by
  constructor
  · constructor
    · intro k x hk
      exact h.linked.openBrace k x ((m.kept k _).mp hk).2
    · intro k x p hk hparent
      obtain ⟨hcovers, hold⟩ := (m.kept k _).mp hk
      obtain ⟨hlt, y, hy⟩ := h.linked.parent k x p hold hparent
      exact ⟨hlt, y, (m.kept p _).mpr ⟨hcovers.mono (by omega), hy⟩⟩
  · intro b a hb
    exact ((m.kept b a).mp hb).1
  · rw [m.observing, h.observing]
    exact not_congr m.follows.uninitialized.symm

theorem congr (h : s.Coherent) (store : s'.store = s.store) (watermark : s'.watermark = s.watermark)
    (observing : s'.observing = s.observing) : s'.Coherent := by
  refine ⟨?_, ?_, ?_⟩
  · rw [store]
    exact h.linked
  · rw [store, watermark]
    exact h.below
  · rw [observing, watermark]
    exact h.observing

theorem applySuspended (h : s.Coherent) (es : List Edit) : (s.applySuspended es).1.Coherent := by
  induction es generalizing s with
  | nil => exact h
  | cons e es ih =>
    unfold Session.applySuspended
    split
    next s' hs' =>
      unfold applyUnnoticed at hs'
      split at hs'
      next => cases hs'
      next d hd =>
        cases hs'
        exact ih (h.congr rfl rfl rfl)
    next => exact ih h

theorem perform (h : s.Coherent) (q : Request) : (s.perform q).Coherent := by
  by_cases hq : q.isPlain = true
  · rcases perform_cases h.honest hq with hcase | hcase | hcase
    · rw [hcase]
      exact h
    · rw [hcase]
      exact h.resolve
    · exact h.moved hcase
  · cases q with
    | suspended es => exact h.applySuspended es
    | push d => exact h.congr rfl rfl rfl
    | _ => simp [Request.isPlain] at hq

end Coherent

theorem Reachable.coherent {s : Session} (h : Reachable s) : s.Coherent := by
  induction h with
  | new t r cfg chain => exact .new t r cfg chain
  | request q _ ih => exact ih.perform q
  | unnoticed d _ ih => exact ih.congr rfl rfl rfl
  | @stale s _ ih => exact ih.moved (moved_dropStale (Watermark.Follows.refl s.text s.watermark))

end Session

/-- In every state of a session, a scope is stored under its brace and links to an earlier scope of the
store, so that its ancestors are all that following the links meets, in descending order and up to a scope
without a link. Annotations lie below the mark, there are none before the first resolving, and from then
on edits are observed. -/
theorem reachable_store_links {s : Session} (h : s.Reachable) :
    (∀ k x, s.store.get? k = some (.scope x) →
      x.openBrace = k ∧
      (∀ p, x.parent = some p → p < k ∧ ∃ y, s.store.get? p = some (.scope y)) ∧
      s.store.LinkPath x.parent (s.store.ancestors k) ∧
      (k :: (s.store.ancestors k).map (·.openBrace)).Pairwise (· > ·) ∧
      ∀ y, (x :: s.store.ancestors k).getLast? = some y → y.parent = none) ∧
    (∀ p, s.watermark = .dirty p → ∀ k a, s.store.get? k = some a → k < p) ∧
    (s.watermark = .uninitialized → s.store = .empty) ∧
    (s.observing = true ↔ s.watermark ≠ .uninitialized) := by
  have coherent := h.coherent
  have linked := coherent.linked
  refine ⟨?_, ?_, ?_, coherent.observing⟩
  · intro k x hk
    have path := linked.linkPath_ancestors hk
    exact ⟨linked.openBrace k x hk, fun p hp => linked.parent k x p hk hp, path,
      linked.descending path hk rfl, fun y hy => path.parent_getLast rfl hy⟩
  · intro p hp k a hk
    have hcovers := coherent.below k a hk
    rw [hp] at hcovers
    exact hcovers p rfl
  · intro hmark
    refine Store.ext_get? fun b => ?_
    cases hb : s.store.get? b with
    | none => rfl
    | some a =>
      have hcovers := coherent.below b a hb
      rw [hmark] at hcovers
      have := hcovers.zero_of_uninitialized
      omega

/-- A declaration is put into a class unnoticed, its method is resolved again with a detector that takes
every brace, and a brace is typed at the end. -/
theorem reachable_store_links_unnoticed :
    let everything : Detector := ⟨"everything", fun _ _ b => some ⟨.statement, "?", some b⟩⟩
    let rs : List Request := [.resolve, .suspended [⟨⟨10, 10, by decide⟩, .ofString "int x; "⟩],
      .push everything, .invalidate 12, .resolve, .edit ⟨⟨35, 35, by decide⟩, .ofString " \x7b"⟩]
    let s := (Session.new (.ofString "class A \x7b void m() \x7b y \x7b \x7d \x7d \x7d") .java {}
      Detector.standard).run rs
    s.Reachable ∧ s.store.get? 30 = some (.scope ⟨.statement, "?", some 30, 30, some 26⟩) ∧
      s.watermark = .dirty 35 ∧ s.store.LinkPath (some 26) (s.store.ancestors 30) ∧
      (30 :: (s.store.ancestors 30).map (·.openBrace)).Pairwise (· > ·) ∧
      (s.store.ancestors 30).map (·.openBrace) = [26, 8] := by
  intro everything rs s
  have reachable : s.Reachable := (Session.Reachable.new _ _ _ _).run rs
  have stored : s.store.get? 30 = some (.scope ⟨.statement, "?", some 30, 30, some 26⟩) := by
    decide +kernel
  obtain ⟨-, -, path, descending, -⟩ := (reachable_store_links reachable).1 30 _ stored
  exact ⟨reachable, stored, by decide +kernel, path, descending, by decide +kernel⟩

end BraceScopes
