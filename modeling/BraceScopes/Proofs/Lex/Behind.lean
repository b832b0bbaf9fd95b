import BraceScopes.Proofs.Lex.Classify
import BraceScopes.Proofs.Text.Shared
/-!
Two lexed texts that look the same from a place backward: they have the same characters and the same
events before it. The index then gives the same answers there.
-/
namespace BraceScopes

open BraceScopes.Lex

namespace Lexed

/-- What is asked about the text before `n` has the same answer in both. -/
structure SameBelow (n : Nat) (x y : Lexed) : Prop where
  rules : x.rules = y.rules
  text : Text.Shares n x.text y.text
  regionAtChar : ∀ p < n, x.regionAtChar? p = y.regionAtChar? p
  regionAtGap : ∀ p ≤ n, x.regionAtGap? p = y.regionAtGap? p
  openOf : ∀ c < n, x.openOf c = y.openOf c
  enclosing : ∀ p ≤ n, (x.classify p).enclosing = (y.classify p).enclosing

theorem Reads.openOf_eq_some {ix : Lexed} {es : List Event} (h : ix.Reads es)
    (sorted : es.Pairwise Event.Before) {c o : Nat} :
    ix.openOf c = some o ↔
      .closed c ∈ es ∧ (stackBelow c es).head? = some o ∧ sameType ix.text o c = true := by
  change ((ix.closers[rank Closer.pos ix.closers c]?).filter (·.pos == c)).bind (·.opener) = some o ↔ _
  rw [Option.bind_eq_some_iff]
  simp only [filter_at_rank_iff (h.closers_ascending sorted)]
  constructor
  · rintro ⟨k, ⟨hk, rfl⟩, ho⟩
    rw [← Array.mem_toList_iff, h.closers, List.mem_map] at hk
    obtain ⟨c, hc, rfl⟩ := hk
    exact ⟨mem_closers.mp hc, Option.filter_eq_some_iff.mp ho⟩
  · rintro ⟨hc, ho⟩
    refine ⟨closingOf ix.text es c, ⟨?_, rfl⟩, Option.filter_eq_some_iff.mpr ho⟩
    rw [← Array.mem_toList_iff, h.closers]
    exact List.mem_map_of_mem (mem_closers.mpr hc)

theorem openAt_ofText (t : Text) (r : Rules) (p : Nat) :
    (ofText t r).openAt p = stackBelow p (events t r) :=
  (reads_ofText t r).openAt_eq (pairwise_events t r) p

variable {s t : Text} {r : Rules} {n : Nat}

theorem mem_events_congr (h : below n (events s r) = below n (events t r)) {e : Event}
    (hlt : e.pos < n) : e ∈ events s r ↔ e ∈ events t r := by
  have hs : e ∈ below n (events s r) ↔ _ := mem_below
  have ht : e ∈ below n (events t r) ↔ _ := mem_below
  rw [h] at hs
  exact ⟨fun he => (ht.mp (hs.mpr ⟨he, hlt⟩)).1, fun he => (hs.mp (ht.mpr ⟨he, hlt⟩)).1⟩

theorem stackBelow_congr (h : below n (events s r) = below n (events t r)) {p : Nat} (hp : p ≤ n) :
    stackBelow p (events s r) = stackBelow p (events t r) := by
  rw [stackBelow, stackBelow, ← below_below hp, ← below_below hp (events t r), h]

theorem openOf_ofText_congr (h : Text.Shares n s t) (hb : below n (events s r) = below n (events t r))
    {c : Nat} (hc : c < n) : (ofText s r).openOf c = (ofText t r).openOf c := by
  refine Option.ext fun o => ?_
  rw [(reads_ofText s r).openOf_eq_some (pairwise_events s r),
    (reads_ofText t r).openOf_eq_some (pairwise_events t r),
    mem_events_congr hb (show (Event.closed c).pos < n from hc), stackBelow_congr hb (Nat.le_of_lt hc)]
  refine and_congr_right fun _ => and_congr_right fun hhead => ?_
  have ho := (opened_of_mem_stackBelow (List.mem_of_head? hhead)).2
  rw [ofText_text, ofText_text, sameType, sameType, h.agree c hc, h.agree o (by omega)]

/-- Texts with the same start and the same events there look the same from its end. -/
theorem sameBelow_ofText (h : Text.Shares n s t) (hb : below n (events s r) = below n (events t r)) :
    SameBelow n (ofText s r) (ofText t r) where
  rules := by simp
  text := by simpa using h
  regionAtChar p hp := by
    refine Option.ext fun x => ?_
    rw [(reads_ofText s r).regionAtChar_eq_some (pairwise_events s r),
      (reads_ofText t r).regionAtChar_eq_some (pairwise_events t r)]
    refine and_congr_left fun hx => ?_
    exact mem_events_congr hb (show x.start < n by omega)
  regionAtGap p hp := by
    refine Option.ext fun x => ?_
    rw [(reads_ofText s r).regionAtGap_eq_some (pairwise_events s r),
      (reads_ofText t r).regionAtGap_eq_some (pairwise_events t r)]
    refine and_congr_left fun hx => ?_
    have := (LexState.containsGap_bounds hx).1
    exact mem_events_congr hb (show x.start < n by omega)
  openOf c hc := openOf_ofText_congr h hb hc
  enclosing p hp := by
    have hs := h.left
    have ht := h.right
    simp only [classify, ofText_text, openAt_ofText]
    rw [Nat.min_eq_left (by omega), Nat.min_eq_left (by omega), stackBelow_congr hb hp]

end Lexed

end BraceScopes
