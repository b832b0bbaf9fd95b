import BraceScopes.Lex.State
/-!
The events of a text stand in the order of the text, and each one begins at or after the end of the
one before. So the events before a place determine everything the lexer knows there.
-/
namespace BraceScopes

theorem openerOf_isSome_iff {c : Char} :
    (openerOf c).isSome = true ↔ c = ')' ∨ c = ']' ∨ c = '}' := by
  constructor
  · intro h
    unfold openerOf at h
    split at h
    next => exact .inl rfl
    next => exact .inr (.inl rfl)
    next => exact .inr (.inr rfl)
    next => simp at h
  · rintro (rfl | rfl | rfl) <;> rfl

theorem isOpener_iff {c : Char} : isOpener c = true ↔ c = '(' ∨ c = '[' ∨ c = '{' := by
  simp [isOpener, or_assoc]

namespace Event

def pos : Event → Nat
  | .opened p => p
  | .closed p => p
  | .region r => r.start

@[simp] theorem pos_opened (p : Nat) : (opened p).pos = p := rfl

@[simp] theorem pos_closed (p : Nat) : (closed p).pos = p := rfl

@[simp] theorem pos_region (x : Region) : (region x).pos = x.start := rfl

/-- Where lexing goes on after an event. -/
def stop : Event → Nat
  | .opened p => p + 1
  | .closed p => p + 1
  | .region r => r.stop

def isBracket : Event → Bool
  | .region _ => false
  | _ => true

/-- One event is over where the other begins. -/
def Before (a b : Event) : Prop := a.pos < b.pos ∧ a.stop ≤ b.pos

end Event

namespace Lex

theorem regionAt_start {t : Text} {r : Rules} {p : Nat} {x : Region} (h : regionAt? t r p = some x) :
    x.start = p := by
  unfold regionAt? lineComment? blockComment? textBlock? quoted? at h
  simp only [Option.orElse_eq_orElse, Option.orElse_eq_or, Option.or_eq_some_iff] at h
  grind

theorem bracketAt_eq_some {t : Text} {p : Nat} {e : Event} (h : bracketAt? t p = some e) :
    (e = .opened p ∨ e = .closed p) ∧ t.next p = p + 1 := by
  unfold bracketAt? at h
  split at h
  next c hc =>
    have width : isOpener c = true ∨ (openerOf c).isSome = true → t.next p = p + 1 := by
      rw [isOpener_iff, openerOf_isSome_iff]
      rintro ((rfl | rfl | rfl) | (rfl | rfl | rfl)) <;> simp [Text.next, hc] <;> rfl
    split at h
    next ho => cases h; exact ⟨.inl rfl, width (.inl ho)⟩
    next =>
      split at h
      next hc' => cases h; exact ⟨.inr rfl, width (.inr hc')⟩
      next => simp at h
  next => simp at h

/-- An event begins at the place that was read and ends where lexing goes on. -/
theorem step_event {t : Text} {r : Rules} {p q : Nat} {e : Event} (h : step t r p = (some e, q)) :
    e.pos = p ∧ e.stop = q := by
  unfold step at h
  split at h
  next x hx =>
    cases h
    exact ⟨regionAt_start hx, rfl⟩
  next =>
    obtain ⟨he, hq⟩ := Prod.mk.inj h
    obtain ⟨rfl | rfl, hn⟩ := bracketAt_eq_some he
    · exact ⟨rfl, by rw [← hq, hn]; rfl⟩
    · exact ⟨rfl, by rw [← hq, hn]; rfl⟩

/-- Where lexing goes on, it reports what stands at a place and then the events after it. -/
theorem eventsFrom_of_lt {t : Text} {r : Rules} {p q : Nat} {e : Option Event} (hp : p < t.size)
    (h : step t r p = (e, q)) (hq : p < q) : eventsFrom t r p = e.toList ++ eventsFrom t r q := by
  rw [eventsFrom, if_pos hp, h]
  simp only [hq, ↓reduceIte]

theorem pos_ge_of_mem {t : Text} {r : Rules} {p : Nat} {e : Event} (h : e ∈ eventsFrom t r p) :
    p ≤ e.pos := by
  fun_induction eventsFrom t r p with
  | case1 p hp event q hs hq ih =>
    rcases List.mem_append.mp h with h | h
    · have he : event = some e := by simpa using h
      have := (step_event (he ▸ hs)).1
      omega
    · have := ih h
      omega
  | case2 p hp event q hs hq =>
    have he : event = some e := by simpa using h
    have := (step_event (he ▸ hs)).1
    omega
  | case3 p hp => simp at h

theorem pairwise_eventsFrom (t : Text) (r : Rules) (p : Nat) :
    (eventsFrom t r p).Pairwise Event.Before := by
  fun_induction eventsFrom t r p with
  | case1 p hp event q hs hq ih =>
    cases event with
    | none => exact ih
    | some e =>
      refine List.pairwise_cons.mpr ⟨fun f hf => ?_, ih⟩
      have hf := pos_ge_of_mem hf
      have he := step_event hs
      exact ⟨by omega, by omega⟩
  | case2 p hp event q hs hq => cases event <;> simp
  | case3 p hp => exact .nil

theorem pairwise_events (t : Text) (r : Rules) : (events t r).Pairwise Event.Before :=
  pairwise_eventsFrom t r 0

/-- Every event is what the lexer reports at its place. -/
theorem step_of_mem {t : Text} {r : Rules} {p : Nat} {e : Event} (h : e ∈ eventsFrom t r p) :
    e.pos < t.size ∧ step t r e.pos = (some e, e.stop) := by
  have reported : ∀ {p q : Nat} {event : Option Event}, p < t.size → step t r p = (event, q) →
      e ∈ event.toList → e.pos < t.size ∧ step t r e.pos = (some e, e.stop) := by
    intro p q event hp hs he
    obtain rfl : event = some e := by simpa using he
    obtain ⟨rfl, rfl⟩ := step_event hs
    exact ⟨hp, hs⟩
  fun_induction eventsFrom t r p with
  | case1 p hp event q hs hq ih =>
    rcases List.mem_append.mp h with h | h
    · exact reported hp hs h
    · exact ih h
  | case2 p hp event q hs hq => exact reported hp hs h
  | case3 p hp => simp at h

theorem bracketAt_of_mem {t : Text} {r : Rules} {p : Nat} {e : Event} (h : e ∈ eventsFrom t r p)
    (hb : e.isBracket = true) : bracketAt? t e.pos = some e := by
  have hs := (step_of_mem h).2
  unfold step at hs
  split at hs
  next => cases (Prod.mk.inj hs).1; simp [Event.isBracket] at hb
  next => exact (Prod.mk.inj hs).1

end Lex

end BraceScopes
