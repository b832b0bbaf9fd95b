import BraceScopes.Proofs.Bisect
import BraceScopes.Proofs.Lex.Brackets
/-!
What the index of a text holds, said of the events alone.
-/
namespace BraceScopes

namespace Lexed

open BraceScopes.Lex

variable {ix : Lexed} {es : List Event}

/-- The index holds what the events say. -/
structure Reads (ix : Lexed) (es : List Event) : Prop where
  regions : ix.regions.toList = Lex.regions es
  brackets : ix.brackets.toList = (openers es).map (bracketOf ix.text es)
  closers : ix.closers.toList = (Lex.closers es).map (closingOf ix.text es)

theorem Reads.brackets_ascending (h : ix.Reads es) (sorted : es.Pairwise Event.Before) :
    ix.brackets.toList.Pairwise fun a b => a.pos < b.pos := by
  rw [h.brackets, List.pairwise_map]
  exact openers_ascending sorted

theorem Reads.closers_ascending (h : ix.Reads es) (sorted : es.Pairwise Event.Before) :
    ix.closers.toList.Pairwise fun a b => a.pos < b.pos := by
  rw [h.closers, List.pairwise_map]
  exact Lex.closers_ascending sorted

theorem Reads.regions_ascending (h : ix.Reads es) (sorted : es.Pairwise Event.Before) :
    ix.regions.toList.Pairwise fun a b => a.start < b.start := by
  rw [h.regions]
  exact (regions_ordered sorted).imp And.left

theorem Reads.mem_brackets (h : ix.Reads es) {b : Bracket} :
    b ∈ ix.brackets ↔ ∃ o, .opened o ∈ es ∧ bracketOf ix.text es o = b := by
  rw [← Array.mem_toList_iff, h.brackets, List.mem_map]
  simp only [mem_openers]

/-- Events that leave no trace among the brackets keep what the index says about them. -/
theorem map_bracketOf_append {e : Event} (sorted : (es ++ [e]).Pairwise Event.Before) (t : Text)
    (h : ∀ o ∈ openers es, ∀ c, e = .closed c → (stackAfter es).head? ≠ some o) :
    (openers es).map (bracketOf t (es ++ [e])) = (openers es).map (bracketOf t es) :=
  List.map_congr_left fun o ho => bracketOf_append sorted (mem_openers.mp ho) (h o ho)

theorem map_closingOf_append {e : Event} (sorted : (es ++ [e]).Pairwise Event.Before) (t : Text) :
    (Lex.closers es).map (closingOf t (es ++ [e])) = (Lex.closers es).map (closingOf t es) :=
  List.map_congr_left fun _ hc => closingOf_append sorted (mem_closers.mp hc)

theorem addEvent_region {x : Region} (sorted : (es ++ [Event.region x]).Pairwise Event.Before)
    (h : ix.Reads es) : (addEvent (ix, stackAfter es) (.region x)).1.Reads (es ++ [.region x]) := by
  constructor
  · simp [addEvent, h.regions, Lex.regions, Event.region?]
  · change ix.brackets.toList = (openers (es ++ [.region x])).map (bracketOf ix.text _)
    rw [h.brackets, ← map_bracketOf_append sorted ix.text fun _ _ _ hc => by cases hc]
    simp [openers, Event.opened?]
  · change ix.closers.toList = (Lex.closers (es ++ [.region x])).map (closingOf ix.text _)
    rw [h.closers, ← map_closingOf_append sorted ix.text]
    simp [Lex.closers, Event.closed?]

theorem addEvent_opened {p : Nat} (sorted : (es ++ [Event.opened p]).Pairwise Event.Before)
    (h : ix.Reads es) : (addEvent (ix, stackAfter es) (.opened p)).1.Reads (es ++ [.opened p]) := by
  have hlt := pos_lt_of_append sorted
  have hself : p ≤ (Event.opened p).pos := Nat.le_refl p
  have fresh : bracketOf ix.text (es ++ [.opened p]) p = ⟨p, none, false, stackAfter es⟩ := by
    have never : closerOf es p = none := by
      refine Option.eq_none_iff_forall_ne_some.mpr fun c hc => ?_
      have hp := (opened_of_mem_stackBelow (List.mem_of_head?
        ((closerOf_eq_some (List.pairwise_append.mp sorted).1).mp hc).2)).1
      exact absurd (hlt _ hp) (Nat.lt_irrefl _)
    rw [bracketOf, closerOf_append sorted fun _ hc => by cases hc]
    rw [never, stackBelow_append_singleton hself, stackBelow_eq_stackAfter (p := p) hlt]
    rfl
  constructor
  · simp [addEvent, h.regions, Lex.regions, Event.region?]
  · change (ix.brackets.push _).toList = (openers (es ++ [.opened p])).map (bracketOf ix.text _)
    rw [Array.toList_push, h.brackets,
      ← map_bracketOf_append sorted ix.text fun _ _ _ hc => by cases hc]
    simp [openers, Event.opened?, fresh]
  · change ix.closers.toList = (Lex.closers (es ++ [.opened p])).map (closingOf ix.text _)
    rw [h.closers, ← map_closingOf_append sorted ix.text]
    simp [Lex.closers, Event.closed?]

/-- A closing bracket changes the bracket that it takes off, and only that one. -/
theorem toList_modify_closed {c o : Nat} (sorted : (es ++ [Event.closed c]).Pairwise Event.Before)
    (h : ix.Reads es) (ho : (stackAfter es).head? = some o) :
    (ix.brackets.modify (countBefore ix.brackets o) fun b =>
        { b with closed := some c, matched := sameType ix.text o c }).toList =
      (openers es).map (bracketOf ix.text (es ++ [.closed c])) := by
  obtain ⟨hes, -, -⟩ := List.pairwise_append.mp sorted
  have hlt := pos_lt_of_append sorted
  have hself : c ≤ (Event.closed c).pos := Nat.le_refl c
  have innermost : (stackBelow c (es ++ [.closed c])).head? = some o := by
    rw [stackBelow_append_singleton hself, stackBelow_eq_stackAfter (p := c) hlt, ho]
  have opened : .opened o ∈ es := by
    rw [← stackBelow_eq_stackAfter (p := c) hlt] at ho
    exact (opened_of_mem_stackBelow (List.mem_of_head? ho)).1
  have closes : closerOf (es ++ [.closed c]) o = some c :=
    (closerOf_eq_some sorted).mpr ⟨by simp, innermost⟩
  have known : ∃ b ∈ ix.brackets, b.pos = o :=
    ⟨_, h.mem_brackets.mpr ⟨o, opened, rfl⟩, rfl⟩
  change (ix.brackets.modify (rank Bracket.pos ix.brackets o) _).toList = _
  rw [toList_modify_rank (h.brackets_ascending hes) known, h.brackets, List.map_map]
  refine List.map_congr_left fun x hx => ?_
  by_cases hxo : x = o
  · subst hxo
    have hx : x < (Event.closed c).pos := hlt _ opened
    simp [bracketOf, closes, stackBelow_append_singleton (Nat.le_of_lt hx)]
  · have other : ∀ d, Event.closed c = .closed d → (stackAfter es).head? ≠ some x := by
      intro d _ hd
      exact hxo (Option.some.inj (hd.symm.trans ho))
    rw [bracketOf_append sorted (mem_openers.mp hx) other]
    simp [bracketOf, hxo]

theorem addEvent_closed {c : Nat} (sorted : (es ++ [Event.closed c]).Pairwise Event.Before)
    (h : ix.Reads es) : (addEvent (ix, stackAfter es) (.closed c)).1.Reads (es ++ [.closed c]) := by
  have hlt := pos_lt_of_append sorted
  have hself : c ≤ (Event.closed c).pos := Nat.le_refl c
  have here : stackBelow c (es ++ [.closed c]) = stackAfter es := by
    rw [stackBelow_append_singleton hself, stackBelow_eq_stackAfter (p := c) hlt]
  have regionsEq : ix.regions.toList = Lex.regions (es ++ [.closed c]) := by
    simp [h.regions, Lex.regions, Event.region?]
  have openersEq : openers (es ++ [.closed c]) = openers es := by simp [openers, Event.opened?]
  have closersEq : Lex.closers (es ++ [.closed c]) = Lex.closers es ++ [c] := by
    simp [Lex.closers, Event.closed?]
  cases hs : stackAfter es with
  | nil =>
    refine ⟨regionsEq, ?_, ?_⟩
    · change ix.brackets.toList = (openers _).map (bracketOf ix.text _)
      rw [openersEq, h.brackets, map_bracketOf_append sorted ix.text fun _ _ _ _ => by simp [hs]]
    · change (ix.closers.push _).toList = (Lex.closers _).map (closingOf ix.text _)
      rw [Array.toList_push, h.closers, closersEq, List.map_append, map_closingOf_append sorted]
      simp [closingOf, here, hs]
  | cons o rest =>
    refine ⟨regionsEq, ?_, ?_⟩
    · change (ix.brackets.modify _ _).toList = (openers _).map (bracketOf ix.text _)
      rw [openersEq]
      exact toList_modify_closed sorted h (by rw [hs]; rfl)
    · change (ix.closers.push _).toList = (Lex.closers _).map (closingOf ix.text _)
      rw [Array.toList_push, h.closers, closersEq, List.map_append, map_closingOf_append sorted]
      simp [closingOf, here, hs, sameType, Option.filter]

theorem reads_addEvent {e : Event} (sorted : (es ++ [e]).Pairwise Event.Before) (h : ix.Reads es) :
    (addEvent (ix, stackAfter es) e).1.Reads (es ++ [e]) := by
  cases e with
  | region x => exact addEvent_region sorted h
  | opened p => exact addEvent_opened sorted h
  | closed c => exact addEvent_closed sorted h

theorem addEvent_text (s : Lexed × List Nat) (e : Event) :
    (addEvent s e).1.text = s.1.text ∧ (addEvent s e).1.rules = s.1.rules := by
  obtain ⟨ix, stack⟩ := s
  cases e with
  | closed c => cases stack <;> exact ⟨rfl, rfl⟩
  | _ => exact ⟨rfl, rfl⟩

theorem addEvent_stack (ix : Lexed) (es : List Event) (e : Event) :
    (addEvent (ix, stackAfter es) e).2 = stackAfter (es ++ [e]) := by
  rw [stackAfter_append_singleton]
  cases e with
  | closed c => cases hs : stackAfter es <;> simp [addEvent, Event.act]
  | _ => rfl

theorem foldl_addEvent (t : Text) (r : Rules) {es : List Event} (sorted : es.Pairwise Event.Before) :
    let s := es.foldl addEvent (⟨t, r, #[], #[], #[]⟩, [])
    (s.1.text = t ∧ s.1.rules = r) ∧ s.1.Reads es ∧ s.2 = stackAfter es := by
  induction es using List.reverseRecOn with
  | nil => exact ⟨⟨rfl, rfl⟩, ⟨rfl, rfl, rfl⟩, rfl⟩
  | append_singleton es e ih =>
    obtain ⟨⟨ht, hr⟩, hreads, hstack⟩ := ih (List.pairwise_append.mp sorted).1
    rw [List.foldl_append, List.foldl_cons, List.foldl_nil]
    generalize es.foldl addEvent (⟨t, r, #[], #[], #[]⟩, []) = s at ht hr hreads hstack ⊢
    obtain ⟨ix, stack⟩ := s
    simp only at ht hr hreads hstack
    subst hstack
    have htext := addEvent_text (ix, stackAfter es) e
    exact ⟨⟨htext.1.trans ht, htext.2.trans hr⟩, reads_addEvent sorted hreads, addEvent_stack ix es e⟩

@[simp]
theorem ofText_text (t : Text) (r : Rules) : (ofText t r).text = t :=
  (foldl_addEvent t r (pairwise_events t r)).1.1

@[simp]
theorem ofText_rules (t : Text) (r : Rules) : (ofText t r).rules = r :=
  (foldl_addEvent t r (pairwise_events t r)).1.2

/-- The index of a text holds what its events say. -/
theorem reads_ofText (t : Text) (r : Rules) : (ofText t r).Reads (events t r) :=
  (foldl_addEvent t r (pairwise_events t r)).2.1

end Lexed

end BraceScopes
