import BraceScopes.Lex.Index
import BraceScopes.Proofs.Lex.Stack
/-!
The brackets and regions of a list of events: which closing bracket takes off which opening one, and
how that changes when one more event comes.
-/
namespace BraceScopes

namespace Event

def opened? : Event → Option Nat
  | .opened p => some p
  | _ => none

def closed? : Event → Option Nat
  | .closed p => some p
  | _ => none

def region? : Event → Option Region
  | .region x => some x
  | _ => none

theorem opened?_eq_some {e : Event} {p : Nat} : e.opened? = some p ↔ e = .opened p := by
  cases e <;> simp [opened?]

theorem closed?_eq_some {e : Event} {p : Nat} : e.closed? = some p ↔ e = .closed p := by
  cases e <;> simp [closed?]

theorem region?_eq_some {e : Event} {x : Region} : e.region? = some x ↔ e = .region x := by
  cases e <;> simp [region?]

end Event

namespace Lex

variable {t : Text} {es : List Event} {e : Event}

def openers (es : List Event) : List Nat := es.filterMap Event.opened?

def closers (es : List Event) : List Nat := es.filterMap Event.closed?

def regions (es : List Event) : List Region := es.filterMap Event.region?

theorem mem_openers {o : Nat} : o ∈ openers es ↔ .opened o ∈ es := by
  simp [openers, Event.opened?_eq_some]

theorem mem_closers {c : Nat} : c ∈ closers es ↔ .closed c ∈ es := by
  simp [closers, Event.closed?_eq_some]

theorem mem_regions {x : Region} : x ∈ regions es ↔ .region x ∈ es := by
  simp [regions, Event.region?_eq_some]

theorem openers_ascending (sorted : es.Pairwise Event.Before) : (openers es).Pairwise (· < ·) := by
  refine sorted.filterMap _ fun a b hab x hx y hy => ?_
  cases Event.opened?_eq_some.mp hx
  cases Event.opened?_eq_some.mp hy
  exact hab.1

theorem closers_ascending (sorted : es.Pairwise Event.Before) : (closers es).Pairwise (· < ·) := by
  refine sorted.filterMap _ fun a b hab x hx y hy => ?_
  cases Event.closed?_eq_some.mp hx
  cases Event.closed?_eq_some.mp hy
  exact hab.1

theorem regions_ordered (sorted : es.Pairwise Event.Before) :
    (regions es).Pairwise fun x y => x.start < y.start ∧ x.stop ≤ y.start := by
  refine sorted.filterMap _ fun a b hab x hx y hy => ?_
  cases Event.region?_eq_some.mp hx
  cases Event.region?_eq_some.mp hy
  exact hab

/-- The last region that begins before a place is the one that the place lies in, if there is one. -/
theorem getLast_regions (sorted : es.Pairwise Event.Before) {x : Region} {p : Nat}
    (hx : .region x ∈ es) (hlt : x.start < p) (hle : p ≤ x.stop) :
    ((regions es).filter (·.start < p)).getLast? = some x := by
  have mem : x ∈ (regions es).filter (·.start < p) :=
    List.mem_filter.mpr ⟨mem_regions.mpr hx, by simpa using hlt⟩
  have order := (regions_ordered sorted).filter (·.start < p)
  obtain ⟨y, hy⟩ := List.getLast?_isSome.mpr (List.ne_nil_of_mem mem) |> Option.isSome_iff_exists.mp
  obtain ⟨init, heq⟩ := List.getLast?_eq_some_iff.mp hy
  have hyp : y ∈ (regions es).filter (·.start < p) := List.mem_of_getLast? hy
  rw [heq] at mem order
  rcases List.mem_append.mp mem with hin | hin
  · have := (List.pairwise_append.mp order).2.2 x hin y (by simp)
    have := (List.mem_filter.mp hyp).2
    simp only [decide_eq_true_eq] at this
    omega
  · rw [hy, List.mem_singleton.mp hin]

/-- The closing bracket that takes off the bracket opened at `o`, of whatever type. -/
def closerOf (es : List Event) (o : Nat) : Option Nat :=
  (closers es).find? fun c => (stackBelow c es).head? == some o

/-- Whether the closing bracket at `c` has the type of the opening bracket at `o`. -/
def sameType (t : Text) (o c : Nat) : Bool := (t.charAt c).bind openerOf == t.charAt o

/-- What the events say about the bracket opened at `o`. -/
def bracketOf (t : Text) (es : List Event) (o : Nat) : Bracket :=
  ⟨o, closerOf es o, (closerOf es o).any (sameType t o), stackBelow o es⟩

@[simp]
theorem bracketOf_pos (t : Text) (es : List Event) (o : Nat) : (bracketOf t es o).pos = o := rfl

/-- What the events say about the closing bracket at `c`. -/
def closingOf (t : Text) (es : List Event) (c : Nat) : Closer :=
  ⟨c, (stackBelow c es).head?.filter (sameType t · c)⟩

theorem closerOf_eq_some (sorted : es.Pairwise Event.Before) {o c : Nat} :
    closerOf es o = some c ↔ .closed c ∈ es ∧ (stackBelow c es).head? = some o := by
  constructor
  · intro h
    exact ⟨mem_closers.mp (List.mem_of_find?_eq_some h), by simpa using List.find?_some h⟩
  · rintro ⟨hc, hhead⟩
    have once : ∀ d, .closed d ∈ es → (stackBelow d es).head? = some o → d = c := by
      intro d hd hd'
      have ho := opened_of_mem_stackBelow (List.mem_of_head? hhead)
      have ho' := opened_of_mem_stackBelow (List.mem_of_head? hd')
      -- The earlier of the two takes `o` off, so it is not open at the later one.
      rcases Nat.lt_trichotomy c d with hlt | rfl | hlt
      · exact absurd ⟨c, hc, hlt, hhead⟩
          ((mem_stackBelow_iff sorted ho.1 ho'.2).mp (List.mem_of_head? hd'))
      · rfl
      · exact absurd ⟨d, hd, hlt, hd'⟩
          ((mem_stackBelow_iff sorted ho.1 ho.2).mp (List.mem_of_head? hhead))
    unfold closerOf
    cases hf : (closers es).find? fun c => (stackBelow c es).head? == some o with
    | none => exact absurd (List.find?_eq_none.mp hf c (mem_closers.mpr hc)) (by simp [hhead])
    | some d =>
      have hd := mem_closers.mp (List.mem_of_find?_eq_some hf)
      rw [once d hd (by simpa using List.find?_some hf)]

theorem pos_lt_of_append (sorted : (es ++ [e]).Pairwise Event.Before) : ∀ f ∈ es, f.pos < e.pos :=
  fun f hf => ((List.pairwise_append.mp sorted).2.2 f hf e (by simp)).1

/-- A further event closes the bracket at `o` only if it is a closing bracket and `o` is innermost. -/
theorem closerOf_append (sorted : (es ++ [e]).Pairwise Event.Before) {o : Nat}
    (h : ∀ c, e = .closed c → (stackAfter es).head? ≠ some o) :
    closerOf (es ++ [e]) o = closerOf es o := by
  have hlt := pos_lt_of_append sorted
  refine Option.ext fun c => ?_
  rw [closerOf_eq_some sorted, closerOf_eq_some (List.pairwise_append.mp sorted).1, List.mem_append,
    List.mem_singleton]
  have kept : .closed c ∈ es → stackBelow c (es ++ [e]) = stackBelow c es := fun hc =>
    stackBelow_append_singleton (Nat.le_of_lt (show c < e.pos from hlt _ hc))
  constructor
  · rintro ⟨hc | hc, hhead⟩
    · exact ⟨hc, kept hc ▸ hhead⟩
    · subst hc
      have hc : c ≤ (Event.closed c).pos := Nat.le_refl c
      rw [stackBelow_append_singleton hc, stackBelow_eq_stackAfter (p := c) hlt] at hhead
      exact absurd hhead (h c rfl)
  · rintro ⟨hc, hhead⟩
    exact ⟨.inl hc, (kept hc).symm ▸ hhead⟩

theorem bracketOf_append (sorted : (es ++ [e]).Pairwise Event.Before) {o : Nat} (ho : .opened o ∈ es)
    (h : ∀ c, e = .closed c → (stackAfter es).head? ≠ some o) :
    bracketOf t (es ++ [e]) o = bracketOf t es o := by
  have hlt : o < e.pos := pos_lt_of_append sorted _ ho
  rw [bracketOf, bracketOf, closerOf_append sorted h, stackBelow_append_singleton (Nat.le_of_lt hlt)]

theorem closingOf_append (sorted : (es ++ [e]).Pairwise Event.Before) {c : Nat}
    (hc : .closed c ∈ es) : closingOf t (es ++ [e]) c = closingOf t es c := by
  have hlt : c < e.pos := pos_lt_of_append sorted _ hc
  rw [closingOf, closingOf, stackBelow_append_singleton (Nat.le_of_lt hlt)]

end Lex

end BraceScopes
