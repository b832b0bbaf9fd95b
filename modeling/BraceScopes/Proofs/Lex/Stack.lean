import BraceScopes.Proofs.Lex.Order
import Mathlib.Data.List.Induction
import Mathlib.Data.List.Pairwise
import Mathlib.Data.List.Sort
/-!
The brackets that are open after some events. A closing bracket takes off the innermost one, of
whatever type, and none that was taken off comes back.
-/
namespace BraceScopes

namespace Event

/-- What an event does to the brackets open so far, innermost first. -/
def act (stack : List Nat) : Event → List Nat
  | .opened p => p :: stack
  | .closed _ => stack.tail
  | .region _ => stack

end Event

namespace Lex

/-- The brackets open after some events. -/
def stackAfter (es : List Event) : List Nat := es.foldl Event.act []

/-- The events that begin before `p`. -/
def below (p : Nat) (es : List Event) : List Event := es.filter (·.pos < p)

/-- The brackets open at gap `p`. -/
def stackBelow (p : Nat) (es : List Event) : List Nat := stackAfter (below p es)

theorem mem_below {p : Nat} {es : List Event} {e : Event} : e ∈ below p es ↔ e ∈ es ∧ e.pos < p := by
  simp [below]

theorem below_below {p q : Nat} (h : q ≤ p) (es : List Event) : below q (below p es) = below q es := by
  unfold below
  rw [List.filter_filter]
  refine List.filter_congr fun e _ => ?_
  simp only [Bool.and_eq_left_iff_imp, decide_eq_true_eq]
  omega

theorem below_eq_self {p : Nat} {es : List Event} (h : ∀ e ∈ es, e.pos < p) : below p es = es :=
  List.filter_eq_self.mpr fun e he => by simpa using h e he

theorem below_append (p : Nat) (es fs : List Event) : below p (es ++ fs) = below p es ++ below p fs :=
  List.filter_append ..

theorem below_eq_nil_of_le {p : Nat} {es : List Event} (h : ∀ e ∈ es, p ≤ e.pos) : below p es = [] :=
  List.filter_eq_nil_iff.mpr fun e he => by simpa using h e he

theorem below_append_singleton {p : Nat} {es : List Event} {e : Event} (h : p ≤ e.pos) :
    below p (es ++ [e]) = below p es := by
  have last : below p [e] = [] := below_eq_nil_of_le (by simpa using h)
  rw [below_append, last, List.append_nil]

theorem below_cons_of_lt {p : Nat} {e : Event} (h : e.pos < p) (es : List Event) :
    below p (e :: es) = e :: below p es :=
  List.filter_cons_of_pos (by simpa using h)

/-- After an event that is over at `p` or later, no event begins before `p`. -/
theorem below_eq_nil {p : Nat} {e : Event} {es : List Event} (he : ∀ f ∈ es, e.Before f)
    (h : p ≤ e.pos ∨ p ≤ e.stop) : below p es = [] := by
  refine List.filter_eq_nil_iff.mpr fun f hf => ?_
  have := he f hf
  simp only [Event.Before, decide_eq_true_eq] at this ⊢
  omega

theorem below_cons_of_le {p : Nat} {e : Event} {es : List Event} (he : ∀ f ∈ es, e.Before f)
    (h : p ≤ e.pos) : below p (e :: es) = [] := by
  have rest := below_eq_nil he (.inl h)
  rw [below, List.filter_cons_of_neg (by simpa using h)]
  exact rest

theorem stackAfter_append_singleton (es : List Event) (e : Event) :
    stackAfter (es ++ [e]) = e.act (stackAfter es) := by
  simp [stackAfter]

theorem stackBelow_append_singleton {p : Nat} {es : List Event} {e : Event} (h : p ≤ e.pos) :
    stackBelow p (es ++ [e]) = stackBelow p es := by
  rw [stackBelow, below_append_singleton h]
  rfl

theorem stackBelow_eq_stackAfter {p : Nat} {es : List Event} (h : ∀ e ∈ es, e.pos < p) :
    stackBelow p es = stackAfter es := by
  rw [stackBelow, below_eq_self h]

theorem mem_act {stack : List Nat} {e : Event} {o : Nat} (h : o ∈ e.act stack) :
    o ∈ stack ∨ e = .opened o := by
  cases e with
  | opened p =>
    rcases List.mem_cons.mp h with rfl | h
    · exact .inr rfl
    · exact .inl h
  | closed p => exact .inl (List.mem_of_mem_tail h)
  | region x => exact .inl h

theorem mem_foldl_act {es : List Event} {stack : List Nat} {o : Nat}
    (h : o ∈ es.foldl Event.act stack) : o ∈ stack ∨ .opened o ∈ es := by
  induction es generalizing stack with
  | nil => exact .inl h
  | cons e es ih =>
    rcases ih h with h | h
    · rcases mem_act h with h | rfl
      · exact .inl h
      · exact .inr (List.mem_cons_self ..)
    · exact .inr (List.mem_cons_of_mem e h)

/-- An open bracket is one that was opened. -/
theorem opened_of_mem_stackBelow {es : List Event} {p o : Nat} (h : o ∈ stackBelow p es) :
    .opened o ∈ es ∧ o < p := by
  rcases mem_foldl_act h with h | h
  · simp at h
  · exact mem_below.mp h

/-- Without opening brackets the stack only shrinks. -/
theorem foldl_act_suffix {es : List Event} (h : ∀ o, .opened o ∉ es) (stack : List Nat) :
    es.foldl Event.act stack <:+ stack := by
  induction es generalizing stack with
  | nil => exact List.suffix_refl stack
  | cons e es ih =>
    have rest := ih (fun o ho => h o (List.mem_cons_of_mem e ho)) (e.act stack)
    cases e with
    | opened p => exact absurd (List.mem_cons_self ..) (h p)
    | closed p => exact rest.trans (List.tail_suffix stack)
    | region x => exact rest

theorem stackAfter_descending {es : List Event} (sorted : es.Pairwise Event.Before) :
    (stackAfter es).Pairwise (· > ·) := by
  induction es using List.reverseRecOn with
  | nil => exact .nil
  | append_singleton es e ih =>
    obtain ⟨hes, -, hlt⟩ := List.pairwise_append.mp sorted
    rw [stackAfter_append_singleton]
    cases e with
    | opened p =>
      refine List.pairwise_cons.mpr ⟨fun o ho => ?_, ih hes⟩
      rcases mem_foldl_act ho with ho | ho
      · simp at ho
      · exact (hlt _ ho (.opened p) (by simp)).1
    | closed p => exact (ih hes).sublist (List.tail_sublist _)
    | region x => exact ih hes

theorem stackBelow_descending {es : List Event} (sorted : es.Pairwise Event.Before) (p : Nat) :
    (stackBelow p es).Pairwise (· > ·) :=
  stackAfter_descending (sorted.filter _)

theorem before_or_after {es : List Event} (sorted : es.Pairwise Event.Before) {a b : Event}
    (ha : a ∈ es) (hb : b ∈ es) (hne : a ≠ b) : a.Before b ∨ b.Before a := by
  have : Std.Symm fun a b : Event => a.Before b ∨ b.Before a := ⟨fun _ _ => Or.symm⟩
  have sides : es.Pairwise fun a b => a.Before b ∨ b.Before a := sorted.imp .inl
  exact sides.forall ha hb hne

/-- The events before an event, that event, and the events after it. -/
theorem eq_below_append {es : List Event} (sorted : es.Pairwise Event.Before) {e : Event}
    (h : e ∈ es) : ∃ rest, es = below e.pos es ++ e :: rest ∧ ∀ f ∈ rest, e.pos < f.pos := by
  induction es with
  | nil => simp at h
  | cons x es ih =>
    obtain ⟨hx, hes⟩ := List.pairwise_cons.mp sorted
    rcases List.mem_cons.mp h with rfl | h
    · refine ⟨es, ?_, fun f hf => (hx f hf).1⟩
      rw [below_cons_of_le hx (Nat.le_refl _), List.nil_append]
    · obtain ⟨rest, heq, hrest⟩ := ih hes h
      refine ⟨rest, ?_, hrest⟩
      rw [below_cons_of_lt (hx e h).1, List.cons_append, ← heq]

theorem below_of_lt {es : List Event} (sorted : es.Pairwise Event.Before) {e : Event} (h : e ∈ es)
    {p : Nat} (hp : e.pos < p) :
    ∃ rest, below p es = below e.pos es ++ e :: rest ∧ ∀ f ∈ rest, e.pos < f.pos ∧ f ∈ below p es := by
  obtain ⟨rest, heq, hrest⟩ :=
    eq_below_append (sorted.filter fun e : Event => e.pos < p) (mem_below.mpr ⟨h, hp⟩)
  refine ⟨rest, ?_, fun f hf => ⟨hrest f hf, ?_⟩⟩
  · rw [← below_below (Nat.le_of_lt hp) es]
    exact heq
  · change f ∈ es.filter _
    rw [heq]
    simp [hf]

/-- An opening bracket is still open at the end, or a closing bracket took it off. -/
theorem mem_stackAfter_or_closed {es : List Event} (sorted : es.Pairwise Event.Before) {o : Nat}
    (h : .opened o ∈ es) :
    o ∈ stackAfter es ∨ ∃ c, .closed c ∈ es ∧ (stackBelow c es).head? = some o := by
  induction es using List.reverseRecOn with
  | nil => simp at h
  | append_singleton es e ih =>
    obtain ⟨hes, -, hlt⟩ := List.pairwise_append.mp sorted
    have hlt : ∀ f ∈ es, f.pos < e.pos := fun f hf => (hlt f hf e (by simp)).1
    rw [stackAfter_append_singleton]
    rcases List.mem_append.mp h with h | h
    · rcases ih hes h with hin | ⟨c, hc, hhead⟩
      · cases e with
        | opened q => exact .inl (List.mem_cons_of_mem q hin)
        | region x => exact .inl hin
        | closed q =>
          cases hst : stackAfter es with
          | nil => simp [hst] at hin
          | cons x xs =>
            rcases List.mem_cons.mp (hst ▸ hin) with rfl | hin
            · refine .inr ⟨q, by simp, ?_⟩
              have hq : q ≤ (Event.closed q).pos := Nat.le_refl q
              rw [stackBelow_append_singleton hq, stackBelow_eq_stackAfter (p := q) hlt, hst]
              rfl
            · exact .inl hin
      · refine .inr ⟨c, List.mem_append_left _ hc, ?_⟩
        have hce : c < e.pos := hlt _ hc
        rwa [stackBelow_append_singleton (Nat.le_of_lt hce)]
    · obtain rfl : e = .opened o := (List.mem_singleton.mp h).symm
      exact .inl (List.mem_cons_self ..)

/-- A bracket is open at `p` unless a closing bracket took it off before. -/
theorem mem_stackBelow_iff {es : List Event} (sorted : es.Pairwise Event.Before) {p o : Nat}
    (h : .opened o ∈ es) (hp : o < p) :
    o ∈ stackBelow p es ↔
      ¬ ∃ c, .closed c ∈ es ∧ c < p ∧ (stackBelow c es).head? = some o := by
  constructor
  · rintro hmem ⟨c, hc, hcp, hhead⟩
    obtain ⟨rest, heq, hrest⟩ := below_of_lt sorted hc hcp
    have hoc := (opened_of_mem_stackBelow (List.mem_of_head? hhead)).2
    -- After the closing bracket only the brackets below `o` and later ones can be open.
    rw [stackBelow, heq, stackAfter, List.foldl_append, List.foldl_cons] at hmem
    change o ∈ rest.foldl Event.act (stackBelow c es).tail at hmem
    obtain ⟨tail, htail⟩ := List.head?_eq_some_iff.mp hhead
    have desc := stackBelow_descending sorted c
    rw [htail] at desc hmem
    rcases mem_foldl_act hmem with hmem | hmem
    · exact absurd ((List.pairwise_cons.mp desc).1 o hmem) (by omega)
    · have := (hrest _ hmem).1
      simp only [Event.pos] at this
      omega
  · intro hnone
    rcases mem_stackAfter_or_closed (sorted.filter fun e : Event => e.pos < p)
      (mem_below.mpr ⟨h, hp⟩) with hin | ⟨c, hc, hhead⟩
    · exact hin
    · obtain ⟨hc, hcp⟩ := mem_below.mp hc
      have hcp : c < p := hcp
      have same := below_below (Nat.le_of_lt hcp) es
      rw [stackBelow, show es.filter (fun e : Event => e.pos < p) = below p es from rfl, same] at hhead
      exact absurd ⟨c, hc, hcp, hhead⟩ hnone

theorem mem_stackBelow_of_lt {es : List Event} (sorted : es.Pairwise Event.Before) {p o q : Nat}
    (hq : q ∈ stackBelow p es) (hqo : q < o) (hop : o ≤ p) : q ∈ stackBelow o es := by
  obtain ⟨hopened, hqp⟩ := opened_of_mem_stackBelow hq
  have still := (mem_stackBelow_iff sorted hopened hqp).mp hq
  apply (mem_stackBelow_iff sorted hopened hqo).mpr
  rintro ⟨c, hc, hco, hhead⟩
  exact still ⟨c, hc, by omega, hhead⟩

/-- The brackets around a bracket stay open as long as it does. -/
theorem mem_stackBelow_trans {es : List Event} (sorted : es.Pairwise Event.Before) {p o q : Nat}
    (hq : q ∈ stackBelow o es) (ho : o ∈ stackBelow p es) : q ∈ stackBelow p es := by
  obtain ⟨hopened, hqo⟩ := opened_of_mem_stackBelow hq
  obtain ⟨-, hop⟩ := opened_of_mem_stackBelow ho
  apply (mem_stackBelow_iff sorted hopened (by omega)).mpr
  rintro ⟨c, hc, hcp, hhead⟩
  by_cases hco : c < o
  · exact (mem_stackBelow_iff sorted hopened hqo).mp hq ⟨c, hc, hco, hhead⟩
  · -- A closing bracket after `o` takes off the innermost bracket, and `o` lies inside `q`.
    have hne : o ≠ c := by
      rintro rfl
      have apart := before_or_after sorted (opened_of_mem_stackBelow ho).1 hc (by simp)
      simp only [Event.Before, Event.pos] at apart
      omega
    have hoc := mem_stackBelow_of_lt sorted ho (show o < c by omega) (Nat.le_of_lt hcp)
    obtain ⟨rest, hrest⟩ := List.head?_eq_some_iff.mp hhead
    have descending := stackBelow_descending sorted c
    rw [hrest] at descending hoc
    rcases List.mem_cons.mp hoc with heq | hin
    · omega
    · have := (List.pairwise_cons.mp descending).1 o hin
      omega

/-- What lies below a bracket on the stack are the brackets around it. -/
theorem stackBelow_of_split {es : List Event} (sorted : es.Pairwise Event.Before) {p o : Nat}
    {inner outer : List Nat} (h : stackBelow p es = inner ++ o :: outer) : stackBelow o es = outer := by
  have descending := stackBelow_descending sorted p
  rw [h] at descending
  obtain ⟨-, hafter, hinner⟩ := List.pairwise_append.mp descending
  obtain ⟨hlt, houter⟩ := List.pairwise_cons.mp hafter
  have ho : o ∈ stackBelow p es := by simp [h]
  refine (stackBelow_descending sorted o).eq_of_mem_iff houter fun q => ⟨fun hq => ?_, fun hq => ?_⟩
  · have hqo := (opened_of_mem_stackBelow hq).2
    have hqp := mem_stackBelow_trans sorted hq ho
    rw [h] at hqp
    rcases List.mem_append.mp hqp with hin | hin
    · have := hinner q hin o (List.mem_cons_self ..)
      omega
    · rcases List.mem_cons.mp hin with rfl | hin
      · omega
      · exact hin
  · have hqp : q ∈ stackBelow p es := by simp [h, hq]
    exact mem_stackBelow_of_lt sorted hqp (hlt q hq) (Nat.le_of_lt (opened_of_mem_stackBelow ho).2)

theorem stackBelow_of_head {es : List Event} (sorted : es.Pairwise Event.Before) {p o : Nat}
    (h : (stackBelow p es).head? = some o) : stackBelow p es = o :: stackBelow o es := by
  obtain ⟨outer, hstack⟩ := List.head?_eq_some_iff.mp h
  rw [hstack, stackBelow_of_split sorted (show _ = [] ++ o :: outer from hstack)]

theorem le_of_head {es : List Event} (sorted : es.Pairwise Event.Before) {p o q : Nat}
    (h : (stackBelow p es).head? = some o) (hq : q ∈ stackBelow p es) : q ≤ o := by
  have descending := stackBelow_descending sorted p
  rw [stackBelow_of_head sorted h] at descending hq
  rcases List.mem_cons.mp hq with rfl | hq
  · exact Nat.le_refl q
  · exact Nat.le_of_lt ((List.pairwise_cons.mp descending).1 q hq)

end Lex

end BraceScopes
