import BraceScopes.Proofs.Lex.Code
import Mathlib.Order.Bounds.Defs
/-!
Which closing bracket takes off which opening one, said of the events between the two. Brackets that
pair stand as in a well-formed text, however broken the text is: of two pairs one lies inside the other,
or they lie apart.
-/
namespace BraceScopes

namespace Lex

/-- Events in which every closing bracket takes off a bracket opened before it and none stays open. -/
inductive Nested : List Event → Prop
  | nil : Nested []
  | region {es : List Event} (x : Region) (rest : Nested es) : Nested (.region x :: es)
  | pair {es fs : List Event} (o c : Nat) (inner : Nested es) (rest : Nested fs) :
      Nested (.opened o :: (es ++ .closed c :: fs))

/-- The closing bracket at `c` takes off the bracket opened at `o`, of whatever type: what opens between
them is taken off between them. -/
def TakesOff (es : List Event) (c o : Nat) : Prop :=
  ∃ before inner after, es = before ++ .opened o :: (inner ++ .closed c :: after) ∧ Nested inner

/-- The bracket opened at `o` before gap `p` is taken off by no closing bracket before `p`. -/
def Unclosed (es : List Event) (p o : Nat) : Prop :=
  .opened o ∈ es ∧ o < p ∧ ∀ c < p, ¬ TakesOff es c o

variable {es fs : List Event} {p o o' c c' : Nat} {stack : List Nat}

theorem Nested.append (h : Nested es) (h' : Nested fs) : Nested (es ++ fs) := by
  induction h with
  | nil => exact h'
  | region x rest ih => exact .region x ih
  | pair o c inner rest _ ih =>
    rw [List.cons_append, List.append_assoc, List.cons_append]
    exact .pair o c inner ih

/-- Nested events leave the open brackets as they are. -/
theorem Nested.foldl_act (h : Nested es) (stack : List Nat) : es.foldl Event.act stack = stack := by
  induction h generalizing stack with
  | nil => rfl
  | region x rest ih => exact ih stack
  | pair o c inner rest ihi ihr =>
    rw [List.foldl_cons, List.foldl_append, ihi, List.foldl_cons, ihr]
    rfl

/-- After the innermost open bracket the events are nested. -/
theorem exists_nested_of_stackAfter (h : stackAfter es = o :: stack) :
    ∃ before inner, es = before ++ .opened o :: inner ∧ Nested inner ∧ stackAfter before = stack := by
  induction hn : es.length using Nat.strongRecOn generalizing es o stack with
  | ind n ih =>
    rcases List.eq_nil_or_concat es with rfl | ⟨es, e, rfl⟩
    · simp [stackAfter] at h
    · rw [List.concat_eq_append] at h hn ⊢
      rw [stackAfter_append_singleton] at h
      rw [List.length_append, List.length_singleton] at hn
      cases e with
      | opened q =>
        cases h
        exact ⟨es, [], rfl, .nil, rfl⟩
      | region x =>
        obtain ⟨before, inner, rfl, nested, hbefore⟩ := ih es.length (by omega) h rfl
        exact ⟨before, inner ++ [.region x], by simp, nested.append (.region x .nil), hbefore⟩
      | closed k =>
        -- The bracket taken off last lies inside the one that is innermost now.
        obtain ⟨q, hq⟩ : ∃ q, stackAfter es = q :: o :: stack := by
          cases hs : stackAfter es with
          | nil => simp [Event.act, hs] at h
          | cons q rest => exact ⟨q, by rw [← h, hs]; rfl⟩
        obtain ⟨middle, last, rfl, lastNested, hmiddle⟩ := ih es.length (by omega) hq rfl
        rw [List.length_append] at hn
        obtain ⟨before, inner, rfl, nested, hbefore⟩ := ih middle.length (by omega) hmiddle rfl
        refine ⟨before, inner ++ .opened q :: (last ++ [.closed k]), by simp, ?_, hbefore⟩
        exact nested.append (.pair q k lastNested .nil)

/-- A closing bracket takes off the innermost bracket that is open where it stands. -/
theorem takesOff_iff (sorted : es.Pairwise Event.Before) :
    TakesOff es c o ↔ .closed c ∈ es ∧ (stackBelow c es).head? = some o := by
  constructor
  · rintro ⟨before, inner, after, rfl, nested⟩
    refine ⟨by simp, ?_⟩
    have split : before ++ .opened o :: (inner ++ .closed c :: after) =
        (before ++ .opened o :: inner) ++ .closed c :: after := by simp
    rw [split] at sorted ⊢
    obtain ⟨-, hlast, hfirst⟩ := List.pairwise_append.mp sorted
    have earlier : ∀ e ∈ before ++ .opened o :: inner, e.pos < c :=
      fun e he => (hfirst e he _ (List.mem_cons_self ..)).1
    have later : below c (.closed c :: after) = [] :=
      below_cons_of_le (List.pairwise_cons.mp hlast).1 (Nat.le_refl c)
    rw [stackBelow, below_append, later, List.append_nil, below_eq_self earlier, stackAfter,
      List.foldl_append, List.foldl_cons, nested.foldl_act]
    rfl
  · rintro ⟨hc, hhead⟩
    obtain ⟨outer, hstack⟩ := List.head?_eq_some_iff.mp hhead
    obtain ⟨before, inner, hbelow, nested, -⟩ := exists_nested_of_stackAfter hstack
    obtain ⟨after, heq, -⟩ := eq_below_append sorted hc
    refine ⟨before, inner, after, ?_, nested⟩
    rw [heq, Event.pos_closed, hbelow]
    simp

/-- The open brackets at a gap are those that no closing bracket has taken off. -/
theorem mem_stackBelow_iff_unclosed (sorted : es.Pairwise Event.Before) :
    o ∈ stackBelow p es ↔ Unclosed es p o := by
  have opened_iff (ho : .opened o ∈ es) (hop : o < p) :
      o ∈ stackBelow p es ↔ ∀ c < p, ¬ TakesOff es c o := by
    rw [mem_stackBelow_iff sorted ho hop]
    simp only [takesOff_iff sorted]
    grind
  constructor
  · intro h
    obtain ⟨ho, hop⟩ := opened_of_mem_stackBelow h
    exact ⟨ho, hop, (opened_iff ho hop).mp h⟩
  · rintro ⟨ho, hop, hnone⟩
    exact (opened_iff ho hop).mpr hnone

/-- The innermost open bracket is the last one that is not taken off. -/
theorem head_stackBelow_iff (sorted : es.Pairwise Event.Before) :
    (stackBelow p es).head? = some o ↔ IsGreatest {q | Unclosed es p q} o := by
  constructor
  · intro h
    refine ⟨(mem_stackBelow_iff_unclosed sorted).mp (List.mem_of_head? h), fun q hq => ?_⟩
    exact le_of_head sorted h ((mem_stackBelow_iff_unclosed sorted).mpr hq)
  · rintro ⟨ho, hgreatest⟩
    have ho := (mem_stackBelow_iff_unclosed sorted).mpr ho
    obtain ⟨q, hq⟩ := Option.isSome_iff_exists.mp (List.isSome_head?.mpr (List.ne_nil_of_mem ho))
    have hqo : q ≤ o := hgreatest ((mem_stackBelow_iff_unclosed sorted).mp (List.mem_of_head? hq))
    rw [hq, Nat.le_antisymm hqo (le_of_head sorted hq ho)]

/-- Of two brackets that are taken off, the one that closes first lies before the other or inside it. -/
theorem takesOff_apart (sorted : es.Pairwise Event.Before) (h : TakesOff es c o)
    (h' : TakesOff es c' o') (hlt : c < c') : c < o' ∨ o' < o := by
  obtain ⟨hc, hhead⟩ := (takesOff_iff sorted).mp h
  obtain ⟨-, hhead'⟩ := (takesOff_iff sorted).mp h'
  have hopen := List.mem_of_head? hhead'
  obtain ⟨hopened, -⟩ := opened_of_mem_stackBelow hopen
  rcases before_or_after sorted hopened hc (by simp) with hbefore | hafter
  · have hoc : o' < c := hbefore.1
    have hle := le_of_head sorted hhead (mem_stackBelow_of_lt sorted hopen hoc (Nat.le_of_lt hlt))
    have hne : o' ≠ o := by
      rintro rfl
      exact ((mem_stackBelow_iff_unclosed sorted).mp hopen).2.2 c hlt h
    omega
  · exact .inl hafter.1

theorem takesOff_unique (sorted : es.Pairwise Event.Before) (h : TakesOff es c o)
    (h' : TakesOff es c o') : o = o' := by
  have hhead := ((takesOff_iff sorted).mp h).2
  have hhead' := ((takesOff_iff sorted).mp h').2
  exact Option.some.inj (hhead.symm.trans hhead')

end Lex

open BraceScopes.Lex

namespace Lexed

variable {ix : Lexed} {es : List Event} {o c : Nat}

theorem Reads.openOf_iff_takesOff (h : ix.Reads es) (sorted : es.Pairwise Event.Before) :
    ix.openOf c = some o ↔ TakesOff es c o ∧ sameType ix.text o c = true := by
  rw [h.openOf_eq_some sorted, takesOff_iff sorted, and_assoc]

theorem Reads.closeOf_iff_takesOff (h : ix.Reads es) (sorted : es.Pairwise Event.Before) :
    ix.closeOf o = some c ↔ TakesOff es c o ∧ sameType ix.text o c = true := by
  rw [closeOf, Option.bind_eq_some_iff, takesOff_iff sorted, ← closerOf_eq_some sorted]
  constructor
  · rintro ⟨b, hb, hclose⟩
    obtain ⟨-, rfl⟩ := (h.bracketAt_eq_some sorted).mp hb
    obtain ⟨hmatched, hcloser⟩ := Option.ite_none_right_eq_some.mp hclose
    have hcloser : closerOf es o = some c := hcloser
    simp only [bracketOf, hcloser, Option.any_some] at hmatched
    exact ⟨hcloser, hmatched⟩
  · rintro ⟨hcloser, htype⟩
    have hhead := ((closerOf_eq_some sorted).mp hcloser).2
    have ho := (opened_of_mem_stackBelow (List.mem_of_head? hhead)).1
    exact ⟨_, h.bracketAt_of_opened sorted ho, by simp [bracketOf, hcloser, htype]⟩

theorem Reads.parentOf_of_opened (h : ix.Reads es) (sorted : es.Pairwise Event.Before)
    (ho : .opened o ∈ es) : ix.parentOf o = (stackBelow o es).head? := by
  rw [parentOf, h.ancestors_of_opened sorted ho]

end Lexed

/-- An opening and a closing bracket are partners, found from either of them, exactly when the closing
one takes the opening one off and is of its type; the opening one is then the innermost bracket around
the closing one. Of two pairs one lies inside the other or they lie apart. The bracket around an opening
bracket is the last one before it that no closing bracket before it takes off. -/
theorem brackets_laminar (t : Text) (r : Rules) :
    let ix := Lexed.ofText t r
    let es := events t r
    (∀ o c, (ix.openOf c = some o ↔ ix.closeOf o = some c) ∧
      (ix.closeOf o = some c ↔ TakesOff es c o ∧ sameType t o c = true)) ∧
    (∀ o c, ix.closeOf o = some c →
      o < c ∧ .opened o ∈ es ∧ .closed c ∈ es ∧
        (∃ a b, t.charAt o = some a ∧ t.charAt c = some b ∧ openerOf b = some a) ∧
        (classify t r c).enclosing.head? = some o) ∧
    (∀ o c o' c', ix.closeOf o = some c → ix.closeOf o' = some c' →
      o = o' ∧ c = c' ∨ c < o' ∨ c' < o ∨ o < o' ∧ c' < c ∨ o' < o ∧ c < c') ∧
    ∀ o, .opened o ∈ es → ∀ p, ix.parentOf o = some p ↔ IsGreatest {q | Unclosed es o q} p := by
  intro ix es
  have sorted := pairwise_events t r
  have reads : ix.Reads es := Lexed.reads_ofText t r
  have closes : ∀ o c, ix.closeOf o = some c ↔ TakesOff es c o ∧ sameType t o c = true := by
    intro o c
    have h := reads.closeOf_iff_takesOff sorted (o := o) (c := c)
    rwa [Lexed.ofText_text] at h
  have opens : ∀ o c, ix.openOf c = some o ↔ TakesOff es c o ∧ sameType t o c = true := by
    intro o c
    have h := reads.openOf_iff_takesOff sorted (o := o) (c := c)
    rwa [Lexed.ofText_text] at h
  refine ⟨fun o c => ⟨(opens o c).trans (closes o c).symm, closes o c⟩, fun o c h => ?_,
    fun o c o' c' h h' => ?_, fun o ho p => ?_⟩
  · obtain ⟨hoff, htype⟩ := (closes o c).mp h
    obtain ⟨hc, hhead⟩ := (takesOff_iff sorted).mp hoff
    obtain ⟨ho, hlt⟩ := opened_of_mem_stackBelow (List.mem_of_head? hhead)
    obtain ⟨a, ha, -⟩ := bracketAt_eq_opened.mp (bracketAt_of_mem ho rfl)
    obtain ⟨b, hb, -⟩ := bracketAt_eq_closed.mp (bracketAt_of_mem hc rfl)
    have hsize : c < t.size := Text.lt_size_of_charAt hb
    refine ⟨hlt, ho, hc, ⟨a, b, ha, hb, (Lexed.sameType_eq_true ha hb).mp htype⟩, ?_⟩
    rw [enclosing_of_le (Nat.le_of_lt hsize)]
    exact hhead
  · have hoff := ((closes o c).mp h).1
    have hoff' := ((closes o' c').mp h').1
    rcases Nat.lt_trichotomy c c' with hlt | rfl | hlt
    · have := takesOff_apart sorted hoff hoff' hlt
      omega
    · exact .inl ⟨takesOff_unique sorted hoff hoff', rfl⟩
    · have := takesOff_apart sorted hoff' hoff hlt
      omega
  · rw [reads.parentOf_of_opened sorted ho, head_stackBelow_iff sorted]

/-- A bracket and a parenthesis that closing brackets of other types take off, between a pair of
parentheses and the pair of braces around them. -/
theorem brackets_laminar_mismatched :
    let t : Text := .ofString "\x7b(]()[)\x7d"
    let ix := Lexed.ofText t .java
    let es := events t .java
    ix.closeOf 0 = some 7 ∧ ix.closeOf 3 = some 4 ∧ .opened 5 ∈ es ∧ ix.openOf 4 = some 3 ∧
      TakesOff es 4 3 ∧ (classify t .java 4).enclosing.head? = some 3 ∧
      (0 = 3 ∧ 7 = 4 ∨ 7 < 3 ∨ 4 < 0 ∨ 0 < 3 ∧ 4 < 7 ∨ 3 < 0 ∧ 7 < 4) ∧
      IsGreatest {q | Unclosed es 5 q} 0 := by
  intro t ix es
  obtain ⟨agree, pair, laminar, parent⟩ := brackets_laminar t .java
  have outer : ix.closeOf 0 = some 7 := by decide +kernel
  have inner : ix.closeOf 3 = some 4 := by decide +kernel
  have opened : .opened 5 ∈ es := by decide +kernel
  exact ⟨outer, inner, opened, (agree 3 4).1.mpr inner, ((agree 3 4).2.mp inner).1,
    (pair 3 4 inner).2.2.2.2, laminar 0 7 3 4 outer inner, (parent 5 opened 0).mp (by decide +kernel)⟩

end BraceScopes
