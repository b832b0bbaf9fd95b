import BraceScopes.Proofs.Lex.Index
/-!
The answers of the index. It gives every gap the state that lexing from the start gives it, and every
bracket the brackets that are open where it stands.
-/
namespace BraceScopes

open BraceScopes.Lex

namespace LexState

theorem ext {a b : LexState} (literal : a.literal = b.literal) (enclosing : a.enclosing = b.enclosing) :
    a = b := by
  cases a
  cases b
  cases literal
  cases enclosing
  rfl

theorem containsGap_bounds {x : Region} {p : Nat} (h : x.containsGap p = true) :
    x.start < p ∧ p ≤ x.stop := by
  simp only [Region.containsGap, Bool.and_eq_true, Bool.or_eq_true, decide_eq_true_eq,
    beq_iff_eq] at h
  omega

/-- Replaying stops at the gap, so the brackets open there are those of the events before it. -/
theorem replay_enclosing {es : List Event} (sorted : es.Pairwise Event.Before) (p : Nat)
    (stack : List Nat) : (replay p es stack).enclosing = (below p es).foldl Event.act stack := by
  induction es generalizing stack with
  | nil => rfl
  | cons e es ih =>
    obtain ⟨he, hes⟩ := List.pairwise_cons.mp sorted
    cases e with
    | opened q | closed q =>
      by_cases hq : q < p
      · rw [replay, if_pos hq, ih hes, below_cons_of_lt (by exact hq)]
        rfl
      · rw [replay, if_neg hq, below_cons_of_le he (by simpa using hq)]
        rfl
    | region x =>
      by_cases hx : x.start < p
      · rw [replay, if_pos hx, below_cons_of_lt (by exact hx)]
        by_cases hg : x.containsGap p = true
        · rw [if_pos hg, below_eq_nil he (.inr (containsGap_bounds hg).2)]
          rfl
        · rw [if_neg hg, ih hes]
          rfl
      · rw [replay, if_neg hx, below_cons_of_le he (by simpa using hx)]
        rfl

theorem replay_literal {es : List Event} (sorted : es.Pairwise Event.Before) (p : Nat)
    (stack : List Nat) : (replay p es stack).literal =
      ((regions es).find? (·.containsGap p)).map fun x => (x.kind, x.start) := by
  have outside : ∀ {e : Event} {es : List Event}, (∀ f ∈ es, e.Before f) → p ≤ e.pos →
      (regions es).find? (·.containsGap p) = none := by
    intro e es he hp
    refine List.find?_eq_none.mpr fun x hx hg => ?_
    have hlt : e.pos < x.start := (he _ (mem_regions.mp hx)).1
    have := (containsGap_bounds hg).1
    omega
  induction es generalizing stack with
  | nil => rfl
  | cons e es ih =>
    obtain ⟨he, hes⟩ := List.pairwise_cons.mp sorted
    cases e with
    | opened q | closed q =>
      change _ = ((regions es).find? (·.containsGap p)).map _
      by_cases hq : q < p
      · rw [replay, if_pos hq, ih hes]
      · rw [replay, if_neg hq, outside he (by simpa using hq)]
        rfl
    | region x =>
      change _ = ((x :: regions es).find? (·.containsGap p)).map _
      by_cases hg : x.containsGap p = true
      · rw [replay, if_pos (containsGap_bounds hg).1, if_pos hg, List.find?_cons, hg]
        rfl
      · rw [List.find?_cons, Bool.eq_false_iff.mpr hg]
        by_cases hx : x.start < p
        · rw [replay, if_pos hx, if_neg hg, ih hes]
        · rw [replay, if_neg hx, outside he (by simpa using hx)]
          rfl

end LexState

namespace Lexed

variable {ix : Lexed} {es : List Event}

theorem Reads.regionBefore_eq (h : ix.Reads es) (sorted : es.Pairwise Event.Before) (p : Nat) :
    ix.regionBefore? p = ((Lex.regions es).filter (·.start < p)).getLast? := by
  have ascending := h.regions_ascending sorted
  have place : bisect (fun i => ix.regions[i]?.any (·.start < p)) 0 ix.regions.size =
      rank Region.start ix.regions p := rfl
  rw [regionBefore?, place, ← h.regions]
  cases hn : rank Region.start ix.regions p with
  | zero => rw [← take_rank ascending, hn]; rfl
  | succ n => exact getElem_pred_rank ascending hn

theorem Reads.regionAtGap_eq_some (h : ix.Reads es) (sorted : es.Pairwise Event.Before) {p : Nat}
    {x : Region} : ix.regionAtGap? p = some x ↔ .region x ∈ es ∧ x.containsGap p = true := by
  unfold regionAtGap?
  rw [Option.filter_eq_some_iff, h.regionBefore_eq sorted]
  constructor
  · rintro ⟨hl, hg⟩
    exact ⟨mem_regions.mp (List.mem_filter.mp (List.mem_of_getLast? hl)).1, hg⟩
  · rintro ⟨hx, hg⟩
    have := LexState.containsGap_bounds hg
    exact ⟨getLast_regions sorted hx this.1 this.2, hg⟩

theorem Reads.regionAtGap_eq (h : ix.Reads es) (sorted : es.Pairwise Event.Before) (p : Nat) :
    ix.regionAtGap? p = (Lex.regions es).find? (·.containsGap p) := by
  cases hf : (Lex.regions es).find? (·.containsGap p) with
  | none =>
    refine Option.eq_none_iff_forall_ne_some.mpr fun x hx => ?_
    obtain ⟨hmem, hg⟩ := (h.regionAtGap_eq_some sorted).mp hx
    exact List.find?_eq_none.mp hf x (mem_regions.mpr hmem) hg
  | some x =>
    have hg := List.find?_some (p := fun x : Region => x.containsGap p) hf
    exact (h.regionAtGap_eq_some sorted).mpr ⟨mem_regions.mp (List.mem_of_find?_eq_some hf), hg⟩

theorem Reads.regionAtChar_eq_some (h : ix.Reads es) (sorted : es.Pairwise Event.Before) {p : Nat}
    {x : Region} : ix.regionAtChar? p = some x ↔ .region x ∈ es ∧ x.start ≤ p ∧ p < x.stop := by
  unfold regionAtChar?
  rw [Option.filter_eq_some_iff, h.regionBefore_eq sorted]
  simp only [Region.containsChar, Bool.and_eq_true, decide_eq_true_eq]
  constructor
  · rintro ⟨hl, hg⟩
    exact ⟨mem_regions.mp (List.mem_filter.mp (List.mem_of_getLast? hl)).1, hg⟩
  · rintro ⟨hx, hg⟩
    exact ⟨getLast_regions sorted hx (by omega) (by omega), hg⟩

theorem Reads.bracketAt_eq_some (h : ix.Reads es) (sorted : es.Pairwise Event.Before) {o : Nat}
    {b : Bracket} : ix.bracketAt? o = some b ↔ .opened o ∈ es ∧ bracketOf ix.text es o = b := by
  refine (filter_at_rank_iff (h.brackets_ascending sorted)).trans ?_
  rw [h.mem_brackets]
  constructor
  · rintro ⟨⟨q, hq, rfl⟩, rfl⟩
    exact ⟨hq, rfl⟩
  · rintro ⟨ho, rfl⟩
    exact ⟨⟨o, ho, rfl⟩, rfl⟩

theorem Reads.bracketAt_of_opened (h : ix.Reads es) (sorted : es.Pairwise Event.Before) {o : Nat}
    (ho : .opened o ∈ es) : ix.bracketAt? o = some (bracketOf ix.text es o) :=
  (h.bracketAt_eq_some sorted).mpr ⟨ho, rfl⟩

/-- The brackets around a bracket are those open where it stands. -/
theorem Reads.ancestors_of_opened (h : ix.Reads es) (sorted : es.Pairwise Event.Before) {o : Nat}
    (ho : .opened o ∈ es) : ix.ancestors o = stackBelow o es := by
  rw [ancestors, h.bracketAt_of_opened sorted ho]
  rfl

theorem Reads.closedBefore_iff (h : ix.Reads es) (sorted : es.Pairwise Event.Before) {p o : Nat}
    (ho : .opened o ∈ es) (hp : o < p) : ix.closedBefore p o = true ↔ o ∉ stackBelow p es := by
  rw [mem_stackBelow_iff sorted ho hp, not_not, closedBefore, h.bracketAt_of_opened sorted ho]
  simp only [Option.bind_some, bracketOf, Option.any_eq_true, decide_eq_true_eq]
  constructor
  · rintro ⟨c, hc, hlt⟩
    obtain ⟨hmem, hhead⟩ := (closerOf_eq_some sorted).mp hc
    exact ⟨c, hmem, hlt, hhead⟩
  · rintro ⟨c, hmem, hlt, hhead⟩
    exact ⟨c, (closerOf_eq_some sorted).mpr ⟨hmem, hhead⟩, hlt⟩

/-- Going out from the last bracket before a gap, over the brackets that are closed there, leads to the
brackets that are open there. -/
theorem Reads.dropWhile_closedBefore (h : ix.Reads es) (sorted : es.Pairwise Event.Before) {p o : Nat}
    (ho : .opened o ∈ es) (hp : o < p) (last : ∀ q, .opened q ∈ es → q < p → q ≤ o) :
    (o :: stackBelow o es).dropWhile (ix.closedBefore p) = stackBelow p es := by
  obtain ⟨rest, heq, hrest⟩ := below_of_lt sorted ho (show (Event.opened o).pos < p from hp)
  have closing : ∀ q, .opened q ∉ rest := by
    intro q hq
    obtain ⟨hlt, hmem⟩ := hrest _ hq
    obtain ⟨hq, hqp⟩ := mem_below.mp hmem
    have := last q hq hqp
    simp only [Event.pos_opened] at hlt
    omega
  have unfolded : stackBelow p es = rest.foldl Event.act (o :: stackBelow o es) := by
    rw [stackBelow, heq, stackAfter, List.foldl_append]
    rfl
  obtain ⟨gone, hgone⟩ : stackBelow p es <:+ o :: stackBelow o es := by
    rw [unfolded]
    exact foldl_act_suffix closing _
  have distinct : (o :: stackBelow o es).Nodup := by
    refine List.nodup_cons.mpr ⟨fun hin => ?_, ?_⟩
    · exact absurd (opened_of_mem_stackBelow hin).2 (Nat.lt_irrefl o)
    · exact (stackBelow_descending sorted o).imp fun hab => Nat.ne_of_gt hab
  have known : ∀ q ∈ o :: stackBelow o es, .opened q ∈ es ∧ q < p := by
    intro q hq
    rcases List.mem_cons.mp hq with rfl | hq
    · exact ⟨ho, hp⟩
    · have := opened_of_mem_stackBelow hq
      exact ⟨this.1, by omega⟩
  rw [← hgone] at distinct known ⊢
  have closed : ∀ q ∈ gone, ix.closedBefore p q = true := by
    intro q hq
    obtain ⟨hqo, hqp⟩ := known q (List.mem_append_left _ hq)
    exact (h.closedBefore_iff sorted hqo hqp).mpr
      fun hin => (List.nodup_append.mp distinct).2.2 q hq q hin rfl
  rw [List.dropWhile_append_of_pos closed]
  cases hs : stackBelow p es with
  | nil => rfl
  | cons q qs =>
    obtain ⟨hqo, hqp⟩ := known q (by simp [hs])
    have opened : ¬ ix.closedBefore p q = true := fun hc =>
      (h.closedBefore_iff sorted hqo hqp).mp hc (by simp [hs])
    rw [List.dropWhile_cons_of_neg opened]

theorem Reads.openAt_eq (h : ix.Reads es) (sorted : es.Pairwise Event.Before) (p : Nat) :
    ix.openAt p = stackBelow p es := by
  have ascending := h.brackets_ascending sorted
  have before : ∀ {o : Nat}, .opened o ∈ es → o < p →
      bracketOf ix.text es o ∈ ix.brackets.toList.filter (·.pos < p) := fun ho hp =>
    List.mem_filter.mpr
      ⟨Array.mem_toList_iff.mpr (h.mem_brackets.mpr ⟨_, ho, rfl⟩), decide_eq_true hp⟩
  have place : countBefore ix.brackets p = rank Bracket.pos ix.brackets p := rfl
  rw [openAt, place]
  cases hn : rank Bracket.pos ix.brackets p with
  | zero =>
    have none : ix.brackets.toList.filter (·.pos < p) = [] := by rw [← take_rank ascending, hn]; rfl
    refine (List.eq_nil_iff_forall_not_mem.mpr fun o ho => ?_).symm
    obtain ⟨ho, hp⟩ := opened_of_mem_stackBelow ho
    have := before ho hp
    rw [none] at this
    simp at this
  | succ n =>
    have hget := getElem_pred_rank ascending hn
    have hle : rank Bracket.pos ix.brackets p ≤ ix.brackets.size := bisect_le _ (Nat.zero_le _)
    obtain ⟨b, hb⟩ : ∃ b, ix.brackets[n]? = some b :=
      ⟨_, Array.getElem?_eq_getElem (show n < ix.brackets.size by omega)⟩
    rw [hb] at hget
    obtain ⟨init, heq⟩ := List.getLast?_eq_some_iff.mp hget.symm
    obtain ⟨hmem, hlt⟩ := List.mem_filter.mp (List.mem_of_getLast? hget.symm)
    obtain ⟨o, ho, rfl⟩ := h.mem_brackets.mp (Array.mem_toList_iff.mp hmem)
    have hp : o < p := of_decide_eq_true hlt
    have order := ascending.filter (·.pos < p)
    rw [heq] at order
    have last : ∀ q, .opened q ∈ es → q < p → q ≤ o := by
      intro q hq hqp
      have hin := before hq hqp
      rw [heq] at hin
      rcases List.mem_append.mp hin with hin | hin
      · have := (List.pairwise_append.mp order).2.2 _ hin (bracketOf ix.text es o) (by simp)
        simp only [bracketOf_pos] at this
        omega
      · have : q = o := congrArg Bracket.pos (List.mem_singleton.mp hin)
        omega
    simp only [hb]
    exact h.dropWhile_closedBefore sorted ho hp last

end Lexed

theorem classify_enclosing (t : Text) (r : Rules) (p : Nat) :
    (classify t r p).enclosing = stackBelow (min p t.size) (events t r) :=
  LexState.replay_enclosing (pairwise_events t r) _ []

theorem enclosing_of_le {t : Text} {r : Rules} {p : Nat} (h : p ≤ t.size) :
    (classify t r p).enclosing = stackBelow p (events t r) := by
  rw [classify_enclosing, Nat.min_eq_left h]

theorem enclosing_of_opened {t : Text} {r : Rules} {o : Nat} (h : .opened o ∈ events t r) :
    (classify t r o).enclosing = stackBelow o (events t r) :=
  enclosing_of_le (Nat.le_of_lt (step_of_mem h).1)

/-- The index of a text gives every gap the state that lexing the text from its start gives it, and
every opening bracket of code the brackets that are open there. -/
theorem classify_ofText (t : Text) (r : Rules) :
    (∀ p, (Lexed.ofText t r).classify p = classify t r p) ∧
      ∀ o, .opened o ∈ events t r → (Lexed.ofText t r).ancestors o = (classify t r o).enclosing := by
  have sorted := pairwise_events t r
  have reads := Lexed.reads_ofText t r
  refine ⟨fun p => LexState.ext ?_ ?_, fun o ho => ?_⟩
  · rw [Lexed.classify, Lexed.ofText_text, reads.regionAtGap_eq sorted]
    exact (LexState.replay_literal sorted _ []).symm
  · rw [Lexed.classify, Lexed.ofText_text, reads.openAt_eq sorted]
    exact (classify_enclosing t r p).symm
  · have hsize : o < t.size := (step_of_mem ho).1
    rw [reads.ancestors_of_opened sorted ho, classify_enclosing, Nat.min_eq_left (Nat.le_of_lt hsize)]

/-- A closing bracket of another type ends the parenthesis, and a literal that is never closed hides
a brace, before the last bracket. -/
theorem classify_ofText_unclosed :
    .opened 6 ∈ events (.ofString "\x7b(]\"\x7b\n[") .java ∧
    (Lexed.ofText (.ofString "\x7b(]\"\x7b\n[") .java).ancestors 6 =
      (classify (.ofString "\x7b(]\"\x7b\n[") .java 6).enclosing := by
  have opened : .opened 6 ∈ events (.ofString "\x7b(]\"\x7b\n[") .java := by decide +kernel
  exact ⟨opened, (classify_ofText _ _).2 6 opened⟩

end BraceScopes
