import BraceScopes.Proofs.Lex.Behind
import BraceScopes.Proofs.Lex.Gap
import BraceScopes.Proofs.Lex.Stability
/-!
The brackets of code are the bracket characters outside comments and literals, because lexing stops at
every character of code. So reading over code changes the brackets that are open in the way the
characters say.
-/
namespace BraceScopes

open BraceScopes.Lex

namespace Lex

variable {t : Text} {p q : Nat}

theorem bracketAt_eq_opened :
    bracketAt? t p = some (.opened p) ↔ ∃ c, t.charAt p = some c ∧ isOpener c = true := by
  unfold bracketAt?
  cases t.charAt p with
  | none => simp
  | some c => by_cases ho : isOpener c = true <;> simp [ho]

theorem bracketAt_eq_closed :
    bracketAt? t p = some (.closed p) ↔ ∃ c, t.charAt p = some c ∧ (openerOf c).isSome = true := by
  unfold bracketAt?
  cases t.charAt p with
  | none => simp
  | some c =>
    by_cases ho : isOpener c = true
    · rcases isOpener_iff.mp ho with rfl | rfl | rfl <;> simp [ho, openerOf]
    · simp [ho, Option.isSome_iff_ne_none]

/-- Comments and literals leave the open brackets as they are. -/
theorem stackAfter_filter (es : List Event) : stackAfter (es.filter (·.isBracket)) = stackAfter es := by
  induction es using List.reverseRecOn with
  | nil => rfl
  | append_singleton es e ih =>
    rw [List.filter_append, stackAfter_append_singleton]
    cases e with
    | opened p | closed p => rw [← ih]; exact stackAfter_append_singleton _ _
    | region x => rw [← ih, List.filter_cons_of_neg (by simp [Event.isBracket])]; simp [Event.act]

/-- Where no bracket stands, the same brackets are open before and after. -/
theorem stackBelow_eq_of_no_bracket {es : List Event} (hle : p ≤ q)
    (hnone : ∀ e ∈ es, e.isBracket = true → p ≤ e.pos → q ≤ e.pos) :
    stackBelow q es = stackBelow p es := by
  rw [stackBelow, stackBelow, ← stackAfter_filter, ← stackAfter_filter (below p es)]
  unfold below
  rw [List.filter_filter, List.filter_filter]
  congr 1
  refine List.filter_congr fun e he => ?_
  cases hb : e.isBracket with
  | false => rfl
  | true =>
    have := hnone e he hb
    simp only [Bool.true_and, decide_eq_decide]
    omega

theorem stackBelow_succ {es : List Event} (sorted : es.Pairwise Event.Before) {e : Event}
    (h : e ∈ es) : stackBelow (e.pos + 1) es = e.act (stackBelow e.pos es) := by
  obtain ⟨rest, heq, hrest⟩ := below_of_lt sorted h (Nat.lt_succ_self e.pos)
  have hnil : rest = [] := by
    refine List.eq_nil_iff_forall_not_mem.mpr fun f hf => ?_
    obtain ⟨hlt, hmem⟩ := hrest f hf
    have := (mem_below.mp hmem).2
    omega
  rw [stackBelow, heq, hnil, stackAfter_append_singleton]
  rfl

/-- Lexing comes to every place between characters that no region covers. -/
theorem eventsFrom_suffix {rs : Rules} (hp : t.isBoundary p = true) (hq : t.isBoundary q = true)
    (hle : p ≤ q)
    (hout : ∀ x, .region x ∈ eventsFrom t rs p →
      x.start < x.stop ∧ (q < x.start ∨ x.stop ≤ q ∨ x.start = q)) :
    eventsFrom t rs q <:+ eventsFrom t rs p := by
  induction hn : q - p using Nat.strongRecOn generalizing p with
  | ind n ih =>
    rcases Nat.lt_or_eq_of_le hle with hlt | rfl
    · have hqsize := Text.isBoundary_le_size hq
      obtain ⟨c, hc⟩ := Text.exists_charAt hp (Nat.lt_of_lt_of_le hlt hqsize)
      obtain ⟨e, k, hstep, hk, hkq, hkb⟩ : ∃ e k, step t rs p = (e, k) ∧ p < k ∧ k ≤ q ∧
          t.isBoundary k = true := by
        cases hx : regionAt? t rs p with
        | none =>
          refine ⟨bracketAt? t p, t.next p, by rw [step, hx], t.lt_next p, ?_, Text.isBoundary_next hc⟩
          exact Text.next_le_of_isBoundary hc hlt hq
        | some x =>
          have hstart := regionAt_start hx
          have hstep := step_of_regionAt hx
          obtain ⟨hnonempty, hx'⟩ := hout x (mem_eventsFrom (by omega) hstep)
          exact ⟨_, _, hstep, by omega, by omega, (extent_regionAt hx).isBoundary_stop⟩
      have hsplit := eventsFrom_of_lt (by omega) hstep hk
      rw [hsplit]
      refine List.IsSuffix.trans (ih (q - k) (by omega) hkb hkq (fun x hx => ?_) rfl)
        (List.suffix_append _ _)
      exact hout x (by rw [hsplit]; exact List.mem_append_right _ hx)
    · exact List.suffix_refl _

end Lex

namespace Lexed

variable {ix : Lexed} {p q o : Nat} {c : Char} {r : Region}

theorem sameType_eq_true {t : Text} {o c : Nat} {a b : Char} (ho : t.charAt o = some a)
    (hc : t.charAt c = some b) : sameType t o c = true ↔ openerOf b = some a := by
  simp [sameType, ho, hc]

namespace Complete

variable {rs : Rules} (hix : ix.Complete rs)

include hix

theorem isCode_of_bracket {e : Event} (h : e ∈ events ix.text rs) (hb : e.isBracket = true) :
    ix.regionAtChar? e.pos = none := by
  refine Option.eq_none_iff_forall_ne_some.mpr fun r hr => ?_
  obtain ⟨hmem, hstart, hstop⟩ := hix.regionAtChar_eq_some.mp hr
  exact not_bracketAt_inside hmem hstart hstop (bracketAt_iff.mpr ⟨e, h, hb, rfl⟩)

/-- What stands at a character of code is reported. -/
theorem mem_events_of_code (h : ix.CodeChar p c) {e : Event} (he : Lex.bracketAt? ix.text p = some e) :
    e ∈ events ix.text rs := by
  have hsize := Text.lt_size_of_charAt h.char
  have hout : ∀ x, .region x ∈ events ix.text rs → x.start < x.stop ∧ (p < x.start ∨ x.stop ≤ p) := by
    intro x hx
    refine ⟨hix.nonempty_of_mem hx, ?_⟩
    by_contra hin
    have hcode := h.code
    rw [hix.regionAtChar_eq_some.mpr ⟨hx, by omega, by omega⟩] at hcode
    simp at hcode
  have hsuffix := eventsFrom_suffix ix.text.isBoundary_zero (Text.isBoundary_of_charAt h.char) (Nat.zero_le p)
    fun x hx => (hout x hx).imp_right (Or.imp_right .inl)
  have hnone : regionAt? ix.text rs p = none := by
    refine Option.eq_none_iff_forall_ne_some.mpr fun x hx => ?_
    have hmem := hsuffix.subset (mem_eventsFrom hsize (step_of_regionAt hx))
    have := Lex.regionAt_start hx
    have := hout x hmem
    omega
  have hstep : step ix.text rs p = (some e, ix.text.next p) := by rw [step, hnone, he]
  exact hsuffix.subset (mem_eventsFrom hsize hstep)

theorem mem_opened : .opened p ∈ events ix.text rs ↔ ∃ c, ix.CodeChar p c ∧ isOpener c = true := by
  constructor
  · intro h
    obtain ⟨c, hc, ho⟩ := bracketAt_eq_opened.mp (bracketAt_of_mem h rfl)
    exact ⟨c, ⟨hc, hix.isCode_of_bracket h rfl⟩, ho⟩
  · rintro ⟨c, hc, ho⟩
    exact hix.mem_events_of_code hc (bracketAt_eq_opened.mpr ⟨c, hc.char, ho⟩)

theorem mem_closed :
    .closed p ∈ events ix.text rs ↔ ∃ c, ix.CodeChar p c ∧ (openerOf c).isSome = true := by
  constructor
  · intro h
    obtain ⟨c, hc, ho⟩ := bracketAt_eq_closed.mp (bracketAt_of_mem h rfl)
    exact ⟨c, ⟨hc, hix.isCode_of_bracket h rfl⟩, ho⟩
  · rintro ⟨c, hc, ho⟩
    exact hix.mem_events_of_code hc (bracketAt_eq_closed.mpr ⟨c, hc.char, ho⟩)

theorem no_bracket
    (hnone : ∀ i c, p ≤ i → i < q → ix.CodeChar i c → isOpener c = false ∧ openerOf c = none) :
    ∀ e ∈ events ix.text rs, e.isBracket = true → p ≤ e.pos → q ≤ e.pos := by
  intro e he hb hp
  refine Nat.le_of_not_lt fun hq => ?_
  cases e with
  | opened i =>
    obtain ⟨c, hc, ho⟩ := hix.mem_opened.mp he
    simp [(hnone i c hp hq hc).1] at ho
  | closed i =>
    obtain ⟨c, hc, ho⟩ := hix.mem_closed.mp he
    simp [(hnone i c hp hq hc).2] at ho
  | region x => simp [Event.isBracket] at hb

theorem stackBelow_region (h : ix.RegionAt p r) :
    stackBelow r.stop (events ix.text rs) = stackBelow p (events ix.text rs) := by
  have hlt := hix.nonempty h.region
  have hstart := h.start
  refine stackBelow_eq_of_no_bracket (by omega) (hix.no_bracket fun i c hp hq hc => ?_)
  have hin := hix.regionAtChar_inside h.region (show r.start ≤ i by omega) hq
  simp [hc.code] at hin

theorem stackBelow_next (h : ix.CodeChar p c) (ho : isOpener c = false) (hc : openerOf c = none) :
    stackBelow (ix.text.next p) (events ix.text rs) = stackBelow p (events ix.text rs) := by
  refine stackBelow_eq_of_no_bracket (Nat.le_of_lt (ix.text.lt_next p))
    (hix.no_bracket fun i d hp hq hd => ?_)
  rcases Nat.lt_or_eq_of_le hp with hlt | rfl
  · have hboundary := Text.isBoundary_of_charAt hd.char
    rw [Text.isBoundary_inside h.char hlt hq] at hboundary
    simp at hboundary
  · obtain rfl := h.unique hd
    exact ⟨ho, hc⟩

theorem stackBelow_opener (h : ix.CodeChar p c) (ho : isOpener c = true) :
    stackBelow (p + 1) (events ix.text rs) = p :: stackBelow p (events ix.text rs) :=
  stackBelow_succ (pairwise_events ix.text rs) (hix.mem_opened.mpr ⟨c, h, ho⟩)

theorem stackBelow_closer (h : ix.CodeChar p c) (ho : (openerOf c).isSome = true) :
    stackBelow (p + 1) (events ix.text rs) = (stackBelow p (events ix.text rs)).tail :=
  stackBelow_succ (pairwise_events ix.text rs) (hix.mem_closed.mpr ⟨c, h, ho⟩)

theorem openOf_eq_some {c : Nat} : ix.openOf c = some o ↔
    .closed c ∈ events ix.text rs ∧ (stackBelow c (events ix.text rs)).head? = some o ∧
      sameType ix.text o c = true := by
  have h := (reads_ofText ix.text rs).openOf_eq_some (pairwise_events ix.text rs)
    (c := c) (o := o)
  rwa [← hix.eq] at h

/-- The partner of a closing bracket is an opening bracket of code of its type. -/
theorem codeChar_of_openOf {c : Nat} (h : ix.openOf c = some o) :
    ∃ a b, ix.CodeChar o a ∧ ix.CodeChar c b ∧ isOpener a = true ∧ openerOf b = some a := by
  obtain ⟨hclosed, hhead, htype⟩ := hix.openOf_eq_some.mp h
  obtain ⟨b, hb, -⟩ := hix.mem_closed.mp hclosed
  obtain ⟨a, ha, ho⟩ := hix.mem_opened.mp (opened_of_mem_stackBelow (List.mem_of_head? hhead)).1
  exact ⟨a, b, ha, hb, ho, (sameType_eq_true ha.char hb.char).mp htype⟩

theorem enclosing_eq (hp : p ≤ ix.text.size) :
    (ix.classify p).enclosing = stackBelow p (events ix.text rs) := by
  have h := openAt_ofText ix.text rs p
  rw [← hix.eq] at h
  simp only [classify, Nat.min_eq_left hp, h]

end Complete

end Lexed

end BraceScopes
