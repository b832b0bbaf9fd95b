import BraceScopes.Proofs.Scan.Units
import BraceScopes.Scan.Clause
/-!
One step forward over code: what the forward walks do at a character of code and at a comment or
literal.
-/
namespace BraceScopes

open BraceScopes.Lex

namespace Lexed

variable {ix : Lexed} {p q limit k o target : Nat} {c a : Char} {r : Region} {stack : List Char}

theorem skipTriviaForward_code (h : ix.CodeChar p c) (hlt : p < limit) :
    ix.skipTriviaForward limit p =
      if isBlank c then ix.skipTriviaForward limit (ix.text.next p) else p := by
  rw [skipTriviaForward, if_pos hlt, h.char]
  simp only
  split
  next => rfl
  next =>
    split
    next r hr => simp [h.code] at hr
    next => rfl

theorem balanceForward_limit (h : limit ≤ p) : ix.balanceForward limit stack p = none := by
  rw [balanceForward, if_neg (Nat.not_lt.mpr h)]

theorem identEnd_limit {m : Mode} (h : limit ≤ p) : ix.identEnd m limit p = p := by
  rw [identEnd]
  simp [Nat.not_lt.mpr h]

theorem balanceForward_code (h : ix.CodeChar p c) (hlt : p < limit) :
    ix.balanceForward limit stack p =
      if isGroupOpener c then ix.balanceForward limit (c :: stack) (ix.text.next p)
      else if (groupOpenerOf c).isSome then
        match stack with
        | [] => none
        | top :: rest =>
          if groupOpenerOf c ≠ some top then none
          else if rest.isEmpty then some p
          else ix.balanceForward limit rest (ix.text.next p)
      else ix.balanceForward limit stack (ix.text.next p) := by
  rw [balanceForward, if_pos hlt]
  split
  next r hr => simp [h.code] at hr
  next =>
    cases stack <;> simp only [h.char]

theorem balanceForward_region (h : ix.RegionAt p r) (hlt : p < limit) :
    ix.balanceForward limit stack p = ix.balanceForward limit stack r.stop := by
  rw [balanceForward, if_pos hlt]
  split
  next r' hr' =>
    rw [h.region] at hr'
    cases hr'
    rfl
  next hnone => simp [h.region] at hnone

/-- The bracket that is found going forward is a closing bracket of code. -/
theorem closer_of_balanceForward (h : ix.balanceForward limit stack p = some k) :
    ∃ c a, ix.CodeChar k c ∧ groupOpenerOf c = some a ∧ k < limit := by
  fun_induction balanceForward ix limit stack p with
  | case1 stack p hlt r hr ih => exact ih h
  | case3 stack p hlt hr c hc ho ih => exact ih h
  | case6 p hlt hr c hc ho hg top rest hm he =>
    cases h
    obtain ⟨a, ha⟩ := Option.isSome_iff_exists.mp hg
    exact ⟨c, a, ⟨hc, hr⟩, ha, hlt⟩
  | case7 p hlt hr c hc ho hg top rest hm he ih => exact ih h
  | case8 stack p hlt hr c hc ho hg ih => exact ih h
  | case2 | case4 | case5 | case9 => simp at h

theorem groupEnd_angle_code (h : ix.CodeChar o a) :
    ix.groupEnd .angle limit o =
      if Mode.angle.isOpener a then ix.balanceForward limit [a] (o + 1) else none := by
  rw [groupEnd, h.char, h.isCode]
  simp

theorem stepForward_code (h : ix.CodeChar p c) :
    ix.stepForward? limit p =
      if ix.isIdentChar .angle c then some (ix.identEnd .angle limit p)
      else if c == '(' || c == '[' || c == '<' then (ix.groupEnd .angle limit p).map (· + 1)
      else if c == ',' || c == '&' then some (p + 1)
      else none := by
  rw [stepForward?, h.char, h.isCode]
  rfl

theorem stepForward_region (h : ix.RegionAt p r) : ix.stepForward? limit p = none := by
  unfold stepForward?
  split
  next => rfl
  next => simp [isCode, h.region]

theorem identEnd_code {m : Mode} (h : ix.CodeChar p c) (hlt : p < limit) :
    ix.identEnd m limit p = if ix.isIdentChar m c then ix.identEnd m limit (ix.text.next p) else p := by
  rw [identEnd, h.char]
  simp [hlt]

namespace Complete

variable {rs : Rules} (hix : ix.Complete rs)

include hix

/-- The gap where a comment or literal ends lies inside no other one. -/
theorem eq_of_regionAtGap_stop (h : ix.RegionAt p r) {r' : Region}
    (h' : ix.regionAtGap? r.stop = some r') : r' = r := by
  obtain ⟨hmem, hgap⟩ := hix.regionAtGap_eq_some.mp h'
  obtain ⟨hstart', hstop'⟩ := LexState.containsGap_bounds hgap
  have hnonempty := hix.nonempty h.region
  rcases Nat.le_total r.start r'.start with hrr | hrr
  · have hr := hix.regionAtChar_inside h.region hrr hstart'
    have hr' := hix.regionAtChar_eq_some.mpr
      ⟨hmem, Nat.le_refl r'.start, Nat.lt_of_lt_of_le hstart' hstop'⟩
    exact Option.some.inj (hr'.symm.trans hr)
  · have hr' := hix.regionAtChar_eq_some.mpr ⟨hmem, hrr, Nat.lt_of_lt_of_le hnonempty hstop'⟩
    have hr := hix.regionAtChar_inside h.region (Nat.le_refl _) hnonempty
    exact Option.some.inj (hr'.symm.trans hr)

/-- After a comment or literal that is closed stands a gap of code. -/
theorem codeGap_of_terminated (h : ix.RegionAt p r) (closed : r.terminated = true) :
    ix.CodeGap r.stop := by
  refine ⟨(hix.extent h.region).isBoundary_stop, Option.eq_none_iff_forall_ne_some.mpr fun r' hr' => ?_⟩
  obtain rfl := hix.eq_of_regionAtGap_stop h hr'
  have hgap := (hix.regionAtGap_eq_some.mp hr').2
  simp [Region.containsGap, closed] at hgap

/-- A comment or literal that begins before a gap of code ends by it, and code follows. -/
theorem codeGap_stop (h : ix.RegionAt p r) (hlimit : ix.CodeGap limit) (hlt : p < limit) :
    ix.CodeGap r.stop ∧ r.stop ≤ limit := by
  have hstart := h.start
  have hle : r.stop ≤ limit := by
    have := hix.codeGap_outside hlimit h.region
    omega
  refine ⟨?_, hle⟩
  cases closed : r.terminated with
  | true => exact hix.codeGap_of_terminated h closed
  | false =>
    -- A comment or literal that is never closed runs to the end of the text, and so to the limit.
    have hsize := Text.isBoundary_le_size hlimit.boundary
    have hend := (hix.extent h.region).unterminated closed
    obtain rfl : limit = r.stop := by omega
    exact hlimit

/-- What stands at a gap of code before another one: a character of code, or a comment or literal that
ends before the other gap. -/
theorem at_codeGap (hp : ix.CodeGap p) (hlimit : ix.CodeGap limit) (hlt : p < limit) :
    (∃ c, ix.CodeChar p c ∧ ix.CodeGap (ix.text.next p) ∧ ix.text.next p ≤ limit) ∨
      ∃ r, ix.RegionAt p r ∧ ix.CodeGap r.stop ∧ r.stop ≤ limit := by
  cases hr : ix.regionAtChar? p with
  | none =>
    have hsize := Text.isBoundary_le_size hlimit.boundary
    obtain ⟨c, hc⟩ := Text.exists_charAt hp.boundary (Nat.lt_of_lt_of_le hlt hsize)
    have hcode : ix.CodeChar p c := ⟨hc, hr⟩
    exact .inl ⟨c, hcode, hix.codeGap_next hcode,
      Text.next_le_of_isBoundary hc hlt hlimit.boundary⟩
  | some r =>
    have hregion := hix.codeGap_region hp hr
    exact .inr ⟨r, hregion, hix.codeGap_stop hregion hlimit hlt⟩

/-- Going forward for the partner of a bracket goes over balanced code. -/
theorem balanceForward_balanced (h : ix.Balanced p q) (hle : q ≤ limit) (hstack : stack ≠ []) :
    ix.balanceForward limit stack p = ix.balanceForward limit stack q := by
  induction h generalizing stack with
  | nil => rfl
  | @char p q c char plain rest ih =>
    have := ix.text.lt_next p
    have := rest.le hix
    rw [balanceForward_code char (by omega), plain.2.2, plain.2.1, ← ih hle hstack]
    rfl
  | @region p q r region rest ih =>
    have := hix.nonempty region.region
    have := region.start
    have := rest.le hix
    rw [balanceForward_region region (by omega), ih hle hstack]
  | @group p k q a c opener inner closer pair rest ihi ihr =>
    have hpk := inner.le hix
    have hkq := rest.le hix
    have hcloser := not_isGroupOpener_of_pair pair
    obtain ⟨top, more, rfl⟩ := List.exists_cons_of_ne_nil hstack
    calc ix.balanceForward limit (top :: more) p
        = ix.balanceForward limit (a :: top :: more) (p + 1) := by
          rw [balanceForward_code opener (by omega), isGroupOpener_of_pair pair, if_pos rfl,
            opener.next_opener pair]
      _ = ix.balanceForward limit (a :: top :: more) k := ihi (by omega) (List.cons_ne_nil _ _)
      _ = ix.balanceForward limit (top :: more) (k + 1) := by
          rw [balanceForward_code closer (by omega), hcloser, pair, closer.next_closer pair]
          simp
      _ = ix.balanceForward limit (top :: more) q := ihr hle hstack

theorem groupEnd_group (h : ix.Group a o k) (hlt : k < limit) : ix.groupEnd .angle limit o = some k := by
  obtain ⟨c, hc, pair⟩ := h.closer
  have hopener : Mode.angle.isOpener a = true := by
    rcases isGroupOpener_iff.mp (isGroupOpener_of_pair pair) with rfl | rfl | rfl | rfl <;> rfl
  have hcloser := not_isGroupOpener_of_pair pair
  rw [groupEnd_angle_code h.opener, if_pos hopener,
    hix.balanceForward_balanced h.inner (Nat.le_of_lt hlt) (List.cons_ne_nil _ _),
    balanceForward_code hc hlt, hcloser, pair]
  simp

end Complete

namespace IsJava

variable (hix : ix.IsJava)

include hix

theorem skipTriviaForward_region (h : ix.RegionAt p r) (hlt : p < limit) :
    ix.skipTriviaForward limit p =
      if r.kind = .comment then ix.skipTriviaForward limit r.stop else p := by
  obtain ⟨c, hc, hdelim⟩ := (hix.delimited h.region).opening
  rw [h.start] at hc
  rw [skipTriviaForward, if_pos hlt, hc]
  simp only [hdelim.not_blank, Bool.false_eq_true, ↓reduceIte]
  split
  next r' hr' =>
    rw [h.region] at hr'
    cases hr'
    rfl
  next hnone => simp [h.region] at hnone

theorem identEnd_region {m : Mode} (h : ix.RegionAt p r) : ix.identEnd m limit p = p := by
  obtain ⟨c, hc, hdelim⟩ := (hix.delimited h.region).opening
  have hident : ix.isIdentChar m c = false := by
    refine Bool.eq_false_iff.mpr fun hident => ?_
    have hident := isTypeIdentChar_of_isIdentChar hix.rules hident
    rcases hdelim with rfl | rfl | rfl <;> exact absurd hident (by decide)
  rw [h.start] at hc
  rw [identEnd, hc]
  simp [hident]

end IsJava

end Lexed

end BraceScopes
