import BraceScopes.Proofs.Lex.Classify
import BraceScopes.Proofs.Lex.Extent
import Mathlib.Tactic.ByContra
/-!
Gaps of code: places between two characters that lie in no comment and no literal. Before such a gap
stands a character of code, or a comment or literal ends there.
-/
namespace BraceScopes

open BraceScopes.Lex

namespace Lexed

/-- The index of a text that lexing by the rules `r` gets through. -/
structure Complete (ix : Lexed) (r : Rules) : Prop where
  eq : ix = ofText ix.text r
  finishes : Lex.finishes ix.text r = true

theorem complete_ofText {t : Text} {r : Rules} (h : Lex.finishes t r = true) :
    (ofText t r).Complete r :=
  ⟨by rw [ofText_text], by rwa [ofText_text]⟩

/-- The index of a Java text. -/
def IsJava (ix : Lexed) : Prop := ix.Complete .java

theorem isJava_ofText (t : Text) : (ofText t .java).IsJava := complete_ofText (finishes_java t)

/-- The character `c` of code stands at `p`. -/
structure CodeChar (ix : Lexed) (p : Nat) (c : Char) : Prop where
  char : ix.text.charAt p = some c
  code : ix.regionAtChar? p = none

/-- A comment or literal begins at `p`. -/
structure RegionAt (ix : Lexed) (p : Nat) (r : Region) : Prop where
  region : ix.regionAtChar? p = some r
  start : r.start = p

structure CodeGap (ix : Lexed) (p : Nat) : Prop where
  boundary : ix.text.isBoundary p = true
  code : ix.regionAtGap? p = none

variable {ix : Lexed} {p q a : Nat} {c d : Char} {r : Region}

theorem CodeChar.unique (h : ix.CodeChar p c) (h' : ix.CodeChar p d) : c = d :=
  Option.some.inj (h.char.symm.trans h'.char)

theorem CodeChar.charBefore (h : ix.CodeChar p c) : ix.text.charBefore (ix.text.next p) = some (p, c) :=
  Text.charBefore_next h.char

theorem CodeChar.isCode (h : ix.CodeChar p c) : ix.isCode p = true := by
  rw [Lexed.isCode, h.code]
  rfl

theorem codeChar_of_isCode (hc : ix.text.charAt p = some c) (h : ix.isCode p = true) : ix.CodeChar p c :=
  ⟨hc, Option.isNone_iff_eq_none.mp h⟩

namespace Complete

variable {rs : Rules} (hix : ix.Complete rs)

include hix

theorem rules : ix.rules = rs := by
  rw [hix.eq, ofText_rules]

theorem regionAtChar_eq_some : ix.regionAtChar? p = some r ↔
    .region r ∈ events ix.text rs ∧ r.start ≤ p ∧ p < r.stop := by
  have h := (reads_ofText ix.text rs).regionAtChar_eq_some (pairwise_events ix.text rs)
    (p := p) (x := r)
  rwa [← hix.eq] at h

theorem regionAtGap_eq_some : ix.regionAtGap? p = some r ↔
    .region r ∈ events ix.text rs ∧ r.containsGap p = true := by
  have h := (reads_ofText ix.text rs).regionAtGap_eq_some (pairwise_events ix.text rs)
    (p := p) (x := r)
  rwa [← hix.eq] at h

theorem nonempty_of_mem (h : .region r ∈ events ix.text rs) : r.start < r.stop :=
  finishes_iff.mp hix.finishes _ h

theorem extent (h : ix.regionAtChar? p = some r) : Extent ix.text r :=
  extent_of_mem (hix.regionAtChar_eq_some.mp h).1

theorem nonempty (h : ix.regionAtChar? p = some r) : r.start < r.stop :=
  hix.nonempty_of_mem (hix.regionAtChar_eq_some.mp h).1

theorem regionAtChar_inside (h : ix.regionAtChar? p = some r) (hstart : r.start ≤ q)
    (hstop : q < r.stop) : ix.regionAtChar? q = some r :=
  hix.regionAtChar_eq_some.mpr ⟨(hix.regionAtChar_eq_some.mp h).1, hstart, hstop⟩

theorem regionAt_start (h : ix.regionAtChar? p = some r) : ix.RegionAt r.start r :=
  ⟨hix.regionAtChar_inside h (Nat.le_refl _) (hix.nonempty h), rfl⟩

theorem of_regionAtGap (h : ix.regionAtGap? p = some r) :
    r.start < p ∧ (p = ix.text.size ∨ ix.regionAtChar? p = some r) := by
  obtain ⟨hmem, hgap⟩ := hix.regionAtGap_eq_some.mp h
  simp only [Region.containsGap, Bool.and_eq_true, Bool.or_eq_true, decide_eq_true_eq, beq_iff_eq,
    Bool.not_eq_true'] at hgap
  obtain ⟨hstart, hlt | ⟨rfl, hopen⟩⟩ := hgap
  · exact ⟨hstart, .inr (hix.regionAtChar_eq_some.mpr ⟨hmem, Nat.le_of_lt hstart, hlt⟩)⟩
  · exact ⟨hstart, .inl ((extent_of_mem hmem).unterminated hopen)⟩

theorem codeGap_of_code (h : ix.CodeChar p c) : ix.CodeGap p := by
  refine ⟨Text.isBoundary_of_charAt h.char, Option.eq_none_iff_forall_ne_some.mpr fun r hr => ?_⟩
  have hsize := Text.lt_size_of_charAt h.char
  obtain ⟨-, heq | hin⟩ := hix.of_regionAtGap hr
  · omega
  · simp [h.code] at hin

theorem codeGap_next (h : ix.CodeChar p c) : ix.CodeGap (ix.text.next p) := by
  refine ⟨Text.isBoundary_next h.char, Option.eq_none_iff_forall_ne_some.mpr fun r hr => ?_⟩
  obtain ⟨hmem, hgap⟩ := hix.regionAtGap_eq_some.mp hr
  obtain ⟨hstart, hstop⟩ := LexState.containsGap_bounds hgap
  have hlt := ix.text.lt_next p
  have hle : r.start ≤ p := by
    refine Nat.le_of_not_lt fun hp => ?_
    have hboundary := (extent_of_mem hmem).isBoundary_start
    rw [Text.isBoundary_inside h.char hp hstart] at hboundary
    simp at hboundary
  have hcode := h.code
  rw [hix.regionAtChar_eq_some.mpr ⟨hmem, hle, by omega⟩] at hcode
  simp at hcode

theorem codeGap_start (h : ix.regionAtChar? p = some r) : ix.CodeGap r.start := by
  have hextent := hix.extent h
  refine ⟨hextent.isBoundary_start, Option.eq_none_iff_forall_ne_some.mpr fun y hy => ?_⟩
  have hnonempty := hix.nonempty h
  have hsize := Text.isBoundary_le_size hextent.isBoundary_stop
  obtain ⟨hstart, heq | hin⟩ := hix.of_regionAtGap hy
  · omega
  · rw [(hix.regionAt_start h).region] at hin
    cases hin
    omega

/-- A gap of code does not lie inside a comment or literal. -/
theorem codeGap_outside (hp : ix.CodeGap p) (h : ix.regionAtChar? q = some r) :
    p ≤ r.start ∨ r.stop ≤ p := by
  by_contra hin
  have hgap : r.containsGap p = true := by
    simp only [Region.containsGap, Bool.and_eq_true, Bool.or_eq_true, decide_eq_true_eq]
    omega
  have hsome := hix.regionAtGap_eq_some.mpr ⟨(hix.regionAtChar_eq_some.mp h).1, hgap⟩
  rw [hp.code] at hsome
  simp at hsome

theorem codeGap_region (hp : ix.CodeGap p) (h : ix.regionAtChar? p = some r) : ix.RegionAt p r := by
  obtain ⟨-, hstart, hstop⟩ := hix.regionAtChar_eq_some.mp h
  exact ⟨h, by have := hix.codeGap_outside hp h; omega⟩

/-- Before a gap of code stands a character of code, or a comment or literal ends there. -/
theorem before_codeGap (hp : ix.CodeGap p) (hpos : 0 < p) :
    (∃ a c, ix.CodeChar a c ∧ ix.text.next a = p) ∨
      ∃ a c r, ix.text.charAt a = some c ∧ ix.text.next a = p ∧ ix.regionAtChar? a = some r ∧
        r.stop = p := by
  obtain ⟨a, c, hchar, rfl⟩ := Text.exists_charBefore hp.boundary hpos
  have hlt := ix.text.lt_next a
  cases hr : ix.regionAtChar? a with
  | none => exact .inl ⟨a, c, ⟨hchar, hr⟩, rfl⟩
  | some r =>
    obtain ⟨-, hstart, hstop⟩ := hix.regionAtChar_eq_some.mp hr
    have hle := Text.next_le_of_isBoundary hchar hstop (hix.extent hr).isBoundary_stop
    have := hix.codeGap_outside hp hr
    exact .inr ⟨a, c, r, hchar, rfl, hr, by omega⟩

/-- Before the end of a comment or literal stands one of its characters. -/
theorem charBefore_stop (h : ix.regionAtChar? p = some r) :
    ∃ a c, ix.text.charBefore r.stop = some (a, c) ∧ ix.regionAtChar? a = some r := by
  have hextent := hix.extent h
  have hlt := hix.nonempty h
  obtain ⟨a, c, hchar, hnext⟩ := Text.exists_charBefore hextent.isBoundary_stop (by omega)
  refine ⟨a, c, hnext ▸ Text.charBefore_next hchar, hix.regionAtChar_inside h ?_ ?_⟩
  · refine Nat.le_of_not_lt fun ha => ?_
    have := Text.next_le_of_isBoundary hchar ha hextent.isBoundary_start
    omega
  · have := ix.text.lt_next a
    omega

end Complete

theorem IsJava.delimited (hix : ix.IsJava) (h : ix.regionAtChar? p = some r) : Delimited ix.text r :=
  delimited_of_mem (hix.regionAtChar_eq_some.mp h).1

end Lexed

end BraceScopes
