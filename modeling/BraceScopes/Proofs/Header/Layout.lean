import BraceScopes.Proofs.Header.Grammar
import BraceScopes.Proofs.Scan.Lane
/-!
Tokens as they stand in code. A word of the code is one of the tokens, because white space or a mark
stands between two words.
-/
namespace BraceScopes

open BraceScopes.Lex

namespace Header

/-- The characters of marks. -/
def markChars : List Char := ['.', ',', '<', '>', '[', ']', '&', '?', '@', '(', ')']

/-- A word, or a mark of some characters. -/
structure Token.Valid (marks : List Char) (k : Token) : Prop where
  nonempty : k.text ≠ []
  chars : (∀ c ∈ k.text, isNameChar c = true) ∨ ∀ c ∈ k.text, c ∈ marks

theorem toNat_lt_of_isNameChar {c : Char} (h : isNameChar c = true) : c.toNat < 128 := by
  have below : ∀ b : UInt32, b.toNat < 128 → c.val ≤ b → c.toNat < 128 := by
    intro b hb hle
    exact Nat.lt_of_le_of_lt (UInt32.le_iff_toNat_le.mp hle) hb
  rcases Bool.or_eq_true_iff.mp h with hname | hline
  · rcases Bool.or_eq_true_iff.mp hname with hletter | hdigit
    · rcases Bool.or_eq_true_iff.mp hletter with hupper | hlower
      · exact below 'Z'.val (by decide) (of_decide_eq_true hupper).2
      · exact below 'z'.val (by decide) (of_decide_eq_true (Bool.and_eq_true_iff.mp hlower).2)
    · exact below '9'.val (by decide) (of_decide_eq_true (Bool.and_eq_true_iff.mp hdigit).2)
  · rw [eq_of_beq hline]
    decide

/-- A property of all characters of names, checked one by one. -/
theorem forall_isNameChar {f : Char → Bool}
    (hf : ∀ n < 128, isNameChar (Char.ofNat n) = true → f (Char.ofNat n) = true) {c : Char}
    (h : isNameChar c = true) : f c = true := by
  have hlt := toNat_lt_of_isNameChar h
  rw [← Char.ofNat_toNat c] at h ⊢
  exact hf _ hlt h

theorem isWordChar_of_isNameChar {c : Char} (h : isNameChar c = true) : isWordChar c = true :=
  forall_isNameChar (by decide +kernel) h

theorem isIdentChar_of_isNameChar {c : Char} (h : isNameChar c = true) :
    Rules.java.isIdentChar c = true :=
  forall_isNameChar (by decide +kernel) h

theorem not_isNameChar_of_mark {c : Char} (h : c ∈ markChars) : isNameChar c = false := by
  have hall : ∀ c ∈ markChars, isNameChar c = false := by decide
  exact hall c h

theorem not_isBlank_of_mark {c : Char} (h : c ∈ markChars) : isBlank c = false := by
  have hall : ∀ c ∈ markChars, isBlank c = false := by decide
  exact hall c h

theorem not_isNameChar_of_isBlank {c : Char} (h : isBlank c = true) : isNameChar c = false := by
  refine Bool.eq_false_iff.mpr fun hname => ?_
  simpa [isWordChar_of_isBlank h] using isWordChar_of_isNameChar hname

theorem not_isBlank_of_isNameChar {c : Char} (h : isNameChar c = true) : isBlank c = false := by
  refine Bool.eq_false_iff.mpr fun hblank => ?_
  simp [not_isNameChar_of_isBlank hblank] at h

theorem Token.Valid.solid {k : Token} (h : k.Valid markChars) : ∀ c ∈ k.text, isBlank c = false := by
  intro c hc
  rcases h.chars with hname | hmark
  · exact not_isBlank_of_isNameChar (hname c hc)
  · exact not_isBlank_of_mark (hmark c hc)

/-- A token that is no word is a mark. -/
theorem Token.Valid.mark {k : Token} {marks : List Char} (h : k.Valid marks) (hword : k.isWord = false) :
    ∀ c ∈ k.text, c ∈ marks := by
  refine h.chars.resolve_left fun hname => ?_
  simp [Token.isWord, List.all_eq_true.mpr hname] at hword

theorem Spaced.of_append {ts us : List Token} (h : Spaced (ts ++ us)) : Spaced ts ∧ Spaced us := by
  obtain ⟨hts, hus, -⟩ := List.isChain_append.mp h.apart
  exact ⟨⟨fun k hk => h.blank k (List.mem_append_left _ hk), hts⟩,
    ⟨fun k hk => h.blank k (List.mem_append_right _ hk), hus⟩⟩

theorem spell_append (ts us : List Token) : spell (ts ++ us) = spell ts ++ spell us :=
  List.flatMap_append

theorem spell_cons (k : Token) (ts : List Token) : spell (k :: ts) = k.text ++ (k.gap ++ spell ts) := by
  rw [spell, List.flatMap_cons, Token.chars, List.append_assoc]
  rfl

end Header

open Header

namespace Lexed

/-- The tokens `ts` stand in code from `p` to `q`. -/
structure Laid (ix : Lexed) (p q : Nat) (ts : List Token) : Prop where
  chars : ix.CodeChars p q (spell ts)
  spaced : Spaced ts
  valid : ∀ k ∈ ts, k.Valid markChars

variable {ix : Lexed} {m : Mode} {p q e x y o k limit h : Nat} {c a : Char} {w : List Char}
  {ts us : List Token} {j : Token}

/-- A character that belongs to no word, whatever is taken for a word. -/
def IsBreak (c : Char) : Prop := isWordChar c = false ∧ Rules.java.isIdentChar c = false

theorem isBreak_of_isBlank (h : isBlank c = true) : IsBreak c := by
  have hident := isTypeIdentChar_of_isBlank h
  simp only [Rules.isTypeIdentChar, Bool.or_eq_false_iff] at hident
  exact ⟨isWordChar_of_isBlank h, hident.1.1⟩

theorem isBreak_of_mark (h : c ∈ markChars) : IsBreak c := by
  have hall : ∀ c ∈ markChars, isWordChar c = false ∧ Rules.java.isIdentChar c = false := by decide
  exact hall c h

theorem IsBreak.not_isNameChar (h : IsBreak c) : isNameChar c = false := by
  refine Bool.eq_false_iff.mpr fun hname => ?_
  simpa [h.1] using isWordChar_of_isNameChar hname

namespace Laid

theorem le (hl : ix.Laid p q ts) : p ≤ q := hl.chars.le

theorem of_append (hl : ix.Laid p q (ts ++ us)) : ∃ m, ix.Laid p m ts ∧ ix.Laid m q us := by
  have hchars := hl.chars
  rw [spell_append] at hchars
  obtain ⟨m, hts, hus⟩ := hchars.of_append
  obtain ⟨sts, sus⟩ := hl.spaced.of_append
  exact ⟨m, ⟨hts, sts, fun k hk => hl.valid k (List.mem_append_left _ hk)⟩,
    ⟨hus, sus, fun k hk => hl.valid k (List.mem_append_right _ hk)⟩⟩

theorem uncons (hl : ix.Laid p q (j :: ts)) : ∃ m, ix.Laid p m [j] ∧ ix.Laid m q ts :=
  (show ix.Laid p q ([j] ++ ts) from hl).of_append

/-- The first token, the white space after it, and the other tokens. -/
theorem of_cons (hl : ix.Laid p q (j :: ts)) : ∃ e m, ix.CodeChars p e j.text ∧ ix.CodeChars e m j.gap ∧
    ix.Trivia e m ∧ ix.Laid m q ts := by
  have hchars := hl.chars
  rw [spell_cons] at hchars
  obtain ⟨e, htext, hrest⟩ := hchars.of_append
  obtain ⟨m, hgap, hrest⟩ := hrest.of_append
  have hspaced : Spaced ts := (Spaced.of_append (show Spaced ([j] ++ ts) from hl.spaced)).2
  exact ⟨e, m, htext, hgap, hgap.trivia (hl.spaced.blank j (List.mem_cons_self ..)), hrest, hspaced,
    fun k hk => hl.valid k (List.mem_cons_of_mem j hk)⟩

theorem nil_iff (hl : ix.Laid p q []) : p = q := by
  cases hl.chars
  rfl

/-- Tokens begin with a character that is no blank. -/
theorem first (hl : ix.Laid p q ts) (hne : ts ≠ []) :
    ∃ c, ix.CodeChar p c ∧ isBlank c = false ∧ p < q := by
  obtain ⟨j, ts, rfl⟩ := List.exists_cons_of_ne_nil hne
  obtain ⟨e, m, htext, hgap, -, hrest⟩ := hl.of_cons
  have hvalid := hl.valid j (List.mem_cons_self ..)
  obtain ⟨c, hmem, hc⟩ := htext.first hvalid.nonempty
  have := htext.lt hvalid.nonempty
  have := hgap.le
  have := hrest.le
  exact ⟨c, hc, hvalid.solid c hmem, by omega⟩

/-- After a word stands white space or a mark, unless the tokens end with it. -/
theorem after_word (hl : ix.Laid p q (j :: ts)) (hword : j.isWord = true) (htext : ix.CodeChars p e j.text) :
    e = q ∨ ∃ c, ix.CodeChar e c ∧ IsBreak c := by
  obtain ⟨e', m, htext', hgap, -, hrest⟩ := hl.of_cons
  obtain rfl : e = e' := by rw [htext.stop_eq, htext'.stop_eq]
  by_cases hnil : j.gap = []
  · rw [hnil] at hgap
    cases hgap
    cases ts with
    | nil => exact .inl hrest.nil_iff
    | cons i ts =>
      obtain ⟨e', m, hi, -⟩ := hrest.of_cons
      have hvalid := hrest.valid i (List.mem_cons_self ..)
      obtain ⟨c, hmem, hc⟩ := hi.first hvalid.nonempty
      have happart := (List.isChain_cons_cons.mp hl.spaced.apart).1
      have hmark : i.isWord = false := Bool.eq_false_iff.mpr fun hi => happart hword hi hnil
      exact .inr ⟨c, hc, isBreak_of_mark (hvalid.mark hmark c hmem)⟩
  · obtain ⟨c, hmem, hc⟩ := hgap.first hnil
    have hblank := hl.spaced.blank j (List.mem_cons_self ..) c hmem
    exact .inr ⟨c, hc, isBreak_of_isBlank hblank⟩

end Laid

/-- The word `w` stands from `x` to `y`, and is not part of a longer one that ends by `limit`. -/
structure WordAt (ix : Lexed) (limit x y : Nat) (w : List Char) : Prop where
  chars : ix.CodeChars x y w
  nonempty : w ≠ []
  name : ∀ c ∈ w, isNameChar c = true
  before : ∀ a c, ix.CodeChar a c → ix.text.next a = x → isNameChar c = false
  after : ∀ c, ix.CodeChar y c → y < limit → isNameChar c = false
  le : y ≤ limit

theorem WordAt.first (h : ix.WordAt limit x y w) : ∃ c, ix.CodeChar x c ∧ isNameChar c = true := by
  obtain ⟨c, hmem, hc⟩ := h.chars.first h.nonempty
  exact ⟨c, hc, h.name c hmem⟩

/-- A word does not begin in trivia. -/
theorem WordAt.le_of_trivia (hix : ix.IsJava) (h : ix.WordAt limit x y w) (htrivia : ix.Trivia e p)
    (hle : e ≤ x) : p ≤ x := by
  obtain ⟨c, hc, hname⟩ := h.first
  exact hix.le_of_trivia htrivia hc (not_isBlank_of_isNameChar hname) hle

/-- No word runs over `x` from the left. -/
def Breaks (ix : Lexed) (x : Nat) : Prop := ∀ a c, ix.text.charBefore x = some (a, c) → IsBreak c

theorem breaks_next (hc : ix.CodeChar x c) (h : IsBreak c) : ix.Breaks (ix.text.next x) := by
  intro a d ha
  rw [hc.charBefore] at ha
  cases ha
  exact h

theorem Breaks.stops (hix : ix.IsJava) (h : ix.Breaks x) : ix.Stops .normal 0 x := by
  refine .inr fun a c hnext hc => ?_
  have hback := hc.charBefore
  rw [hnext] at hback
  rw [isIdentChar, hix.rules]
  exact (h a c hback).2

/-- The last character of some tokens. -/
theorem Laid.last (hl : ix.Laid p q (ts ++ [j])) :
    ∃ x c, ix.CodeChar x c ∧ ix.text.next x = q ∧ (c ∈ j.gap ∨ j.gap = [] ∧ c ∈ j.text) := by
  obtain ⟨m, -, hj⟩ := hl.of_append
  obtain ⟨e, m', htext, hgap, -, hrest⟩ := hj.of_cons
  obtain rfl := hrest.nil_iff
  by_cases hnil : j.gap = []
  · rw [hnil] at hgap
    cases hgap
    obtain ⟨x, c, hmem, hc, hnext⟩ := htext.last (hj.valid j (List.mem_cons_self ..)).nonempty
    exact ⟨x, c, hc, hnext, .inr ⟨hnil, hmem⟩⟩
  · obtain ⟨x, c, hmem, hc, hnext⟩ := hgap.last hnil
    exact ⟨x, c, hc, hnext, .inl hmem⟩

/-- No word runs over the start of a word among tokens. -/
theorem Laid.breaks (hl : ix.Laid h x ts) (happart : Spaced (ts ++ [j])) (hj : j.isWord = true)
    (hh : ix.Breaks h) : ix.Breaks x := by
  rcases List.eq_nil_or_concat ts with rfl | ⟨us, i, rfl⟩
  · rw [← hl.nil_iff]
    exact hh
  · rw [List.concat_eq_append] at hl happart
    obtain ⟨a, c, hc, rfl, hmem⟩ := hl.last
    refine breaks_next hc ?_
    rcases hmem with hgap | ⟨hnil, htext⟩
    · exact isBreak_of_isBlank (hl.spaced.blank i (by simp) c hgap)
    · have hchain := happart.apart
      rw [List.append_assoc, List.singleton_append, List.isChain_append_cons_cons] at hchain
      have hmark : i.isWord = false := Bool.eq_false_iff.mpr fun hi => hchain.2.1 hi hj hnil
      exact isBreak_of_mark ((hl.valid i (by simp)).mark hmark c htext)

namespace IsJava

variable (hix : ix.IsJava)

include hix

theorem codeGap_laid (hl : ix.Laid p q ts) (hp : ix.CodeGap p) : ix.CodeGap q :=
  hix.codeGap_codeChars hl.chars hp

theorem isIdentChar_of_name (hc : isNameChar c = true) : ix.isIdentChar m c = true := by
  have hident := isIdentChar_of_isNameChar hc
  cases m with
  | normal => rwa [isIdentChar, hix.rules]
  | angle => rw [isIdentChar, hix.rules, Rules.isTypeIdentChar, hident]; rfl

theorem not_isNameChar_of_ident (hc : ix.isIdentChar m c = false) : isNameChar c = false := by
  refine Bool.eq_false_iff.mpr fun hname => ?_
  simp [hix.isIdentChar_of_name hname] at hc

/-- A word that ends some tokens is the piece before their end. -/
theorem piece_word (hl : ix.Laid h q (ts ++ [j])) (hj : j.isWord = true) (hh : ix.Breaks h)
    (hgap : ix.CodeGap h) : ∃ x y, ix.Laid h x ts ∧ ix.CodeChars x y j.text ∧ ix.Trivia y q ∧ x < y ∧
      ix.Breaks x ∧ ix.pieceBefore? .normal q 0 = some ⟨.ident, x, y⟩ ∧
      ix.text.word x y = String.ofList j.text := by
  obtain ⟨x, hts, hj'⟩ := hl.of_append
  obtain ⟨y, m, htext, -, htrivia, hrest⟩ := hj'.of_cons
  obtain rfl := hrest.nil_iff
  have hlt := htext.lt (hj'.valid j (List.mem_cons_self ..)).nonempty
  have hbreaks := hts.breaks hl.spaced hj hh
  have hword : ix.Word .normal x y :=
    htext.word fun c hc => hix.isIdentChar_of_name (List.all_eq_true.mp hj c hc)
  refine ⟨x, y, hts, htext, htrivia, hlt, hbreaks, ?_, ?_⟩
  · exact hix.pieceBefore_eq_some (hix.codeGap_laid hl hgap)
      (.ident hword hlt (Nat.zero_le x) (hbreaks.stops hix) htrivia) (by simp)
  · rw [Text.word, htext.slice (hix.codeGap_laid hts hgap)]

end IsJava

namespace MemberStart

/-- The character before a member is white space, a brace, a semicolon, or the end of a comment. -/
theorem before (hix : ix.IsJava) (hstart : ix.MemberStart h) (hc : ix.CodeChar h c)
    (solid : isBlank c = false) {d : Char} (hd : ix.text.charBefore h = some (x, d)) :
    isBlank d = true ∨ d ∈ ['{', '}', ';', '/', '"', '\''] := by
  have hgap := hix.codeGap_of_code hc
  have hx := Text.charBefore_lt hd
  rcases hix.before_codeGap hgap (by omega) with ⟨a, d', hd', rfl⟩ | ⟨a, d', r, hd', rfl, hr, hstop⟩
  · rw [hd'.charBefore] at hd
    cases hd
    obtain ⟨e, trivia, hbefore⟩ := hstart
    rcases Nat.lt_or_eq_of_le (trivia.le hix) with hlt | rfl
    · exact .inl (hix.isBlank_last trivia hlt hd' rfl)
    · rcases hbefore with hzero | ⟨a', c', hc', hnext, hbrace⟩
      · omega
      · obtain ⟨-, rfl⟩ := hd'.unique_before hc' hnext
        right
        rcases hbrace with rfl | rfl | rfl <;> decide
  · rw [Text.charBefore_next hd'] at hd
    cases hd
    right
    rcases hix.isDelimiter_last hd' hr hstop.symm (hstop ▸ hc.char) solid with rfl | rfl | rfl <;> decide

theorem breaks (hix : ix.IsJava) (hstart : ix.MemberStart h) (hc : ix.CodeChar h c)
    (solid : isBlank c = false) : ix.Breaks h := by
  intro x d hd
  rcases hstart.before hix hc solid hd with hblank | hbrace
  · exact isBreak_of_isBlank hblank
  · have hall : ∀ d ∈ ['{', '}', ';', '/', '"', '\''],
        isWordChar d = false ∧ Rules.java.isIdentChar d = false := by decide
    exact hall d hbrace

end MemberStart

end Lexed

end BraceScopes
