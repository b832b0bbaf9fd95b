import BraceScopes.Proofs.Header.Layout
import BraceScopes.Proofs.Lex.Filler
/-!
Tokens with white space and comments between them. A word of the code is one of the tokens here as
well, and what is between the tokens does not belong to the text of the code.
-/
namespace BraceScopes

open Header

namespace Header

/-- Of two words next to each other, the first has something after it. -/
def Apart (ts : List Token) : Prop :=
  ts.IsChain fun a b => a.isWord = true → b.isWord = true → a.gap ≠ []

/-- White space and closed comments stand between tokens, and there are some between two words. -/
structure Separated (ts : List Token) : Prop where
  filler : ∀ k ∈ ts, Filler k.gap
  apart : Apart ts

instance (ts : List Token) : Decidable (Apart ts) := inferInstanceAs (Decidable (List.IsChain _ ts))

theorem Apart.of_append {ts us : List Token} (h : Apart (ts ++ us)) : Apart ts ∧ Apart us :=
  let ⟨hts, hus, _⟩ := List.isChain_append.mp h
  ⟨hts, hus⟩

theorem Token.Valid.not_isDelimiter {k : Token} (h : k.Valid markChars) : ∀ c ∈ k.text, ¬ IsDelimiter c := by
  intro c hc hdelim
  rcases h.chars with hname | hmark
  · simpa [hdelim.not_isWordChar] using isWordChar_of_isNameChar (hname c hc)
  · have hnot : ∀ c ∈ markChars, ¬ (c = '/' ∨ c = '"' ∨ c = '\'') := by decide
    exact hnot c (hmark c hc) hdelim

end Header

namespace Lexed

/-- The tokens `ts` stand in code from `p` to `q`, with trivia after those that have a gap. -/
inductive Spread (ix : Lexed) : Nat → Nat → List Token → Prop
  | nil (p : Nat) : Spread ix p p []
  | cons {p e n q : Nat} {k : Token} {ts : List Token} (text : ix.CodeChars p e k.text)
      (trivia : ix.Trivia e n) (gap : e = n ↔ k.gap = []) (rest : Spread ix n q ts) :
      Spread ix p q (k :: ts)

/-- The word `w` stands from `x` to `y`, and is not part of a longer one between `start` and `limit`. -/
structure WordWithin (ix : Lexed) (start limit x y : Nat) (w : List Char) : Prop where
  chars : ix.CodeChars x y w
  nonempty : w ≠ []
  name : ∀ c ∈ w, isNameChar c = true
  before : ∀ a c, ix.CodeChar a c → ix.text.next a = x → start ≤ a → isNameChar c = false
  after : ∀ c, ix.CodeChar y c → y < limit → isNameChar c = false
  le : y ≤ limit

variable {ix : Lexed} {p q e x y start limit : Nat} {c : Char} {w u v : List Char} {ts us : List Token}
  {j : Token}

theorem WordAt.within (h : ix.WordAt limit x y w) : ix.WordWithin start limit x y w :=
  ⟨h.chars, h.nonempty, h.name, fun a c hc hnext _ => h.before a c hc hnext, h.after, h.le⟩

theorem WordWithin.first (h : ix.WordWithin start limit x y w) :
    ∃ c, ix.CodeChar x c ∧ isNameChar c = true := by
  obtain ⟨c, hmem, hc⟩ := h.chars.first h.nonempty
  exact ⟨c, hc, h.name c hmem⟩

/-- Tokens with white space between them are such tokens. -/
theorem Laid.spread (hl : ix.Laid p q ts) : ix.Spread p q ts := by
  induction ts generalizing p with
  | nil =>
    rw [← hl.nil_iff]
    exact .nil p
  | cons k ts ih =>
    obtain ⟨e, n, htext, hgap, htrivia, hrest⟩ := hl.of_cons
    refine .cons htext htrivia ⟨fun heq => ?_, fun hnil => ?_⟩ (ih hrest)
    · by_contra hne
      have := hgap.lt hne
      omega
    · rw [hnil] at hgap
      cases hgap
      rfl

namespace Spread

theorem of_append (hl : ix.Spread p q (ts ++ us)) : ∃ m, ix.Spread p m ts ∧ ix.Spread m q us := by
  induction ts generalizing p with
  | nil => exact ⟨p, .nil p, hl⟩
  | cons k ts ih =>
    cases hl with
    | cons text trivia gap rest =>
      obtain ⟨m, hts, hus⟩ := ih rest
      exact ⟨m, .cons text trivia gap hts, hus⟩

theorem uncons (hl : ix.Spread p q (j :: ts)) : ∃ m, ix.Spread p m [j] ∧ ix.Spread m q ts :=
  (show ix.Spread p q ([j] ++ ts) from hl).of_append

theorem nil_iff (hl : ix.Spread p q []) : p = q := by
  cases hl
  rfl

/-- A token, and the trivia after it. -/
theorem single (hl : ix.Spread p q [j]) :
    ∃ e, ix.CodeChars p e j.text ∧ ix.Trivia e q ∧ (e = q ↔ j.gap = []) := by
  cases hl with
  | cons text trivia gap rest =>
    cases rest
    exact ⟨_, text, trivia, gap⟩

theorem le (hix : ix.IsJava) (hl : ix.Spread p q ts) : p ≤ q := by
  induction hl with
  | nil => exact Nat.le_refl _
  | cons text trivia gap rest ih => exact Nat.le_trans text.le (Nat.le_trans (trivia.le hix) ih)

/-- Tokens begin with a character that is no blank. -/
theorem first (hix : ix.IsJava) (hl : ix.Spread p q ts) (hne : ts ≠ [])
    (valid : ∀ k ∈ ts, k.Valid markChars) : ∃ c, ix.CodeChar p c ∧ isBlank c = false ∧ p < q := by
  cases hl with
  | nil => exact absurd rfl hne
  | cons text trivia gap rest =>
    have hvalid := valid _ (List.mem_cons_self ..)
    obtain ⟨c, hmem, hc⟩ := text.first hvalid.nonempty
    have hlt := text.lt hvalid.nonempty
    have := trivia.le hix
    have := rest.le hix
    exact ⟨c, hc, hvalid.solid c hmem, by omega⟩

/-- What stands among tokens and is no blank belongs to one of them. -/
theorem exists_mem (hix : ix.IsJava) (hl : ix.Spread p q ts) (hc : ix.CodeChar x c)
    (solid : isBlank c = false) (hpx : p ≤ x) (hxq : x < q) : ∃ k ∈ ts, c ∈ k.text := by
  induction hl with
  | nil => omega
  | @cons p e n q k ts text trivia gap rest ih =>
    rcases Nat.lt_or_ge x e with hxe | hex
    · obtain ⟨d, hd, hcode⟩ := text.exists_at (Text.isBoundary_of_charAt hc.char) hpx hxe
      obtain rfl := hc.unique hcode
      exact ⟨k, List.mem_cons_self .., hd⟩
    · obtain ⟨i, hi, hmem⟩ := ih (hix.le_of_trivia trivia hc solid hex) hxq
      exact ⟨i, List.mem_cons_of_mem k hi, hmem⟩

/-- What follows a word belongs to no word, unless the tokens end with it. -/
theorem after_word (hl : ix.Spread p q (j :: ts)) (apart : Apart (j :: ts))
    (valid : ∀ k ∈ j :: ts, k.Valid markChars) (hword : j.isWord = true)
    (htext : ix.CodeChars p e j.text) (hix : ix.IsJava) : e = q ∨ ∀ c, ix.CodeChar e c → IsBreak c := by
  cases hl with
  | @cons _ e' n _ _ _ text trivia gap rest =>
    obtain rfl : e = e' := by rw [htext.stop_eq, text.stop_eq]
    rcases Nat.lt_or_eq_of_le (trivia.le hix) with hlt | rfl
    · exact .inr fun c hc => isBreak_of_isBlank (IsJava.isBlank_first trivia hlt hc)
    · cases rest with
      | nil => exact .inl rfl
      | @cons _ _ _ _ i ts text' =>
        have hvalid := valid i (by simp)
        obtain ⟨d, hmem, hd⟩ := text'.first hvalid.nonempty
        have happart := (List.isChain_cons_cons.mp apart).1
        have hmark : i.isWord = false :=
          Bool.eq_false_iff.mpr fun hi => happart hword hi (gap.mp rfl)
        refine .inr fun c hc => ?_
        obtain rfl := hc.unique hd
        exact isBreak_of_mark (hvalid.mark hmark c hmem)

/-- A word that begins inside a token is the whole token. -/
theorem eq_of_wordAt (hix : ix.IsJava) (hl : ix.Spread p q (j :: ts)) (apart : Apart (j :: ts))
    (valid : ∀ k ∈ j :: ts, k.Valid markChars) (htext : ix.CodeChars p e j.text)
    (hw : ix.WordWithin start limit x y w) (hp : start ≤ p) (hpx : p ≤ x) (hxe : x < e)
    (hlimit : q ≤ limit) (hend : q = limit ∨ ∀ c, ix.CodeChar q c → isNameChar c = false) : j.isWord = true ∧ j.text = w := by
  obtain ⟨c, hc, hname⟩ := hw.first
  have hboundary := Text.isBoundary_of_charAt hc.char
  have hvalid := valid j (List.mem_cons_self ..)
  have heq : e ≤ q := by
    cases hl with
    | cons text trivia gap rest =>
      rw [htext.stop_eq, ← text.stop_eq]
      exact Nat.le_trans (trivia.le hix) (rest.le hix)
  have hword : j.isWord = true := by
    cases hmark : j.isWord with
    | true => rfl
    | false =>
      obtain ⟨d, hd, hcode⟩ := htext.exists_at hboundary hpx hxe
      obtain rfl := hc.unique hcode
      simp [not_isNameChar_of_mark (hvalid.mark hmark c hd)] at hname
  have hall : ∀ c ∈ j.text, isNameChar c = true := List.all_eq_true.mp hword
  obtain rfl : p = x := by
    refine Nat.le_antisymm hpx (Nat.le_of_not_lt fun hlt => ?_)
    obtain ⟨a, d, hd, hcode, hnext⟩ := htext.exists_before hboundary hlt (Nat.le_of_lt hxe)
    obtain ⟨f, -, hfirst⟩ := htext.first hvalid.nonempty
    have hpa : p ≤ a := by
      refine Nat.le_of_not_lt fun hap => ?_
      have := Text.next_le_of_isBoundary hcode.char hap (Text.isBoundary_of_charAt hfirst.char)
      omega
    exact absurd (hall d hd) (by simp [hw.before a d hcode hnext (by omega)])
  obtain rfl : e = y := by
    refine Nat.le_antisymm (Nat.le_of_not_lt fun hlt => ?_) (Nat.le_of_not_lt fun hlt => ?_)
    · obtain ⟨d, hd, hcode⟩ := htext.exists_at (hw.chars.isBoundary_stop hw.nonempty) hw.chars.le hlt
      exact absurd (hall d hd) (by simp [hw.after d hcode (by omega)])
    · obtain ⟨d, hd, hcode⟩ := hw.chars.exists_at (htext.isBoundary_stop hvalid.nonempty) htext.le hlt
      have hnot : isNameChar d = false := by
        rcases hl.after_word apart valid hword htext hix with rfl | hbreak
        · have := hw.le
          exact hend.resolve_left (by omega) d hcode
        · exact (hbreak d hcode).not_isNameChar
      exact absurd (hw.name d hd) (by simp [hnot])
  exact ⟨hword, htext.unique hw.chars⟩

/-- A word that begins among tokens is one of them. -/
theorem exists_token (hix : ix.IsJava) (hl : ix.Spread p q ts) (apart : Apart ts)
    (valid : ∀ k ∈ ts, k.Valid markChars) (hw : ix.WordWithin start limit x y w) (hp : start ≤ p)
    (hpx : p ≤ x) (hxq : x < q) (hlimit : q ≤ limit) (hend : q = limit ∨ ∀ c, ix.CodeChar q c → isNameChar c = false) :
    ∃ j ∈ ts, j.isWord = true ∧ j.text = w := by
  induction hl with
  | nil => omega
  | @cons p e n q k ts text trivia gap rest ih =>
    rcases Nat.lt_or_ge x e with hxe | hex
    · exact ⟨k, List.mem_cons_self ..,
        eq_of_wordAt hix (.cons text trivia gap rest) apart valid text hw hp hpx hxe hlimit hend⟩
    · obtain ⟨c, hc, hname⟩ := hw.first
      have hnx := hix.le_of_trivia trivia hc (not_isBlank_of_isNameChar hname) hex
      have hpn := Nat.le_trans text.le (trivia.le hix)
      obtain ⟨i, hi, hfound⟩ := ih apart.tail (fun k hk => valid k (List.mem_cons_of_mem _ hk))
        (Nat.le_trans hp hpn) hnx hxq hlimit hend
      exact ⟨i, List.mem_cons_of_mem k hi, hfound⟩

end Spread

/-- A word that begins among tokens with white space between them is one of them. -/
theorem Laid.exists_token (hl : ix.Laid p q ts) (hix : ix.IsJava) (hw : ix.WordAt limit x y w) (hpx : p ≤ x)
    (hxq : x < q) (hlimit : q ≤ limit) (hend : q = limit ∨ ∃ c, ix.CodeChar q c ∧ isNameChar c = false) :
    ∃ j ∈ ts, j.isWord = true ∧ j.text = w := by
  refine hl.spread.exists_token hix hl.spaced.apart hl.valid hw.within (Nat.le_refl p) hpx hxq hlimit
    (hend.imp_right ?_)
  rintro ⟨c, hc, hname⟩ d hd
  exact hc.unique hd ▸ hname

namespace IsJava

variable (hix : ix.IsJava)

include hix

/-- Tokens that are written into a text stand in its code. -/
theorem spread_of_append (hts : Separated ts) (valid : ∀ k ∈ ts, k.Valid markChars)
    (h : ix.text.chars = u ++ (spell ts ++ v)) (hp : ix.CodeGap (byteLength u)) :
    ix.Spread (byteLength u) (byteLength (u ++ spell ts)) ts ∧ ix.CodeGap (byteLength (u ++ spell ts)) := by
  induction ts generalizing u with
  | nil =>
    rw [spell, List.flatMap_nil, List.append_nil]
    exact ⟨.nil _, hp⟩
  | cons k ts ih =>
    obtain ⟨hk, hfiller⟩ := List.forall_mem_cons.mp hts.filler
    obtain ⟨hvalid, hvalids⟩ := List.forall_mem_cons.mp valid
    rw [spell_cons] at h ⊢
    have htext := hix.codeChars_of_append (v := k.gap ++ spell ts ++ v) (by simpa using h) hp
      hvalid.not_isDelimiter
    have hgap := hix.codeGap_codeChars htext hp
    obtain ⟨htrivia, hgap⟩ := hix.trivia_of_filler (u := u ++ k.text) (v := spell ts ++ v) hk
      (by simpa using h) hgap
    obtain ⟨hrest, hgap⟩ := ih (u := u ++ k.text ++ k.gap) ⟨hfiller, hts.apart.tail⟩ hvalids
      (by simpa using h) hgap
    simp only [List.append_assoc] at htrivia hrest hgap
    refine ⟨.cons htext (by simpa using htrivia) ?_ hrest, hgap⟩
    rw [← List.append_assoc, byteLength_append _ k.gap]
    constructor
    · intro heq
      by_contra hne
      have := byteLength_pos hne
      omega
    · intro hnil
      rw [hnil]
      rfl

end IsJava

end Lexed

end BraceScopes
