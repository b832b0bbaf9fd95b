import BraceScopes.Proofs.Detect.Cases
import BraceScopes.Proofs.Header.Phrases
import BraceScopes.Proofs.Header.Words
/-!
A header in its text. It is code from its first token to the brace, the body it stands in begins before
it, and what is searched for near the brace is found among its tokens.
-/
namespace BraceScopes

open BraceScopes.Lex Header

namespace Lexed

variable {ix : Lexed} {p q h b k o i x y bound : Nat} {a c d : Char} {u v w cs : List Char}
  {r extra : List String} {marks : List Char} {ts : List Token} {j : Token}

/-- Characters that no comment or literal touches are code. -/
theorem IsJava.codeChars_of_chars (hix : ix.IsJava) (hchars : ix.text.chars = u ++ cs ++ v)
    (hcode : ∀ r, .region r ∈ events ix.text .java →
      r.stop ≤ byteLength u ∨ byteLength (u ++ cs) ≤ r.start) :
    ix.CodeChars (byteLength u) (byteLength (u ++ cs)) cs := by
  induction cs generalizing u with
  | nil =>
    rw [List.append_nil]
    exact .nil _
  | cons c cs ih =>
    have happend : u ++ c :: cs = (u ++ [c]) ++ cs := by simp
    have hlength : byteLength (u ++ [c]) = byteLength u + c.utf8Size := by
      rw [byteLength_append]
      simp [byteLength]
    have hpos := Char.utf8Size_pos c
    have hle : byteLength (u ++ [c]) ≤ byteLength (u ++ c :: cs) := by
      rw [happend, byteLength_append (u ++ [c])]
      omega
    have hchar : ix.text.charAt (byteLength u) = some c := by
      rw [List.append_assoc] at hchars
      rw [Text.charAt_byteLength hchars]
      rfl
    have hout : ix.regionAtChar? (byteLength u) = none := by
      refine Option.eq_none_iff_forall_ne_some.mpr fun r hr => ?_
      obtain ⟨hmem, hstart, hstop⟩ := hix.regionAtChar_eq_some.mp hr
      rcases hcode r hmem with hbefore | hafter <;> omega
    refine .cons ⟨hchar, hout⟩ ?_
    rw [Text.next_of_charAt hchar, ← hlength, happend]
    refine ih (by rw [hchars, happend]) fun r hr => ?_
    rcases hcode r hr with hbefore | hafter
    · exact .inl (by omega)
    · exact .inr (by rwa [← happend])

/-- Tokens between other characters, where no comment or literal touches them or what follows. -/
theorem IsJava.laid_of_chars (hix : ix.IsJava) (hchars : ix.text.chars = u ++ spell ts ++ v)
    (hcode : ∀ r, .region r ∈ events ix.text .java →
      r.stop ≤ byteLength u ∨ byteLength (u ++ spell ts) < r.start)
    (hspaced : Spaced ts) (hvalid : ∀ k ∈ ts, k.Valid markChars) :
    ix.Laid (byteLength u) (byteLength (u ++ spell ts)) ts :=
  ⟨hix.codeChars_of_chars hchars fun r hr => (hcode r hr).imp_right Nat.le_of_lt, hspaced, hvalid⟩

theorem codeChar_of_oneOf {m : Span} (hm : ix.CodeMatch (.oneOf cs) b m) :
    ∃ c ∈ cs, ix.CodeChar m.start c ∧ m.start < b ∧ m.stop = m.start + c.utf8Size := by
  have hfound := hm.found
  simp only [Pattern.matchAt?] at hfound
  split at hfound
  next hlt =>
    obtain ⟨c, hc, hif⟩ := Option.bind_eq_some_iff.mp hfound
    split at hif
    next hmem => exact ⟨c, by simpa using hmem, codeChar_of_isCode hc hm.code, hlt, (Option.some.inj hif).symm⟩
    next => simp at hif
  next => simp at hfound

/-- The last of some characters before a gap. -/
theorem searchBack_oneOf (sol : (Pattern.oneOf cs).Solid) (hc : ix.CodeChar k c) (hmem : c ∈ cs)
    (hbound : bound ≤ k) (hlt : k < b) (later : ∀ i d, ix.CodeChar i d → k < i → i < b → d ∉ cs) :
    ix.searchBack (.oneOf cs) b bound 1 = some ⟨k, k + 1⟩ := by
  have hsize : c.utf8Size = 1 := sol c hmem
  refine (searchBack_eq_some sol).mpr ⟨hbound, ⟨?_, hc.isCode⟩, fun m hm hmatch => ?_⟩
  · simp [Pattern.matchAt?, hlt, hc.char, hmem, hsize]
  · obtain ⟨d, hd, hcode, hmb, -⟩ := codeChar_of_oneOf hmatch
    exact Nat.le_of_not_lt fun hkm => later m.start d hcode hkm hmb hd

namespace IsJava

variable (hix : ix.IsJava)

include hix

/-- Balanced code stands in one body. -/
theorem bodyStart_le (hbalanced : ix.Balanced h b) (hb : b ≤ ix.text.size) : ix.bodyStart b ≤ h := by
  rw [bodyStart, hix.enclosing_eq hb, hix.stackBelow_balanced hbalanced]
  split
  next => exact Nat.zero_le h
  next o rest heq =>
    have hmem : o ∈ stackBelow h (events ix.text .java) := by simp [heq]
    exact (opened_of_mem_stackBelow hmem).2

/-- A group of round brackets is a piece also where angle brackets do not pair. -/
theorem piece_parens (hg : ix.Group '(' o k) (hk : ix.CodeChar k ')') (htrivia : ix.Trivia (k + 1) p)
    (hp : ix.CodeGap p) : ix.pieceBefore? .normal p 0 = some ⟨.group '(', o, k + 1⟩ := by
  have hnext : ix.text.next k = k + 1 := hk.next_closer rfl
  have hlt := hg.inner.le hix
  have hpartner : ix.groupStart .normal 0 k = some o := by
    have hopen := hix.openOf_group hg hk (by decide)
    simp only [groupStart, hk.char, hk.isCode, hopen]
    simp [Mode.isCloser, openerOf, show o < k by omega]
  rw [← hnext] at htrivia ⊢
  exact hix.pieceBefore_eq_some hp (.group hk rfl hg.opener hpartner htrivia) (by simp)

/-- Only after some characters does an array begin. -/
theorem array_eq_none (hb : ix.CodeGap b) (hc : ix.CodeChar k c) (solid : isBlank c = false)
    (htrivia : ix.Trivia (ix.text.next k) b) (hne : c ∉ ({} : ScopeConfig).arrayPredecessors) :
    Detect.array {} ix b = none := by
  refine Option.eq_none_iff_forall_ne_some.mpr fun d hd => ?_
  obtain ⟨skipped, q, hstep, hany, -⟩ := Detect.array_eq_some.mp hd
  obtain ⟨skipped', q', hstep', hclosing⟩ := hix.stepBack_closing hb hc solid htrivia
  rw [hstep] at hstep'
  cases hstep'
  rw [hclosing] at hany
  exact hne (by simpa using hany)

/-- The piece before a gap is the longest word that ends there. -/
theorem piece_longest {m : Mode} (hword : ix.Word m x y) (hxy : x < y) (hy : ix.CodeGap y)
    (htrivia : ix.Trivia y p) (hp : ix.CodeGap p) :
    ∃ s, ix.pieceBefore? m p 0 = some ⟨.ident, s, y⟩ ∧ ix.Word m s y ∧ s < y ∧ ix.Stops m 0 s := by
  obtain ⟨-, hlong, hstops⟩ := hix.identRun_spec (m := m) ix.text.isBoundary_zero hy (Nat.zero_le y)
  have hlt : ix.identRun m 0 y < y := by
    rw [hword.identRun (Nat.zero_le x)]
    exact Nat.lt_of_le_of_lt (ix.identRun_le m 0 x) hxy
  exact ⟨_, hix.pieceBefore_eq_some hp (.ident hlong hlt (Nat.zero_le _) hstops htrivia) (by simp),
    hlong, hlt, hstops⟩

/-- A word that is read back, where no word is cut. -/
theorem wordAt_of_last {u : Piece} {limit s : Nat} (hlast : ix.Last .normal 0 s (some u))
    (hkind : u.kind = .ident) (hs : ix.Stops .normal 0 s) (hle : s ≤ limit)
    (hslice : ix.text.slice u.start u.stop = w) (hname : ∀ c ∈ w, isNameChar c = true) :
    ix.WordAt limit u.start u.stop w := by
  cases hlast with
  | group | punct | literal => simp at hkind
  | @ident x y word nonempty above stops trivia =>
    obtain ⟨cs, hchars⟩ := word.codeChars
    obtain ⟨c, hc, -⟩ := word.first nonempty
    rw [hchars.slice (hix.codeGap_of_code hc)] at hslice
    subst hslice
    have hys := trivia.le hix
    refine ⟨hchars, ?_, hname, fun a d hd hnext => ?_, fun d hd hlt => ?_, Nat.le_trans hys hle⟩
    · rintro rfl
      cases hchars
      omega
    · have hpos : x ≠ 0 := by
        have := ix.text.lt_next a
        simp only at hnext
        omega
      exact hix.not_isNameChar_of_ident (stops.resolve_left hpos a d hnext hd)
    · refine hix.not_isNameChar_of_ident (m := .normal) ?_
      rcases Nat.lt_or_eq_of_le hys with hlt | rfl
      · exact hix.not_ident_of_trivia trivia hlt d hd
      · obtain ⟨a, f, hf, hident, hnext, -⟩ := word.last nonempty
        have hnot := hs.resolve_left (by omega) a f hnext hf
        simp [hident] at hnot

end IsJava

namespace MemberStart

/-- No word runs over the start of a member. -/
theorem word_le {m : Mode} (hix : ix.IsJava) (hstart : ix.MemberStart h) (hgap : ix.CodeGap h)
    (hword : ix.Word m x y) (hlt : x < h) : y ≤ h := by
  induction hword with
  | nil => exact Nat.le_of_lt hlt
  | @char p q c char ident rest ih =>
    rcases Nat.lt_or_eq_of_le (Text.next_le_of_isBoundary char.char hlt hgap.boundary) with hlt' | heq
    · exact ih hlt'
    · have hnot := (hstart.stops hix (m := m)).resolve_left (by omega) p c heq char
      simp [ident] at hnot

/-- A word that is read back from a member does not begin before it. -/
theorem le_of_last {u : Piece} {m : Mode} {s : Nat} (hix : ix.IsJava) (hstart : ix.MemberStart h)
    (hc : ix.CodeChar h c) (solid : isBlank c = false) (hlast : ix.Last m 0 s (some u))
    (hkind : u.kind = .ident) (hhs : h ≤ s) : h ≤ u.start := by
  have hgap := hix.codeGap_of_code hc
  refine Nat.le_of_not_lt fun hlt => ?_
  cases hlast with
  | group | punct | literal => simp at hkind
  | @ident x y word nonempty above stops trivia =>
    have hy := hstart.word_le hix hgap word hlt
    obtain rfl := Nat.le_antisymm hhs (hix.le_of_trivia trivia hc solid hy)
    have hpiece := hix.pieceBefore_eq_some hgap (.ident word nonempty above stops trivia) (by simp)
    rcases hstart.piece hix hgap hpiece with hblock | ⟨d, hpunct⟩
    · simp at hblock
    · simp at hpunct

end MemberStart

end Lexed

end BraceScopes
