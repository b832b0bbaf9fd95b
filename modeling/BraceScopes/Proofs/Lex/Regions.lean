import BraceScopes.Proofs.Lex.Closing
import BraceScopes.Proofs.Lex.Java
import BraceScopes.Proofs.Text.Boundary
/-!
The ends of comments and literals of Java. Each begins with a slash or a quote, and ends with one
unless the line or the text ends there.
-/
namespace BraceScopes

/-- The characters that comments and literals begin and end with. -/
def IsDelimiter (c : Char) : Prop := c = '/' ∨ c = '"' ∨ c = '\''

theorem IsDelimiter.utf8Size {c : Char} (h : IsDelimiter c) : c.utf8Size = 1 := by
  rcases h with rfl | rfl | rfl <;> rfl

namespace Text

variable {t : Text} {p : Nat}

theorem le_lineEnd (h : p ≤ t.size) : p ≤ t.lineEnd p := by
  rcases Nat.lt_or_eq_of_le (t.lineEnd_le p) with hlt | heq
  · exact ((lineEnd_eq_iff hlt).mp rfl).1
  · omega

theorem lineEnd_cases (t : Text) (p : Nat) :
    t.lineEnd p = t.size ∨ t.lineEnd p < t.size ∧ t.endsLine (t.lineEnd p) = true := by
  rcases Nat.lt_or_eq_of_le (t.lineEnd_le p) with hlt | heq
  · exact .inr ⟨hlt, ((lineEnd_eq_iff hlt).mp rfl).2.1⟩
  · exact .inl heq

end Text

namespace Lex

variable {t : Text} {p q : Nat} {x : Region}

/-- What is known about the ends of a region of a text. -/
structure Delimited (t : Text) (x : Region) : Prop where
  opening : ∃ c, t.charAt x.start = some c ∧ IsDelimiter c
  nonempty : x.start < x.stop
  closing : x.stop = t.size ∨ t.endsLine x.stop = true ∨
    ∃ c, t.charAt (x.stop - 1) = some c ∧ IsDelimiter c
  unterminated : x.terminated = false → x.stop = t.size

theorem delimited_lineComment (h : t.charAt p = some '/') :
    Delimited t ⟨.comment, p, t.lineEnd p, true⟩ := by
  have hsize := Text.lt_size_of_charAt h
  have hle := Text.le_lineEnd (t := t) (p := p) (Nat.le_of_lt hsize)
  have hends := Text.lineEnd_cases t p
  refine ⟨⟨_, h, .inl rfl⟩, ?_, ?_, by simp⟩
  · refine Nat.lt_of_le_of_ne hle fun heq => ?_
    rcases hends with hend | ⟨-, hend⟩
    · simp only at heq
      omega
    · simp only at heq
      rw [← heq] at hend
      simp [Text.endsLine, h] at hend
  · rcases hends with hend | ⟨-, hend⟩
    · exact .inl hend
    · exact .inr (.inl hend)

theorem delimited_upTo {k : RegionKind} {c d : Char} {w : List Char} {found : Option Nat}
    (hc : t.charAt p = some c) (hdc : IsDelimiter c) (hd : IsDelimiter d) {n : Nat}
    (hlast : ∀ q, t.startsWith q w = true → t.charAt (q + n - 1) = some d)
    (hpos : 0 < n) (hfound : ∀ q, found = some q → p ≤ q ∧ t.startsWith q w = true) :
    Delimited t (upTo t k p n found) := by
  have hsize := Text.lt_size_of_charAt hc
  cases found with
  | none => exact ⟨⟨c, hc, hdc⟩, hsize, .inl rfl, fun _ => rfl⟩
  | some q =>
    obtain ⟨hle, hstarts⟩ := hfound q rfl
    exact ⟨⟨c, hc, hdc⟩, show p < q + n by omega, .inr (.inr ⟨d, hlast q hstarts, hd⟩), by simp [upTo]⟩

theorem delimited_blockComment (h : t.charAt p = some '/') :
    Delimited t (upTo t .comment p 2 (t.find? ['*', '/'] (p + 2))) := by
  refine delimited_upTo (w := ['*', '/']) h (.inl rfl) (.inl rfl) (fun q hq => ?_) (by omega)
    fun q hq => ?_
  · simp only [Text.startsWith, Bool.and_eq_true, beq_iff_eq] at hq
    exact hq.2.1
  · obtain ⟨hle, -, hstarts, -⟩ := Text.firstFrom_eq_some.mp hq
    exact ⟨by omega, hstarts⟩

theorem delimited_textBlock (h : t.charAt p = some '"') :
    Delimited t (upTo t .string p 3 (closing? t '\\' ['"', '"', '"'] false (p + 3))) := by
  refine delimited_upTo (w := ['"', '"', '"']) h (.inr (.inl rfl)) (.inr (.inl rfl))
    (fun q hq => ?_) (by omega) fun q hq => ?_
  · simp only [Text.startsWith, Bool.and_eq_true, beq_iff_eq] at hq
    exact hq.2.2.1
  · obtain ⟨hle, hstarts⟩ := of_closing hq
    exact ⟨by omega, hstarts⟩

theorem delimited_quoted {c : Char} (h : t.charAt p = some c) (hc : c = '"' ∨ c = '\'')
    (hx : quoted? t .java p = some x) : Delimited t x := by
  have hdelim : IsDelimiter c := .inr hc
  have hsize := Text.lt_size_of_charAt h
  rw [quoted_java h hc] at hx
  split at hx
  next q hq =>
    cases hx
    obtain ⟨hle, hstarts⟩ := of_closing hq
    simp only [Text.startsWith, Bool.and_true, beq_iff_eq] at hstarts
    exact ⟨⟨c, h, hdelim⟩, show p < q + 1 by omega, .inr (.inr ⟨c, hstarts, hdelim⟩), by simp⟩
  next =>
    cases hx
    have hle := Text.le_lineEnd (t := t) (p := p + 1) (by omega)
    refine ⟨⟨c, h, hdelim⟩, show p < t.lineEnd (p + 1) by omega, ?_, ?_⟩
    · rcases Text.lineEnd_cases t (p + 1) with hend | ⟨-, hend⟩
      · exact .inl hend
      · exact .inr (.inl hend)
    · intro hterm
      have hlt : ¬ t.lineEnd (p + 1) < t.size := by simpa using hterm
      have := t.lineEnd_le (p + 1)
      simp only
      omega

theorem delimited_regionAt (h : regionAt? t .java p = some x) : Delimited t x := by
  by_cases hslash : t.charAt p = some '/'
  · rw [regionAt_java_slash hslash, lineComment_java, blockComment_java] at h
    rcases Option.or_eq_some_iff.mp h with hline | ⟨-, hblock⟩
    · obtain ⟨-, rfl⟩ : _ ∧ _ = x := by simpa using hline
      exact delimited_lineComment hslash
    · obtain ⟨-, rfl⟩ : _ ∧ _ = x := by simpa using hblock
      exact delimited_blockComment hslash
  · by_cases hquote : ∃ c, t.charAt p = some c ∧ (c = '"' ∨ c = '\'')
    · obtain ⟨c, hc, hquote⟩ := hquote
      cases hb : t.startsWith p ['"', '"', '"'] with
      | true =>
        rw [regionAt_java_textBlock hb, textBlock_java, if_pos hb] at h
        cases h
        simp only [Text.startsWith, Bool.and_eq_true, beq_iff_eq] at hb
        exact delimited_textBlock hb.1
      | false =>
        rw [regionAt_java_quote hc hquote hb] at h
        exact delimited_quoted hc hquote h
    · have hdouble : t.charAt p ≠ some '"' := fun hc => hquote ⟨_, hc, .inl rfl⟩
      have hsingle : t.charAt p ≠ some '\'' := fun hc => hquote ⟨_, hc, .inr rfl⟩
      rw [regionAt_java_of_ne hslash hdouble hsingle] at h
      simp at h

theorem delimited_of_mem (h : .region x ∈ events t .java) : Delimited t x := by
  have hstep := (step_of_mem h).2
  unfold step at hstep
  split at hstep
  next y hy =>
    cases (Prod.mk.inj hstep).1
    exact delimited_regionAt hy
  next =>
    obtain ⟨he, -⟩ := bracketAt_eq_some (Prod.mk.inj hstep).1
    simp at he

namespace Delimited

theorem isBoundary_start (h : Delimited t x) : t.isBoundary x.start = true := by
  obtain ⟨c, hc, -⟩ := h.opening
  exact Text.isBoundary_of_charAt hc

theorem isBoundary_stop (h : Delimited t x) : t.isBoundary x.stop = true := by
  rcases h.closing with hstop | hends | ⟨c, hc, hdelim⟩
  · simp [Text.isBoundary, hstop]
  · simp only [Text.endsLine, Bool.or_eq_true, beq_iff_eq] at hends
    rcases hends with hc | hc
    · exact Text.isBoundary_of_charAt hc
    · exact Text.isBoundary_of_charAt hc
  · have hlt := h.nonempty
    have hnext : t.next (x.stop - 1) = x.stop := by
      rw [Text.next_of_charAt hc, hdelim.utf8Size]
      omega
    rw [← hnext]
    exact Text.isBoundary_next hc

/-- The last character of a region is a delimiter, unless the line or the text ends with it. -/
theorem last (h : Delimited t x) {a : Nat} {c d : Char} (ha : t.charAt a = some c)
    (hstop : t.next a = x.stop) (hd : t.charAt x.stop = some d) (hne : d ≠ '\n') (hcr : d ≠ '\r') :
    IsDelimiter c := by
  rcases h.closing with hsize | hends | ⟨e, he, hdelim⟩
  · have := Text.lt_size_of_charAt hd
    omega
  · simp [Text.endsLine, hd, hne, hcr] at hends
  · have hlt := h.nonempty
    have hnext : t.next (x.stop - 1) = x.stop := by
      rw [Text.next_of_charAt he, hdelim.utf8Size]
      omega
    have hback := Text.charBefore_next he
    rw [hnext, ← hstop, Text.charBefore_next ha] at hback
    obtain ⟨-, rfl⟩ := Prod.mk.inj (Option.some.inj hback)
    exact hdelim

end Delimited

end Lex

end BraceScopes
