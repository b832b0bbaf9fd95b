import BraceScopes.Proofs.Scan.Forward
/-!
White space and comments as they are written. What is written between two tokens of Java code is lexed
as it stands, whatever the text around it is.
-/
namespace BraceScopes

open BraceScopes.Lex

/-- White space and closed comments: a line comment is closed by a line terminator, and a block comment
by the first closing delimiter. -/
inductive Filler : List Char → Prop
  | nil : Filler []
  | blank {c : Char} {cs : List Char} (blank : isBlank c = true) (rest : Filler cs) : Filler (c :: cs)
  | line {w cs : List Char} {c : Char} (body : ∀ d ∈ w, d ≠ '\n' ∧ d ≠ '\r')
      (terminator : c = '\n' ∨ c = '\r') (rest : Filler (c :: cs)) : Filler ('/' :: '/' :: w ++ c :: cs)
  | block {w cs : List Char} (body : ¬ ['*', '/'] <:+: w) (rest : Filler cs) :
      Filler ('/' :: '*' :: w ++ '*' :: '/' :: cs)

namespace Text

variable {t : Text} {i : Nat} {c : Char} {u v w : List Char}

/-- A character that begins in a part of a text, and the characters of that part around it. -/
theorem exists_split_of_charAt (h : t.chars = u ++ (w ++ v)) (hi : byteLength u ≤ i)
    (hlt : i < byteLength (u ++ w)) (hc : t.charAt i = some c) :
    ∃ w₁ w₂, w = w₁ ++ c :: w₂ ∧ byteLength (u ++ w₁) = i := by
  induction w generalizing u with
  | nil =>
    rw [List.append_nil] at hlt
    omega
  | cons d w ih =>
    have hd : t.charAt (byteLength u) = some d := charAt_byteLength h
    rcases Nat.lt_or_eq_of_le hi with hgt | rfl
    · have hstep : byteLength (u ++ [d]) = byteLength u + d.utf8Size := byteLength_append u [d]
      have hi' : byteLength (u ++ [d]) ≤ i := by
        refine Nat.le_of_not_lt fun hin => ?_
        rw [charAt_inside hd hgt (by omega)] at hc
        cases hc
      obtain ⟨w₁, w₂, rfl, hw⟩ := ih (u := u ++ [d]) (by simpa using h) hi' (by simpa using hlt)
      exact ⟨d :: w₁, w₂, rfl, by simpa using hw⟩
    · obtain rfl := Option.some.inj (hd.symm.trans hc)
      exact ⟨[], w, rfl, by simp⟩

/-- The end of a line is where its terminator stands. -/
theorem lineEnd_of_append (h : t.chars = u ++ (w ++ c :: v)) (hw : ∀ d ∈ w, d ≠ '\n' ∧ d ≠ '\r')
    (hc : c = '\n' ∨ c = '\r') : t.lineEnd (byteLength u) = byteLength (u ++ w) := by
  have hat : t.charAt (byteLength (u ++ w)) = some c := charAt_byteLength (v := c :: v) (by simpa using h)
  refine (lineEnd_eq_iff (lt_size_of_charAt hat)).mpr ⟨?_, by simpa [endsLine, hat] using hc, ?_⟩
  · rw [byteLength_append]
    exact Nat.le_add_right _ _
  · intro i hi hlt
    refine Bool.eq_false_iff.mpr fun hends => ?_
    have found : ∀ d, t.charAt i = some d → d ≠ '\n' ∧ d ≠ '\r' := by
      intro d hd
      obtain ⟨w₁, w₂, rfl, -⟩ := exists_split_of_charAt h hi hlt hd
      exact hw d (by simp)
    rcases Bool.or_eq_true_iff.mp hends with hd | hd
    · exact (found '\n' (eq_of_beq hd)).1 rfl
    · exact (found '\r' (eq_of_beq hd)).2 rfl

/-- A closing delimiter is found where it stands first. -/
theorem find_of_append (h : t.chars = u ++ (w ++ '*' :: '/' :: v)) (hw : ¬ ['*', '/'] <:+: w) :
    t.find? ['*', '/'] (byteLength u) = some (byteLength (u ++ w)) := by
  have hclose : t.chars = (u ++ w) ++ (['*', '/'] ++ v) := by simpa using h
  have hsize := lt_size_of_charAt (c := '*') (charAt_byteLength hclose)
  have hle : byteLength u ≤ byteLength (u ++ w) := by
    rw [byteLength_append]
    exact Nat.le_add_right _ _
  refine firstFrom_eq_some.mpr ⟨hle, by omega, startsWith_of_append hclose, fun i hi hlt => ?_⟩
  refine Bool.eq_false_iff.mpr fun hstarts => ?_
  have hstar : t.charAt i = some '*' := by
    simp only [startsWith, Bool.and_eq_true, beq_iff_eq] at hstarts
    exact hstarts.1
  obtain ⟨w₁, w₂, rfl, rfl⟩ := exists_split_of_charAt h hi hlt hstar
  have hprefix := prefix_of_startsWith (v := '*' :: w₂ ++ '*' :: '/' :: v) (by simpa using h) hstarts
  cases w₂ with
  | nil => simp at hprefix
  | cons d w₂ =>
    obtain rfl : '/' = d := by simpa using hprefix
    exact hw ⟨w₁, w₂, by simp⟩

end Text

namespace Lexed

variable {ix : Lexed} {p : Nat} {c : Char} {r : Region} {u v w cs : List Char}

namespace IsJava

variable (hix : ix.IsJava)

include hix

/-- A comment or literal that the lexer reads at a gap of code begins there. -/
theorem regionAt_of_codeGap (hp : ix.CodeGap p) (h : regionAt? ix.text .java p = some r) :
    ix.RegionAt p r := by
  have hstart := Lex.regionAt_start h
  have hdelim := delimited_regionAt h
  obtain ⟨c, hc, -⟩ := hdelim.opening
  have hsize : p < ix.text.size := hstart ▸ Text.lt_size_of_charAt hc
  have hsuffix := eventsFrom_suffix hix.codeGap_zero.boundary hp.boundary (Nat.zero_le p) fun x hx => by
    have hnonempty := hix.nonempty_of_mem hx
    have hin := hix.regionAtChar_eq_some.mpr ⟨hx, Nat.le_refl x.start, hnonempty⟩
    have := hix.codeGap_outside hp hin
    omega
  have hmem := hsuffix.subset (mem_eventsFrom hsize (step_of_regionAt h))
  exact ⟨hix.regionAtChar_eq_some.mpr ⟨hmem, Nat.le_of_eq hstart, hstart ▸ hdelim.nonempty⟩, hstart⟩

/-- A character that begins no comment and no literal is code at a gap of code. -/
theorem codeChar_of_append (h : ix.text.chars = u ++ c :: v) (hp : ix.CodeGap (byteLength u))
    (hc : ¬ IsDelimiter c) : ix.CodeChar (byteLength u) c := by
  have hat : ix.text.charAt (byteLength u) = some c := Text.charAt_byteLength h
  refine ⟨hat, Option.eq_none_iff_forall_ne_some.mpr fun r hr => hc ?_⟩
  obtain ⟨d, hd, hdelim⟩ := (hix.delimited hr).opening
  rw [(hix.codeGap_region hp hr).start, hat] at hd
  cases hd
  exact hdelim

theorem codeChars_of_append (h : ix.text.chars = u ++ (cs ++ v)) (hp : ix.CodeGap (byteLength u))
    (hcs : ∀ c ∈ cs, ¬ IsDelimiter c) : ix.CodeChars (byteLength u) (byteLength (u ++ cs)) cs := by
  induction cs generalizing u with
  | nil =>
    rw [List.append_nil]
    exact .nil _
  | cons c cs ih =>
    obtain ⟨hc, hcs⟩ := List.forall_mem_cons.mp hcs
    have hchar := hix.codeChar_of_append h hp hc
    have hnext : ix.text.next (byteLength u) = byteLength (u ++ [c]) := by
      rw [Text.next_of_charAt hchar.char, byteLength_append]
      rfl
    have hrest := ih (u := u ++ [c]) (by simpa using h) (hnext ▸ hix.codeGap_next hchar) hcs
    rw [← hnext, List.append_assoc, List.singleton_append] at hrest
    exact .cons hchar hrest

/-- A line comment ends where its line does. -/
theorem regionAt_line (h : ix.text.chars = u ++ ('/' :: '/' :: w ++ c :: v))
    (hp : ix.CodeGap (byteLength u)) (hw : ∀ d ∈ w, d ≠ '\n' ∧ d ≠ '\r') (hc : c = '\n' ∨ c = '\r') :
    ix.RegionAt (byteLength u) ⟨.comment, byteLength u, byteLength (u ++ '/' :: '/' :: w), true⟩ := by
  refine hix.regionAt_of_codeGap hp ?_
  have hslash : ix.text.charAt (byteLength u) = some '/' := Text.charAt_byteLength h
  have hopens : ix.text.startsWith (byteLength u) ['/', '/'] = true :=
    Text.startsWith_of_append (v := w ++ c :: v) h
  have hend : ix.text.lineEnd (byteLength u) = byteLength (u ++ '/' :: '/' :: w) := by
    refine Text.lineEnd_of_append h ?_ hc
    simpa using hw
  rw [regionAt_java_slash hslash, lineComment_java, if_pos hopens, hend]
  rfl

/-- A block comment ends behind its first closing delimiter. -/
theorem regionAt_block (h : ix.text.chars = u ++ ('/' :: '*' :: w ++ '*' :: '/' :: v))
    (hp : ix.CodeGap (byteLength u)) (hw : ¬ ['*', '/'] <:+: w) :
    ix.RegionAt (byteLength u)
      ⟨.comment, byteLength u, byteLength (u ++ '/' :: '*' :: w ++ ['*', '/']), true⟩ := by
  refine hix.regionAt_of_codeGap hp ?_
  have hslash : ix.text.charAt (byteLength u) = some '/' := Text.charAt_byteLength h
  have hopens : ix.text.startsWith (byteLength u) ['/', '*'] = true :=
    Text.startsWith_of_append (v := w ++ '*' :: '/' :: v) h
  have hline : ix.text.startsWith (byteLength u) ['/', '/'] = false := by
    refine Bool.eq_false_iff.mpr fun hline => ?_
    have := Text.prefix_of_startsWith h hline
    simp at this
  have hopener : byteLength (u ++ ['/', '*']) = byteLength u + 2 := byteLength_append u ['/', '*']
  have hclose : ix.text.find? ['*', '/'] (byteLength u + 2) = some (byteLength (u ++ '/' :: '*' :: w)) := by
    rw [← hopener, Text.find_of_append (u := u ++ ['/', '*']) (by simpa using h) hw]
    simp
  rw [regionAt_java_slash hslash, lineComment_java, blockComment_java, hline, if_pos hopens, hclose,
    byteLength_append _ ['*', '/']]
  rfl

/-- White space and comments between code are trivia. -/
theorem trivia_of_filler (hcs : Filler cs) (h : ix.text.chars = u ++ (cs ++ v))
    (hp : ix.CodeGap (byteLength u)) :
    ix.Trivia (byteLength u) (byteLength (u ++ cs)) ∧ ix.CodeGap (byteLength (u ++ cs)) := by
  induction hcs generalizing u with
  | nil =>
    rw [List.append_nil]
    exact ⟨.nil _, hp⟩
  | @blank c cs blank rest ih =>
    have hc : ¬ IsDelimiter c := fun hdelim => by simp [hdelim.not_blank] at blank
    have hchar := hix.codeChar_of_append h hp hc
    have hnext : ix.text.next (byteLength u) = byteLength (u ++ [c]) := by
      rw [Text.next_of_charAt hchar.char, byteLength_append]
      rfl
    obtain ⟨htrivia, hgap⟩ := ih (u := u ++ [c]) (by simpa using h) (hnext ▸ hix.codeGap_next hchar)
    rw [List.append_assoc, List.singleton_append] at htrivia hgap
    exact ⟨.blank hchar blank (hnext ▸ htrivia), hgap⟩
  | @line w cs c body terminator rest ih =>
    have hregion := hix.regionAt_line (v := cs ++ v) (by simpa using h) hp body terminator
    obtain ⟨htrivia, hgap⟩ := ih (u := u ++ '/' :: '/' :: w) (by simpa using h)
      (hix.codeGap_of_terminated hregion rfl)
    rw [List.append_assoc] at htrivia hgap
    exact ⟨.comment hregion rfl (by simpa using htrivia), hgap⟩
  | @block w cs body rest ih =>
    have hregion := hix.regionAt_block (v := cs ++ v) (by simpa using h) hp body
    obtain ⟨htrivia, hgap⟩ := ih (u := u ++ '/' :: '*' :: w ++ ['*', '/']) (by simpa using h)
      (hix.codeGap_of_terminated hregion rfl)
    have hsplit : u ++ '/' :: '*' :: w ++ ['*', '/'] ++ cs =
        u ++ ('/' :: '*' :: w ++ '*' :: '/' :: cs) := by simp
    rw [hsplit] at htrivia hgap
    exact ⟨.comment hregion rfl htrivia, hgap⟩

end IsJava

end Lexed

end BraceScopes
