import BraceScopes.Proofs.Header.Spread
import BraceScopes.Proofs.Scan.Matches
/-!
Words that are searched for among tokens.
-/
namespace BraceScopes

open Header

namespace Lexed

variable {ix : Lexed} {p q e x y limit : Nat} {c : Char} {w : List Char} {ws : List (List Char)}
  {ts us : List Token} {j : Token} {m : Span}

theorem WordAt.not_lt {y' : Nat} {w' : List Char} (h : ix.WordAt limit x y w)
    (h' : ix.WordAt limit x y' w') : ¬ y < y' := by
  intro hlt
  have hle := h'.le
  obtain ⟨c, hc, hcode⟩ := h'.chars.exists_at (h.chars.isBoundary_stop h.nonempty) h.chars.le hlt
  have hname := h'.name c hc
  simp [h.after c hcode (by omega)] at hname

/-- A word that a search finds in code. -/
theorem IsJava.wordAt_of_match (hix : ix.IsJava) (sol : (Pattern.words ws).Solid)
    (hname : ∀ w ∈ ws, ∀ c ∈ w, isNameChar c = true) (h : ix.CodeMatch (.words ws) limit m) :
    ∃ w ∈ ws, ix.WordAt limit m.start m.stop w := by
  obtain ⟨w, hw, hchars⟩ := hix.codeChars_of_match sol h
  obtain ⟨hbefore, hafter⟩ := hix.beside_match sol h
  have hnot : ∀ {c : Char}, isWordChar c = false → isNameChar c = false := fun hc =>
    Bool.eq_false_iff.mpr fun hname => by simp [isWordChar_of_isNameChar hname] at hc
  refine ⟨w, hw, hchars, (sol w hw).1, hname w hw, fun a c hc hnext => ?_, fun c hc hlt => ?_,
    (h.bounds sol).2⟩
  · exact hnot (hbefore a c (hnext ▸ hc.charBefore))
  · exact hnot (hafter c hc.char hlt)

/-- A word of code between characters that belong to no word is found by a search. -/
theorem IsJava.match_of_wordAt (hix : ix.IsJava) (sol : (Pattern.words ws).Solid)
    (hname : ∀ w ∈ ws, ∀ c ∈ w, isNameChar c = true) (hw : w ∈ ws) (h : ix.WordAt limit x y w)
    (hbefore : ix.Breaks x) (hafter : ∀ c, ix.text.charAt y = some c → y < limit → isWordChar c = false) :
    ix.CodeMatch (.words ws) limit ⟨x, y⟩ := by
  have hlt := h.chars.lt h.nonempty
  have hle := h.le
  obtain ⟨d, hd, hcode⟩ := h.chars.first h.nonempty
  obtain ⟨a, e, he, hlast, hnext⟩ := h.chars.last h.nonempty
  have hstart : Pattern.wordBoundary ix.text limit x = true := by
    have hword := isWordChar_of_isNameChar (h.name d hd)
    have hlimit : x < limit := by omega
    cases hb : ix.text.charBefore x with
    | none => simp [Pattern.wordBoundary, hb, hcode.char, hword, hlimit]
    | some b =>
      simp [Pattern.wordBoundary, hb, (hbefore b.1 b.2 hb).1, hcode.char, hword, hlimit]
  have hstop : Pattern.wordBoundary ix.text limit y = true := by
    have hback := hlast.charBefore
    rw [hnext] at hback
    have hnot : (decide (y < limit) && (ix.text.charAt y).any isWordChar) = false := by
      cases hc : ix.text.charAt y with
      | none => simp
      | some c =>
        by_cases hylt : y < limit
        · simp [hafter c hc hylt]
        · simp [hylt]
    simp only [Pattern.wordBoundary, hback, Option.any_some, isWordChar_of_isNameChar (h.name e he), hnot]
    rfl
  obtain ⟨y', hy'⟩ : ∃ y', (Pattern.words ws).matchAt? ix.text limit x = some y' := by
    simp only [Pattern.matchAt?, hstart, ↓reduceIte]
    refine Option.isSome_iff_exists.mp (List.findSome?_isSome_iff.mpr ⟨w, hw, ?_⟩)
    rw [← h.chars.stop_eq]
    simp [h.chars.startsWith, hle, hstop]
  have hmatch : ix.CodeMatch (.words ws) limit ⟨x, y'⟩ := ⟨hy', hcode.isCode⟩
  obtain ⟨w', -, hw'⟩ := hix.wordAt_of_match sol hname hmatch
  obtain rfl : y = y' :=
    Nat.le_antisymm (Nat.le_of_not_lt (hw'.not_lt h)) (Nat.le_of_not_lt (h.not_lt hw'))
  exact hmatch

/-- A word among tokens is found by a search that ends with them. -/
theorem IsJava.match_of_laid (hix : ix.IsJava) (sol : (Pattern.words ws).Solid)
    (hname : ∀ w ∈ ws, ∀ c ∈ w, isNameChar c = true) (hl : ix.Laid p q (ts ++ j :: us))
    (hj : j.text ∈ ws) (hp : ix.Breaks p) :
    ∃ x y n, ix.Laid p x ts ∧ ix.CodeChars x y j.text ∧ ix.CodeChars y n j.gap ∧ ix.Trivia y n ∧
      ix.Laid n q us ∧ ix.Breaks x ∧ ix.CodeMatch (.words ws) q ⟨x, y⟩ := by
  have hword : j.isWord = true := List.all_eq_true.mpr (hname j.text hj)
  obtain ⟨x, hts, hrest⟩ := hl.of_append
  obtain ⟨y, n, htext, hgap, htrivia, hus⟩ := hrest.of_cons
  have hspaced : Spaced (ts ++ [j]) := by
    have hspaced := hl.spaced
    rw [List.append_cons] at hspaced
    exact hspaced.of_append.1
  have hbreaks := hts.breaks hspaced hword hp
  have hafter := hrest.after_word hword htext
  have hle : y ≤ q := Nat.le_trans hgap.le hus.le
  have hat : ix.WordAt q x y j.text := by
    refine ⟨htext, (hrest.valid j (List.mem_cons_self ..)).nonempty, hname j.text hj,
      fun a c hc hnext => ?_, fun c hc hlt => ?_, hle⟩
    · have hback := hc.charBefore
      rw [hnext] at hback
      exact (hbreaks a c hback).not_isNameChar
    · obtain ⟨d, hd, hbreak⟩ := hafter.resolve_left (Nat.ne_of_lt hlt)
      exact hc.unique hd ▸ hbreak.not_isNameChar
  refine ⟨x, y, n, hts, htext, hgap, htrivia, hus, hbreaks,
    hix.match_of_wordAt sol hname hj hat hbreaks fun c hc hlt => ?_⟩
  obtain ⟨d, hd, hbreak⟩ := hafter.resolve_left (Nat.ne_of_lt hlt)
  rw [hd.char] at hc
  cases hc
  exact hbreak.1

/-- Words that are not among some tokens are not found there. -/
theorem IsJava.not_match_of_laid (hix : ix.IsJava) (sol : (Pattern.words ws).Solid)
    (hname : ∀ w ∈ ws, ∀ c ∈ w, isNameChar c = true) (hl : ix.Laid p q ts) (htrivia : ix.Trivia e p)
    (hts : ∀ k ∈ ts, k.isWord = true → k.text ∉ ws) (hle : e ≤ m.start) :
    ¬ ix.CodeMatch (.words ws) q m := by
  intro hmatch
  obtain ⟨w, hw, hword⟩ := hix.wordAt_of_match sol hname hmatch
  have hp := hword.le_of_trivia hix htrivia hle
  have hlt := hword.chars.lt hword.nonempty
  have hq := hword.le
  obtain ⟨k, hk, hisWord, htext⟩ := hl.exists_token hix hword hp (by omega) (Nat.le_refl q) (.inl rfl)
  exact hts k hk hisWord (htext ▸ hw)

end Lexed

end BraceScopes
