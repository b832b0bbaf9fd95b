import BraceScopes.Lex.Event
/-!
Comments and literals of Java, told apart by their first character.
-/
namespace BraceScopes

namespace Rules

theorem java_lineComment : java.lineComment? = some ['/', '/'] := by decide

theorem java_blockComment : java.blockComment? = some (['/', '*'], ['*', '/']) := by decide

theorem java_textBlock : java.textBlock? = some ['"', '"', '"'] := by decide

theorem java_isQuote {c : Char} : java.isQuote c = true ↔ c = '"' ∨ c = '\'' := by
  simp [isQuote, java]

end Rules

namespace Lex

variable {t : Text} {p : Nat} {c : Char}

theorem lineComment_java (t : Text) (p : Nat) : lineComment? t .java p =
    if t.startsWith p ['/', '/'] then some ⟨.comment, p, t.lineEnd p, true⟩ else none := by
  simp only [lineComment?, Rules.java_lineComment]

/-- The region from `p` to a delimiter of `w` bytes, or to the end of the text. -/
def upTo (t : Text) (kind : RegionKind) (p w : Nat) (found : Option Nat) : Region :=
  match found with
  | some q => ⟨kind, p, q + w, true⟩
  | none => ⟨kind, p, t.size, false⟩

theorem blockComment_java (t : Text) (p : Nat) : blockComment? t .java p =
    if t.startsWith p ['/', '*'] then some (upTo t .comment p 2 (t.find? ['*', '/'] (p + 2)))
    else none := by
  simp only [blockComment?, Rules.java_blockComment]
  change (if _ then match t.find? ['*', '/'] (p + 2) with | some q => _ | none => _ else _) = _
  cases t.find? ['*', '/'] (p + 2) <;> rfl

theorem textBlock_java (t : Text) (p : Nat) : textBlock? t .java p =
    if t.startsWith p ['"', '"', '"'] then
      some (upTo t .string p 3 (closing? t '\\' ['"', '"', '"'] false (p + 3)))
    else none := by
  simp only [textBlock?, Rules.java_textBlock]
  change (if _ then match closing? t '\\' ['"', '"', '"'] false (p + 3) with
    | some q => _ | none => _ else _) = _
  cases closing? t '\\' ['"', '"', '"'] false (p + 3) <;> rfl

theorem quoted_java (h : t.charAt p = some c) (hc : c = '"' ∨ c = '\'') : quoted? t .java p =
    match closing? t '\\' [c] true (p + 1) with
    | some q => some ⟨.string, p, q + 1, true⟩
    | none => some ⟨.string, p, t.lineEnd (p + 1), t.lineEnd (p + 1) < t.size⟩ := by
  have width : c.utf8Size = 1 := by rcases hc with rfl | rfl <;> rfl
  simp only [quoted?, h, Rules.java_isQuote.mpr hc, ↓reduceIte, width]
  rfl

theorem startsWith_of_ne {d : Char} {w : List Char} (h : t.charAt p ≠ some d) :
    t.startsWith p (d :: w) = false := by
  simp [Text.startsWith, h]

theorem quoted_java_of_ne (hdouble : t.charAt p ≠ some '"') (hsingle : t.charAt p ≠ some '\'') :
    quoted? t .java p = none := by
  unfold quoted?
  split
  next c hc =>
    refine if_neg fun hquote => ?_
    rcases Rules.java_isQuote.mp hquote with rfl | rfl
    · exact hdouble hc
    · exact hsingle hc
  next => rfl

/-- A comment or literal begins with a slash or a quote. -/
theorem regionAt_java_of_ne (hslash : t.charAt p ≠ some '/') (hdouble : t.charAt p ≠ some '"')
    (hsingle : t.charAt p ≠ some '\'') : regionAt? t .java p = none := by
  simp [regionAt?, lineComment_java, blockComment_java, textBlock_java,
    quoted_java_of_ne hdouble hsingle, startsWith_of_ne hslash, startsWith_of_ne hdouble]

theorem regionAt_java_slash (h : t.charAt p = some '/') :
    regionAt? t .java p = (lineComment? t .java p).or (blockComment? t .java p) := by
  have hdouble : t.charAt p ≠ some '"' := by rw [h]; decide
  have hsingle : t.charAt p ≠ some '\'' := by rw [h]; decide
  simp [regionAt?, textBlock_java, quoted_java_of_ne hdouble hsingle, startsWith_of_ne hdouble]

theorem regionAt_java_quote (h : t.charAt p = some c) (hc : c = '"' ∨ c = '\'')
    (hb : t.startsWith p ['"', '"', '"'] = false) : regionAt? t .java p = quoted? t .java p := by
  have hslash : t.charAt p ≠ some '/' := by rw [h]; rcases hc with rfl | rfl <;> decide
  simp [regionAt?, lineComment_java, blockComment_java, textBlock_java, hb, startsWith_of_ne hslash]

theorem regionAt_java_textBlock (hb : t.startsWith p ['"', '"', '"'] = true) :
    regionAt? t .java p = textBlock? t .java p := by
  have hslash : t.charAt p ≠ some '/' := by
    simp only [Text.startsWith, Bool.and_eq_true, beq_iff_eq] at hb
    rw [hb.1]
    decide
  simp [regionAt?, lineComment_java, blockComment_java, textBlock_java, hb, startsWith_of_ne hslash]

end Lex

end BraceScopes
