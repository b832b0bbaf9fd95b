import BraceScopes.Proofs.Detect.Cases
import BraceScopes.Proofs.Scan.Matches
/-!
The keyword of a type is found between word boundaries, and these know nothing of the dialect: a dollar
sign, and a number that is no decimal digit, belong to identifiers but to no word. Where one of them
stands beside the keyword, the keyword is a part of an identifier.
-/
namespace BraceScopes

theorem isWordChar_of_isAlphabetic {c : Char} (h : isAlphabetic c = true) : isWordChar c = true := by
  by_cases hascii : c.toNat < 0x80
  · rw [isAlphabetic_of_ascii hascii] at h
    simp [isWordChar_of_ascii hascii, Char.isAlphanum, h]
  · simp [isWordChar, hascii, h]

/-- What belongs to an identifier and to no word. -/
theorem isIdentChar_eq_false_iff {c : Char} (h : isWordChar c = false) :
    Rules.java.isIdentChar c = false ↔ c ≠ '$' ∧ isNumeric c = false := by
  have halpha : isAlphabetic c = false :=
    Bool.eq_false_iff.mpr fun ha => by simp [isWordChar_of_isAlphabetic ha] at h
  have hunder : c ≠ '_' := by
    rintro rfl
    exact absurd h (by decide)
  simp [Rules.isIdentChar, Rules.java, halpha, hunder, and_comm]

/-- The character `c` stands right before or right after a stretch of the text. -/
def Text.Beside (t : Text) (m : Span) (c : Char) : Prop :=
  (∃ a, t.charBefore m.start = some (a, c)) ∨ t.charAt m.stop = some c

namespace Detect

variable {ix : Lexed} {brace : Nat} {k : Span} {c : Char}

theorem typeKeyword_match (h : typeKeyword? ix brace = some k) :
    ix.CodeMatch .typeKeyword brace k :=
  ((Lexed.searchBack_eq_some Pattern.solid_typeKeyword).mp (typeKeyword_eq_some.mp h).1).2.1

/-- Beside the keyword stands no word character. -/
theorem beside_typeKeyword (hix : ix.IsJava) (hbrace : ix.CodeChar brace '{')
    (h : typeKeyword? ix brace = some k) (hc : ix.text.Beside k c) : isWordChar c = false := by
  have hmatch := typeKeyword_match h
  obtain ⟨hbefore, hafter⟩ := hix.beside_match Pattern.solid_typeKeyword hmatch
  rcases hc with ⟨a, hc⟩ | hc
  · exact hbefore a c hc
  · rcases Nat.lt_or_eq_of_le (hmatch.bounds Pattern.solid_typeKeyword).2 with hlt | heq
    · exact hafter c hc hlt
    · obtain rfl : '{' = c := Option.some.inj (hbrace.char.symm.trans (heq ▸ hc))
      decide

end Detect

open Detect

/-- The keyword that makes a brace the body of a type stands in code before the brace, between characters
that belong to no word, and says which kind of type it is. It is a whole identifier exactly if none of
these characters is a dollar sign or a number. -/
theorem typeKeyword_whole_iff (t : Text) (cfg : ScopeConfig) (brace : Nat) (d : Detection)
    (hbrace : (Lexed.ofText t .java).CodeChar brace '{')
    (h : classLike cfg (.ofText t .java) brace = some d) :
    ∃ k, typeKeyword? (.ofText t .java) brace = some k ∧ k.stop ≤ brace ∧
      (∃ w ∈ ["class", "interface", "enum"],
        (Lexed.ofText t .java).CodeChars k.start k.stop w.toList ∧ d.kind = kindOfKeyword w) ∧
      (∀ c, t.Beside k c → isWordChar c = false) ∧
      ((∀ c, t.Beside k c → Rules.java.isIdentChar c = false) ↔
        ∀ c, t.Beside k c → c ≠ '$' ∧ isNumeric c = false) := by
  have hix := Lexed.isJava_ofText t
  obtain ⟨k, arg, hk, -, -, rfl⟩ := classLike_eq_some.mp h
  have hmatch := typeKeyword_match hk
  have beside : ∀ c, t.Beside k c → isWordChar c = false := fun c hc =>
    beside_typeKeyword hix hbrace hk (by rwa [Lexed.ofText_text])
  refine ⟨k, hk, (hmatch.bounds Pattern.solid_typeKeyword).2, ?_, beside,
    forall_congr' fun c => forall_congr' fun hc => isIdentChar_eq_false_iff (beside c hc)⟩
  obtain ⟨cs, hcs, hchars⟩ := hix.codeChars_of_match Pattern.solid_typeKeyword hmatch
  obtain ⟨c, -, hc⟩ := hchars.first (Pattern.solid_typeKeyword cs hcs).1
  have hslice := hchars.slice (hix.codeGap_of_code hc)
  obtain ⟨w, hw, rfl⟩ : ∃ w ∈ ["class", "interface", "enum"], w.toList = cs := List.mem_map.mp hcs
  refine ⟨w, hw, hchars, ?_⟩
  rw [Text.word, hslice, String.ofList_toList]

/-- A class whose keyword continues an identifier that begins with a dollar sign. -/
theorem typeKeyword_not_whole_dollar :
    let t : Text := .ofString "$class A \x7b"
    let ix := Lexed.ofText t .java
    ix.CodeChar 9 '{' ∧ classLike {} ix 9 = some ⟨.classBody, "A", some 0⟩ ∧
      typeKeyword? ix 9 = some ⟨1, 6⟩ ∧ t.Beside ⟨1, 6⟩ '$' ∧
      ¬ ∀ c, t.Beside ⟨1, 6⟩ c → Rules.java.isIdentChar c = false := by
  intro t ix
  have hbrace : ix.CodeChar 9 '{' := ⟨by decide +kernel, by decide +kernel⟩
  have hd : classLike {} ix 9 = some ⟨.classBody, "A", some 0⟩ := by decide +kernel
  have hk : typeKeyword? ix 9 = some ⟨1, 6⟩ := by decide +kernel
  have beside : t.Beside ⟨1, 6⟩ '$' := .inl ⟨0, by decide +kernel⟩
  obtain ⟨k, hk', -, -, -, whole⟩ := typeKeyword_whole_iff t {} 9 _ hbrace hd
  cases hk.symm.trans hk'
  exact ⟨hbrace, hd, hk, beside, fun h => (whole.mp h '$' beside).1 rfl⟩

end BraceScopes
