import BraceScopes.Proofs.Lex.Code
import BraceScopes.Proofs.Text.Classes
/-!
Stretches of Java code, character by character.
-/
namespace BraceScopes

open BraceScopes.Lex

theorem IsDelimiter.not_isWordChar {c : Char} (h : IsDelimiter c) : isWordChar c = false := by
  rcases h with rfl | rfl | rfl <;> rfl

namespace Lexed

/-- The characters `cs` of code stand from `p` to `q`. -/
inductive CodeChars (ix : Lexed) : Nat → Nat → List Char → Prop
  | nil (p : Nat) : CodeChars ix p p []
  | cons {p q : Nat} {c : Char} {cs : List Char} (char : ix.CodeChar p c)
      (rest : CodeChars ix (ix.text.next p) q cs) : CodeChars ix p q (c :: cs)

variable {ix : Lexed} {p q m : Nat} {c : Char} {cs ds : List Char}

namespace CodeChars

theorem of_append (h : ix.CodeChars p q (cs ++ ds)) :
    ∃ m, ix.CodeChars p m cs ∧ ix.CodeChars m q ds := by
  induction cs generalizing p with
  | nil => exact ⟨p, .nil p, h⟩
  | cons c cs ih =>
    cases h with
    | cons char rest =>
      obtain ⟨m, hcs, hds⟩ := ih rest
      exact ⟨m, .cons char hcs, hds⟩

theorem single (h : ix.CodeChars p q [c]) : ix.CodeChar p c ∧ q = ix.text.next p := by
  cases h with
  | cons char rest =>
    cases rest
    exact ⟨char, rfl⟩

theorem stop_eq (h : ix.CodeChars p q cs) : q = p + byteLength cs := by
  induction h with
  | nil => rfl
  | cons char rest ih => rw [ih, byteLength, Text.next_of_charAt char.char, Nat.add_assoc]

theorem le (h : ix.CodeChars p q cs) : p ≤ q := by
  have := h.stop_eq
  omega

theorem lt (h : ix.CodeChars p q cs) (hne : cs ≠ []) : p < q := by
  cases h with
  | nil => exact absurd rfl hne
  | cons char rest =>
    have := ix.text.lt_next p
    have := rest.le
    omega

theorem startsWith (h : ix.CodeChars p q cs) : ix.text.startsWith p cs = true := by
  induction h with
  | nil => rfl
  | cons char rest ih =>
    rw [Text.startsWith, char.char, ← Text.next_of_charAt char.char, ih]
    simp

theorem slice (h : ix.CodeChars p q cs) (hp : ix.CodeGap p) : ix.text.slice p q = cs := by
  rw [h.stop_eq]
  exact Text.slice_of_startsWith hp.boundary h.startsWith

theorem first (h : ix.CodeChars p q cs) (hne : cs ≠ []) : ∃ c, c ∈ cs ∧ ix.CodeChar p c := by
  cases h with
  | nil => exact absurd rfl hne
  | cons char rest => exact ⟨_, List.mem_cons_self .., char⟩

/-- The last character. -/
theorem last (h : ix.CodeChars p q cs) (hne : cs ≠ []) :
    ∃ a c, c ∈ cs ∧ ix.CodeChar a c ∧ ix.text.next a = q := by
  induction h with
  | nil => exact absurd rfl hne
  | @cons p q c cs char rest ih =>
    cases cs with
    | nil =>
      cases rest
      exact ⟨p, c, List.mem_singleton_self c, char, rfl⟩
    | cons d cs =>
      obtain ⟨a, b, hb, hcode, hnext⟩ := ih (List.cons_ne_nil d cs)
      exact ⟨a, b, List.mem_cons_of_mem c hb, hcode, hnext⟩

theorem isBoundary_stop (h : ix.CodeChars p q cs) (hne : cs ≠ []) : ix.text.isBoundary q = true := by
  obtain ⟨a, c, -, hc, rfl⟩ := h.last hne
  exact Text.isBoundary_next hc.char

theorem unique (h : ix.CodeChars p q cs) (h' : ix.CodeChars p q ds) : cs = ds := by
  induction h generalizing ds with
  | nil p =>
    cases h' with
    | nil => rfl
    | cons char rest =>
      have := rest.le
      have := ix.text.lt_next p
      omega
  | @cons p q c cs char rest ih =>
    cases h' with
    | nil =>
      have := rest.le
      have := ix.text.lt_next p
      omega
    | cons char' rest' => rw [char.unique char', ih rest']

/-- Code may be cut between two characters. -/
theorem cut {x : Nat} (h : ix.CodeChars p q cs) (hx : ix.text.isBoundary x = true) (hpx : p ≤ x)
    (hxq : x ≤ q) : ∃ ds es, cs = ds ++ es ∧ ix.CodeChars p x ds ∧ ix.CodeChars x q es := by
  induction h with
  | nil p =>
    obtain rfl := Nat.le_antisymm hpx hxq
    exact ⟨[], [], rfl, .nil p, .nil p⟩
  | @cons p q c cs char rest ih =>
    rcases Nat.lt_or_eq_of_le hpx with hlt | rfl
    · obtain ⟨ds, es, rfl, hds, hes⟩ := ih (Text.next_le_of_isBoundary char.char hlt hx) hxq
      exact ⟨c :: ds, es, rfl, .cons char hds, hes⟩
    · exact ⟨[], c :: cs, rfl, .nil p, .cons char rest⟩

theorem exists_at {x : Nat} (h : ix.CodeChars p q cs) (hx : ix.text.isBoundary x = true) (hpx : p ≤ x)
    (hxq : x < q) : ∃ c ∈ cs, ix.CodeChar x c := by
  obtain ⟨ds, es, rfl, -, hes⟩ := h.cut hx hpx (Nat.le_of_lt hxq)
  obtain ⟨c, hmem, hc⟩ := hes.first fun hnil => by
    have := hes.stop_eq
    simp only [hnil, byteLength] at this
    omega
  exact ⟨c, List.mem_append_right _ hmem, hc⟩

theorem exists_before {x : Nat} (h : ix.CodeChars p q cs) (hx : ix.text.isBoundary x = true)
    (hpx : p < x) (hxq : x ≤ q) : ∃ a, ∃ c ∈ cs, ix.CodeChar a c ∧ ix.text.next a = x := by
  obtain ⟨ds, es, rfl, hds, -⟩ := h.cut hx (Nat.le_of_lt hpx) hxq
  obtain ⟨a, c, hmem, hc, hnext⟩ := hds.last fun hnil => by
    have := hds.stop_eq
    simp only [hnil, byteLength] at this
    omega
  exact ⟨a, c, List.mem_append_left _ hmem, hc, hnext⟩

end CodeChars

theorem IsJava.codeGap_zero (hix : ix.IsJava) : ix.CodeGap 0 := by
  refine ⟨ix.text.isBoundary_zero, Option.eq_none_iff_forall_ne_some.mpr fun r hr => ?_⟩
  have := (hix.of_regionAtGap hr).1
  omega

theorem IsJava.codeGap_codeChars (hix : ix.IsJava) (h : ix.CodeChars p q cs) (hp : ix.CodeGap p) :
    ix.CodeGap q := by
  induction h with
  | nil => exact hp
  | cons char rest ih => exact ih (hix.codeGap_next char)

/-- No comment or literal begins with a word character, so a word that begins in code is code. -/
theorem IsJava.codeChars_of_startsWith (hix : ix.IsJava) (hp : ix.CodeGap p)
    (hword : ∀ c ∈ cs, isWordChar c = true) (h : ix.text.startsWith p cs = true) :
    ix.CodeChars p (p + byteLength cs) cs := by
  induction cs generalizing p with
  | nil => exact .nil p
  | cons c cs ih =>
    obtain ⟨hc, hcs⟩ := List.forall_mem_cons.mp hword
    simp only [Text.startsWith, Bool.and_eq_true, beq_iff_eq] at h
    have hcode : ix.CodeChar p c := by
      refine ⟨h.1, Option.eq_none_iff_forall_ne_some.mpr fun r hr => ?_⟩
      obtain ⟨d, hd, hdelim⟩ := (hix.delimited hr).opening
      rw [(hix.codeGap_region hp hr).start, h.1] at hd
      cases hd
      simp [hdelim.not_isWordChar] at hc
    have rest := ih (hix.codeGap_next hcode) hcs (by rw [Text.next_of_charAt h.1]; exact h.2)
    rw [Text.next_of_charAt h.1, Nat.add_assoc] at rest
    exact .cons hcode (by rw [Text.next_of_charAt h.1]; exact rest)

/-- Code goes on up to a character that begins a comment or a literal. -/
theorem IsJava.isCode_of_no_delimiter {i : Nat} (hix : ix.IsJava) (hcode : ix.isCode p = true)
    (hp : p ≤ i) (hnone : ∀ j c, p < j → j ≤ i → ix.text.charAt j = some c → ¬ IsDelimiter c) :
    ix.isCode i = true := by
  rw [Lexed.isCode, Option.isNone_iff_eq_none]
  refine Option.eq_none_iff_forall_ne_some.mpr fun r hr => ?_
  obtain ⟨hmem, hstart, hstop⟩ := hix.regionAtChar_eq_some.mp hr
  rcases Nat.lt_or_ge p r.start with hlt | hge
  · obtain ⟨c, hc, hdelim⟩ := (hix.delimited hr).opening
    exact hnone r.start c hlt hstart hc hdelim
  · rw [Lexed.isCode, hix.regionAtChar_eq_some.mpr ⟨hmem, hge, by omega⟩] at hcode
    cases hcode

end Lexed

end BraceScopes
