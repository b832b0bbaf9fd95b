import BraceScopes.Proofs.Lex.Chars
import BraceScopes.Proofs.Scan.Retreat
import BraceScopes.Proofs.Text.Squeeze
import BraceScopes.Scan.Declaration
/-!
The text of code without comments: its characters, with white space collapsed. What the walk over the code
writes is said here by the characters alone.
-/
namespace BraceScopes

namespace Lexed

/-- The character at `p`, or a space inside a comment. -/
def plainChar? (ix : Lexed) (p : Nat) : Option Char :=
  if (ix.regionAtChar? p).any (·.kind == .comment) then some ' ' else ix.text.charAt p

/-- The characters of `[p, q)`, with spaces in the place of comments. -/
def plain (ix : Lexed) (p q : Nat) : List Char := (List.range' p (q - p)).filterMap ix.plainChar?

variable {ix : Lexed} {p q k stop : Nat} {c : Char} {cs : List Char} {r : Region} {pending started : Bool}

theorem plain_of_le (h : q ≤ p) : ix.plain p q = [] := by
  rw [plain, Nat.sub_eq_zero_of_le h]
  rfl

theorem plain_append (hp : p ≤ k) (hq : k ≤ q) : ix.plain p q = ix.plain p k ++ ix.plain k q := by
  rw [plain, plain, plain, ← List.filterMap_append, show q - p = k - p + (q - k) by omega,
    ← List.range'_append_1, show p + (k - p) = k by omega]

theorem mem_plain : c ∈ ix.plain p q ↔ ∃ i, p ≤ i ∧ i < q ∧ ix.plainChar? i = some c := by
  simp only [plain, List.mem_filterMap, List.mem_range'_1]
  constructor
  · rintro ⟨i, ⟨hp, hq⟩, hc⟩
    exact ⟨i, hp, by omega, hc⟩
  · rintro ⟨i, hp, hq, hc⟩
    exact ⟨i, ⟨hp, by omega⟩, hc⟩

theorem plainChar?_of_comment (hr : ix.regionAtChar? p = some r) (kind : r.kind = .comment) :
    ix.plainChar? p = some ' ' := by
  simp [plainChar?, hr, kind]

theorem plainChar?_of_not_comment (h : ∀ r, ix.regionAtChar? p = some r → r.kind ≠ .comment) :
    ix.plainChar? p = ix.text.charAt p := by
  rw [plainChar?]
  cases hr : ix.regionAtChar? p with
  | none => rfl
  | some r => simp [h r hr]

namespace IsJava

variable (hix : ix.IsJava)

include hix

/-- A character stands at its first byte, and nothing at the others. -/
theorem plain_next (hc : ix.text.charAt p = some c)
    (h : ∀ r, ix.regionAtChar? p = some r → r.kind ≠ .comment) :
    ix.plain p (ix.text.next p) = [c] := by
  have hfirst : ix.plain p (p + 1) = [c] := by simp [plain, plainChar?_of_not_comment h, hc]
  have hrest : ix.plain (p + 1) (ix.text.next p) = [] := by
    refine List.eq_nil_iff_forall_not_mem.mpr fun d hd => ?_
    obtain ⟨i, hp, hi, hd⟩ := mem_plain.mp hd
    have hinside := Text.isBoundary_inside hc hp hi
    -- A comment that goes on inside the character would have begun before it.
    have hcode : ∀ r, ix.regionAtChar? i = some r → r.kind ≠ .comment := by
      intro r hr
      obtain ⟨hstart, hstop⟩ := of_regionAtChar hr
      have hstart : r.start ≤ p := by
        refine Nat.le_of_not_lt fun hlt => ?_
        have hnext := Text.next_le_of_isBoundary hc hlt (hix.extent hr).isBoundary_start
        omega
      exact h r (hix.regionAtChar_inside hr hstart (by omega))
    rw [plainChar?_of_not_comment hcode] at hd
    rw [Text.isBoundary_of_charAt hd] at hinside
    cases hinside
  rw [plain_append (Nat.le_succ p) (ix.text.lt_next p), hfirst, hrest, List.append_nil]

theorem plain_cons (hc : ix.text.charAt p = some c)
    (h : ∀ r, ix.regionAtChar? p = some r → r.kind ≠ .comment) (hle : ix.text.next p ≤ q) :
    ix.plain p q = c :: ix.plain (ix.text.next p) q := by
  rw [plain_append (Nat.le_of_lt (ix.text.lt_next p)) hle, hix.plain_next hc h]
  rfl

theorem plain_code (hc : ix.CodeChar p c) (hle : ix.text.next p ≤ q) :
    ix.plain p q = c :: ix.plain (ix.text.next p) q :=
  hix.plain_cons hc.char (by simp [hc.code]) hle

theorem plain_codeChars (h : ix.CodeChars p q cs) : ix.plain p q = cs := by
  induction h with
  | nil p => exact plain_of_le (Nat.le_refl p)
  | cons char rest ih => rw [hix.plain_code char rest.le, ih]

/-- Spaces stand in the place of a comment. -/
theorem plain_comment (hr : ix.regionAtChar? p = some r) (kind : r.kind = .comment) (hq : q ≤ r.stop) :
    ∀ c ∈ ix.plain p q, isBlank c = true := by
  intro c hc
  obtain ⟨i, hp, hi, hc⟩ := mem_plain.mp hc
  have hin := hix.regionAtChar_inside hr (Nat.le_trans (of_regionAtChar hr).1 hp) (Nat.lt_of_lt_of_le hi hq)
  rw [plainChar?_of_comment hin kind] at hc
  cases hc
  decide

/-- Trivia is white space. -/
theorem plain_trivia (h : ix.Trivia p q) : ∀ c ∈ ix.plain p q, isBlank c = true := by
  induction h with
  | nil p => simp [plain_of_le]
  | @blank p q c char blank rest ih =>
    rw [hix.plain_code char (rest.le hix)]
    exact List.forall_mem_cons.mpr ⟨blank, ih⟩
  | @comment p q r region kind rest ih =>
    have hle := Nat.le_of_lt (hix.nonempty region.region)
    rw [region.start] at hle
    rw [plain_append hle (rest.le hix)]
    exact List.forall_mem_append.mpr ⟨hix.plain_comment region.region kind (Nat.le_refl _), ih⟩

/-- The walk over a stretch of text squeezes its plain characters. -/
theorem normalizedFrom_eq (hp : ix.text.isBoundary p = true) (hstop : ix.text.isBoundary stop = true) :
    ix.normalizedFrom stop pending started p = squeezeFrom pending started (ix.plain p stop) := by
  have step : ∀ {p : Nat} {c : Char}, p < stop → ix.text.charAt p = some c →
      (ix.regionAtChar? p).filter (·.kind == .comment) = none →
      ix.plain p stop = c :: ix.plain (ix.text.next p) stop := by
    intro p c hlt hc hr
    refine hix.plain_cons hc (fun r hr' => ?_) (Text.next_le_of_isBoundary hc hlt hstop)
    simpa [hr'] using hr
  have hsize := Text.isBoundary_le_size hstop
  fun_induction normalizedFrom ix stop pending started p with
  | case1 pending started p hlt r hr ih =>
    obtain ⟨hr, hkind⟩ := Option.filter_eq_some_iff.mp hr
    have hkind : r.kind = .comment := by simpa using hkind
    have hpr := (of_regionAtChar hr).2
    -- The comment may end after the stretch.
    have hcut : ix.plain p stop = ix.plain p (min r.stop stop) ++ ix.plain r.stop stop := by
      rcases Nat.le_total r.stop stop with hle | hle
      · rw [Nat.min_eq_left hle]
        exact plain_append (Nat.le_of_lt hpr) hle
      · rw [Nat.min_eq_right hle, plain_of_le hle, List.append_nil]
    have hne : ix.plain p (min r.stop stop) ≠ [] := by
      have hspace := plainChar?_of_comment hr hkind
      exact List.ne_nil_of_mem (mem_plain.mpr ⟨p, Nat.le_refl p, by omega, hspace⟩)
    rw [ih (hix.extent hr).isBoundary_stop, hcut,
      squeezeFrom_blanks _ _ _ hne (hix.plain_comment hr hkind (Nat.min_le_left ..))]
  | case2 pending started p hlt hr hnone =>
    obtain ⟨c, hc⟩ := Text.exists_charAt hp (Nat.lt_of_lt_of_le hlt hsize)
    rw [hnone] at hc
    cases hc
  | case3 pending started p hlt hr c hc hblank ih =>
    rw [step hlt hc hr, squeezeFrom, if_pos hblank, ih (Text.isBoundary_next hc)]
  | case4 pending started p hlt hr c hc hblank howed ih =>
    rw [step hlt hc hr, squeezeFrom, if_neg hblank, if_pos howed, ih (Text.isBoundary_next hc)]
  | case5 pending started p hlt hr c hc hblank howed ih =>
    rw [step hlt hc hr, squeezeFrom, if_neg hblank, if_neg howed, ih (Text.isBoundary_next hc)]
  | case6 pending started p hlt => rw [plain_of_le (Nat.le_of_not_lt hlt), squeezeFrom]

/-- The text of a stretch is its plain characters, with white space collapsed. -/
theorem normalized_eq_squeeze (hp : ix.text.isBoundary p = true) (hq : ix.text.isBoundary q = true) :
    ix.normalized p q = squeeze (ix.plain p q) := by
  rw [normalized, hix.normalizedFrom_eq hp hq, squeezeFrom_eq_squeeze]

end IsJava

end Lexed

end BraceScopes
