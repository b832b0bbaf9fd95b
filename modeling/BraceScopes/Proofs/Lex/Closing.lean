import BraceScopes.Proofs.Lex.Order
import BraceScopes.Proofs.Text.Agree
/-!
The search for the delimiter that closes a literal. It reads no further than the delimiter, and steps
over escaped characters, line terminators among them.
-/
namespace BraceScopes

namespace Lex

variable {s t : Text} {P p q : Nat}

theorem of_closing {escape : Char} {delim : List Char} {oneLine : Bool}
    (h : closing? t escape delim oneLine p = some q) : p ≤ q ∧ t.startsWith q delim = true := by
  fun_induction closing? t escape delim oneLine p with
  | case1 p hc => simp at h
  | case2 p hc ih =>
    have := ih h
    have := t.lt_next p
    have := t.lt_next (t.next p)
    exact ⟨by omega, (ih h).2⟩
  | case3 p c hc he hn => simp at h
  | case4 p c hc he hn hs =>
    cases h
    exact ⟨Nat.le_refl _, hs⟩
  | case5 p c hc he hn hs ih =>
    have := ih h
    have := t.lt_next p
    exact ⟨by omega, (ih h).2⟩

/-- A delimiter that closes a literal where the texts agree closes it in both. -/
theorem closing_congr (h : Text.AgreeBelow P s t) {escape : Char} {delim : List Char} {oneLine : Bool}
    (hd : delim ≠ []) (hq : closing? s escape delim oneLine p = some q)
    (hP : q + byteLength delim ≤ P) : closing? t escape delim oneLine p = some q := by
  have hlen : 0 < byteLength delim := by
    cases delim with
    | nil => exact absurd rfl hd
    | cons c w => have := c.utf8Size_pos; simp only [byteLength]; omega
  fun_induction closing? s escape delim oneLine p with
  | case1 p hc => simp at hq
  | case2 p hc ih =>
    have hle := (of_closing hq).1
    have hp := s.lt_next p
    have hp' := s.lt_next (s.next p)
    have hnext := h.next (q := p) (by omega)
    have hnext' := h.next (q := s.next p) (by omega)
    rw [closing?, ← h p (by omega), hc]
    simp only [↓reduceIte]
    rw [← hnext, ← hnext']
    exact ih hq
  | case3 p c hc he hn => simp at hq
  | case4 p c hc he hn hs =>
    cases hq
    rw [closing?, ← h q (by omega), hc]
    rw [h.startsWith hP] at hs
    simp only [he, hn, hs, ↓reduceIte]
    simp
  | case5 p c hc he hn hs ih =>
    have hle := (of_closing hq).1
    have hp := s.lt_next p
    have hs' : ¬ t.startsWith p delim = true := by
      rw [← h.startsWith (by omega)]
      exact hs
    rw [closing?, ← h p (by omega), hc]
    simp only [he, hn, hs', ↓reduceIte]
    rw [← h.next (by omega)]
    exact ih hq

/-- A line that ends before the delimiter of a literal ends there escaped. -/
theorem closing_escaped {delim : List Char} (h : closing? t '\\' delim true p = some q) {e : Nat}
    (hp : p ≤ e) (hq : e < q) (he : t.endsLine e = true) : t.charAt (e - 1) = some '\\' := by
  have inside : ∀ {k}, k < e → e < t.next k → False := by
    intro k hk hlt
    cases hc : t.charAt k with
    | none => simp only [Text.next, hc, Option.elim_none] at hlt; omega
    | some c =>
      simp only [Text.next, hc, Option.elim_some] at hlt
      simp [Text.endsLine, Text.charAt_inside hc hk hlt] at he
  fun_induction closing? t '\\' delim true p with
  | case1 p hc => simp at h
  | case2 p hc ih =>
    have hnext : t.next p = p + 1 := by simp [Text.next, hc]; rfl
    rw [hnext] at h ih
    rcases Nat.lt_or_ge e (t.next (p + 1)) with hlt | hge
    · have hne : e ≠ p := by
        rintro rfl
        simp [Text.endsLine, hc] at he
      obtain rfl : e = p + 1 := by
        rcases Nat.lt_or_eq_of_le (show p + 1 ≤ e by omega) with hlt' | heq
        · exact (inside hlt' hlt).elim
        · exact heq.symm
      exact hc
    · exact ih h hge
  | case3 p c hc hesc hn => simp at h
  | case4 p c hc hesc hn hd =>
    cases h
    omega
  | case5 p c hc hesc hn hd ih =>
    have hne : e ≠ p := by
      rintro rfl
      simp_all [Text.endsLine]
    rcases Nat.lt_or_ge e (t.next p) with hlt | hge
    · exact (inside (by omega) hlt).elim
    · exact ih h hge

end Lex

end BraceScopes
