import BraceScopes.Proofs.Text.Agree
import BraceScopes.Scan.Pattern
/-!
Two texts with a common start. Reading characters, words and matches that end in the common start gives
the same in both.
-/
namespace BraceScopes

namespace Text

/-- The texts have the same first `n` bytes. -/
structure Shares (n : Nat) (s t : Text) : Prop where
  left : n ≤ s.size
  right : n ≤ t.size
  agree : AgreeBelow n s t

theorem AgreeBelow.shares {p : Nat} {s t : Text} {c : Char} (h : AgreeBelow (p + 1) s t)
    (hc : s.charAt p = some c) : Shares p s t := by
  have hs := lt_size_of_charAt hc
  rw [h p (Nat.lt_succ_self p)] at hc
  have ht := lt_size_of_charAt hc
  exact ⟨Nat.le_of_lt hs, Nat.le_of_lt ht, h.mono (Nat.le_succ p)⟩

namespace Shares

variable {n p : Nat} {s t : Text}

theorem isBoundary (h : Shares n s t) (hp : p < n) : s.isBoundary p = t.isBoundary p := by
  have hs : (p == s.size) = false := beq_false_of_ne (by have := h.left; omega)
  have ht : (p == t.size) = false := beq_false_of_ne (by have := h.right; omega)
  rw [Text.isBoundary, Text.isBoundary, hs, ht, h.agree p hp]

theorem floorWithin (h : Shares n s t) (hp : p < n) : s.floorWithin p = t.floorWithin p := by
  induction p with
  | zero => rfl
  | succ p ih => rw [Text.floorWithin, Text.floorWithin, h.isBoundary hp, ih (by omega)]

theorem floor (h : Shares n s t) (hp : p < n) : s.floor p = t.floor p := by
  have hs := h.left
  have ht := h.right
  rw [Text.floor, Text.floor, Nat.min_eq_left (by omega), Nat.min_eq_left (by omega),
    h.floorWithin hp]

theorem charBefore (h : Shares n s t) (hp : p ≤ n) : s.charBefore p = t.charBefore p := by
  cases p with
  | zero => rfl
  | succ p =>
    have hle := t.floorWithin_le p
    simp only [Text.charBefore]
    rw [h.floorWithin (by omega), h.agree _ (by omega)]

theorem cells (h : Shares n s t) (hp : p < n) : s.cells[p]? = t.cells[p]? := by
  have hchar := h.agree p hp
  have hs : p < s.cells.size := Nat.lt_of_lt_of_le hp h.left
  have ht : p < t.cells.size := Nat.lt_of_lt_of_le hp h.right
  simp only [Text.charAt, Array.getElem?_eq_getElem hs, Array.getElem?_eq_getElem ht] at hchar ⊢
  rw [hchar]

theorem slice (h : Shares n s t) (a : Nat) {b : Nat} (hb : b ≤ n) : s.slice a b = t.slice a b := by
  have extract : s.cells.extract a b = t.cells.extract a b := by
    refine Array.ext_getElem? fun i => ?_
    have hs : min b s.cells.size = b := Nat.min_eq_left (Nat.le_trans hb h.left)
    have ht : min b t.cells.size = b := Nat.min_eq_left (Nat.le_trans hb h.right)
    rw [Array.getElem?_extract, Array.getElem?_extract, hs, ht]
    split
    next hi => exact h.cells (by omega)
    next => rfl
  rw [Text.slice, Text.slice, extract]

theorem word (h : Shares n s t) (a : Nat) {b : Nat} (hb : b ≤ n) : s.word a b = t.word a b := by
  rw [Text.word, Text.word, h.slice a hb]

end Shares

end Text

namespace Pattern

/-- Words that are not empty, and characters of one byte. -/
def Token : Pattern → Prop
  | .words ws => [] ∉ ws
  | .oneOf cs => ∀ c ∈ cs, c.utf8Size = 1
  | _ => False

variable {n limit p q : Nat} {s t : Text} {pat : Pattern}

/-- A token is not empty and ends by the limit. -/
theorem Token.of_matchAt (tok : pat.Token) (h : pat.matchAt? t limit p = some q) :
    p < q ∧ q ≤ limit := by
  cases pat with
  | words ws =>
    simp only [matchAt?] at h
    split at h
    next =>
      obtain ⟨w, hw, hq⟩ := List.exists_of_findSome?_eq_some h
      simp only [Option.ite_none_right_eq_some, Bool.and_eq_true, decide_eq_true_eq,
        Option.some.injEq] at hq
      obtain ⟨⟨⟨-, hle⟩, -⟩, rfl⟩ := hq
      have hpos : 0 < byteLength w := by
        cases w with
        | nil => exact absurd hw tok
        | cons c w =>
          have := c.utf8Size_pos
          simp only [byteLength]
          omega
      omega
    next => simp at h
  | oneOf cs =>
    simp only [matchAt?, Option.ite_none_right_eq_some] at h
    obtain ⟨hlt, h⟩ := h
    obtain ⟨c, -, hc⟩ := Option.bind_eq_some_iff.mp h
    simp only [Option.ite_none_right_eq_some, Option.some.injEq, List.contains_iff_mem] at hc
    have := tok c hc.1
    omega
  | literal w | wordRun | empty => exact tok.elim

theorem Token.of_find (tok : pat.Token) {m : Span} (h : pat.find? t limit p = some m) :
    m.start < m.stop ∧ m.stop ≤ limit := by
  unfold find? at h
  generalize limit + 1 - p = k at h
  induction k generalizing p with
  | zero => simp [firstMatch?] at h
  | succ k ih =>
    rw [firstMatch?] at h
    split at h
    next q hq =>
      cases h
      exact tok.of_matchAt hq
    next => exact ih h

theorem wordBoundary_congr (h : Text.Shares n s t) (hlimit : limit ≤ n) (hp : p ≤ limit) :
    wordBoundary s limit p = wordBoundary t limit p := by
  unfold wordBoundary
  rw [h.charBefore (Nat.le_trans hp hlimit)]
  by_cases hlt : p < limit
  · rw [h.agree p (Nat.lt_of_lt_of_le hlt hlimit)]
  · simp only [hlt, decide_false, Bool.false_and]

theorem Token.matchAt_congr (tok : pat.Token) (h : Text.Shares n s t) (hlimit : limit ≤ n)
    (hp : p ≤ limit) : pat.matchAt? s limit p = pat.matchAt? t limit p := by
  cases pat with
  | words ws =>
    have each : ∀ w, (if s.startsWith p w && p + byteLength w ≤ limit &&
          wordBoundary s limit (p + byteLength w) then some (p + byteLength w) else none) =
        if t.startsWith p w && p + byteLength w ≤ limit &&
          wordBoundary t limit (p + byteLength w) then some (p + byteLength w) else none := by
      intro w
      by_cases hq : p + byteLength w ≤ limit
      · rw [h.agree.startsWith (Nat.le_trans hq hlimit), wordBoundary_congr h hlimit hq]
      · simp only [hq, decide_false, Bool.and_false, Bool.false_and, Bool.false_eq_true, ↓reduceIte]
    simp only [matchAt?, each, wordBoundary_congr h hlimit hp]
  | oneOf cs =>
    simp only [matchAt?]
    by_cases hlt : p < limit
    · rw [h.agree p (Nat.lt_of_lt_of_le hlt hlimit)]
    · rw [if_neg hlt, if_neg hlt]
  | literal w | wordRun | empty => exact tok.elim

theorem Token.find_congr (tok : pat.Token) (h : Text.Shares n s t) (hlimit : limit ≤ n) (p : Nat) :
    pat.find? s limit p = pat.find? t limit p := by
  unfold find?
  have hk : p + (limit + 1 - p) ≤ limit + 1 ∨ limit + 1 - p = 0 := by omega
  generalize limit + 1 - p = k at hk
  induction k generalizing p with
  | zero => rfl
  | succ k ih =>
    rw [firstMatch?, firstMatch?, tok.matchAt_congr h hlimit (by omega), ih (p + 1) (by omega)]

theorem resume_eq {m : Span} (h : m.start < m.stop) : resume t m = m.stop := if_pos h

end Pattern

end BraceScopes
