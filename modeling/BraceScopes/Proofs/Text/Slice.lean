import BraceScopes.Proofs.Text.Boundary
/-!
Parts of a text. Parts that meet make one part, a part between two places that cut no character has the
bytes between them, and replacing a part keeps what lies around it.
-/
namespace BraceScopes

namespace Text

variable {t new : Text} {p q r : Nat} {c : Char} {u v w : List Char}

theorem isBoundary_size (t : Text) : t.isBoundary t.size = true := by simp [isBoundary]

theorem slice_append_slice (hpq : p ≤ q) (hqr : q ≤ r) : t.slice p q ++ t.slice q r = t.slice p r := by
  rw [slice, slice, slice, ← List.filterMap_append, ← Array.toList_append,
    Array.extract_append_extract, Nat.min_eq_left hpq, Nat.max_eq_right hqr]

theorem slice_self (t : Text) (p : Nat) : t.slice p p = [] := by
  simp [slice]

/-- A part of one character. -/
theorem slice_next (hc : t.charAt p = some c) : t.slice p (t.next p) = [c] := by
  rw [next_of_charAt hc]
  exact slice_of_startsWith (w := [c]) (isBoundary_of_charAt hc) (by simp [startsWith, hc])

/-- A part holds the characters that begin in it. -/
theorem mem_slice : c ∈ t.slice p q ↔ ∃ i, p ≤ i ∧ i < q ∧ t.charAt i = some c := by
  simp only [slice, List.mem_filterMap, id_eq, exists_eq_right, Array.mem_toList_iff,
    Array.mem_iff_getElem?, Array.getElem?_extract]
  constructor
  · rintro ⟨i, hi⟩
    split at hi
    next hlt => exact ⟨p + i, by omega, by omega, by rw [charAt, hi]⟩
    next => cases hi
  · rintro ⟨i, hp, hq, hc⟩
    have hsize : i < t.cells.size := lt_size_of_charAt hc
    refine ⟨i - p, ?_⟩
    rw [if_pos (by omega), show p + (i - p) = i by omega]
    rw [charAt] at hc
    split at hc
    next cell hcell => rw [hcell, hc]
    next => cases hc
theorem slice_size (t : Text) : t.slice 0 t.size = t.chars := by
  rw [slice, size, Array.extract_size, t.cells_eq, filterMap_layout]

theorem chars_eq_slices (t : Text) (hpq : p ≤ q) (hq : q ≤ t.size) :
    t.chars = t.slice 0 p ++ (t.slice p q ++ t.slice q t.size) := by
  rw [slice_append_slice hpq hq, slice_append_slice (Nat.zero_le p) (Nat.le_trans hpq hq), slice_size]

theorem slice_of_append (h : t.chars = u ++ (v ++ w)) :
    t.slice (byteLength u) (byteLength u + byteLength v) = v :=
  slice_of_startsWith (isBoundary_byteLength h) (startsWith_of_append h)

theorem slice_rest_of_append (h : t.chars = u ++ v) : t.slice (byteLength u) t.size = v := by
  have hsize : t.size = byteLength u + byteLength v := by
    rw [size_eq_byteLength, h, byteLength_append]
  rw [hsize]
  exact slice_of_append (w := []) (by simpa using h)

theorem byteLength_slice_zero (hp : t.isBoundary p = true) : byteLength (t.slice 0 p) = p := by
  obtain ⟨u, v, hchars, rfl⟩ := exists_append_of_isBoundary hp
  rw [slice_zero_of_append hchars]

theorem byteLength_slice (hp : t.isBoundary p = true) (hq : t.isBoundary q = true) (hpq : p ≤ q) :
    p + byteLength (t.slice p q) = q := by
  have hsum := congrArg byteLength (t.slice_append_slice (Nat.zero_le p) hpq)
  rw [byteLength_append, byteLength_slice_zero hp, byteLength_slice_zero hq] at hsum
  exact hsum

theorem chars_replace_of_append {x : Range} (h : t.chars = u ++ (v ++ w))
    (hstart : x.start = byteLength u) (hstop : x.stop = byteLength u + byteLength v) :
    (t.replace x new).chars = u ++ new.chars ++ w := by
  have hrest : t.slice (byteLength (u ++ v)) t.size = w := slice_rest_of_append (by simpa using h)
  rw [byteLength_append] at hrest
  rw [replace, chars_ofChars, hstart, hstop, slice_zero_of_append h, hrest]

end Text

end BraceScopes
