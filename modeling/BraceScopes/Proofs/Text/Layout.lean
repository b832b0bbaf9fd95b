import BraceScopes.Text.Edit
/-!
How the bytes of a text lie: a place between two characters cuts the characters in two, and no
character begins inside another.
-/
namespace BraceScopes

theorem layout_append (u v : List Char) : layout (u ++ v) = layout u ++ layout v := by
  induction u with
  | nil => rfl
  | cons c u ih => simp [layout, ih]

theorem filterMap_layout (cs : List Char) : (layout cs).filterMap id = cs := by
  induction cs with
  | nil => rfl
  | cons c cs ih =>
    have rest : (List.replicate (c.utf8Size - 1) (none : Option Char)).filterMap id = [] :=
      List.filterMap_eq_nil_iff.mpr fun x hx => List.eq_of_mem_replicate hx
    rw [layout, List.filterMap_cons_some (by rfl), List.filterMap_append, rest, List.nil_append, ih]

/-- The bytes of a character are its own cell and empty cells, up to the next character. -/
theorem layout_cons_getElem {c : Char} {cs : List Char} {p : Nat} :
    (layout (c :: cs))[p]? =
      if p = 0 then some (some c)
      else if p < c.utf8Size then some none
      else (layout cs)[p - c.utf8Size]? := by
  have hpos := c.utf8Size_pos
  cases p with
  | zero => rfl
  | succ p =>
    rw [layout, List.getElem?_cons_succ, if_neg (by omega)]
    by_cases hp : p + 1 < c.utf8Size
    · rw [if_pos hp, List.getElem?_append_left (by simp; omega),
        List.getElem?_replicate_of_lt (by omega)]
    · rw [if_neg hp, List.getElem?_append_right (by simp; omega), List.length_replicate,
        show p - (c.utf8Size - 1) = p + 1 - c.utf8Size by omega]

namespace Text

theorem charAt_eq_layout (t : Text) (p : Nat) : t.charAt p = ((layout t.chars)[p]?).join := by
  unfold charAt
  rw [t.cells_eq, List.getElem?_toArray]
  cases (layout t.chars)[p]? <;> rfl

theorem size_eq_byteLength (t : Text) : t.size = byteLength t.chars := by
  rw [size, t.cells_eq, List.size_toArray, length_layout]

@[simp]
theorem chars_ofChars (cs : List Char) : (ofChars cs).chars = cs := rfl

/-- No character begins on a later byte of another. -/
theorem charAt_inside {t : Text} {p i : Nat} {c : Char} (h : t.charAt p = some c) (hp : p < i)
    (hi : i < p + c.utf8Size) : t.charAt i = none := by
  rw [charAt_eq_layout] at h ⊢
  generalize t.chars = cs at h ⊢
  induction cs generalizing p i with
  | nil => simp [layout] at h
  | cons d cs ih =>
    rw [layout_cons_getElem] at h ⊢
    rw [if_neg (by omega)]
    by_cases hzero : p = 0
    · obtain rfl : d = c := by simpa [hzero] using h
      rw [if_pos (by omega)]
      rfl
    · rw [if_neg hzero] at h
      by_cases hd : p < d.utf8Size
      · simp [hd] at h
      · rw [if_neg hd] at h
        rw [if_neg (by omega)]
        exact ih (p := p - d.utf8Size) (by omega) (by omega) h

theorem isBoundary_le_size {t : Text} {p : Nat} (h : t.isBoundary p = true) : p ≤ t.size := by
  simp only [isBoundary, Bool.or_eq_true, beq_iff_eq, Option.isSome_iff_exists] at h
  rcases h with h | ⟨c, hc⟩
  · exact Nat.le_of_eq h
  · exact Nat.le_of_lt (lt_size_of_charAt hc)

/-- A character stands at each boundary before the end. -/
theorem exists_charAt {t : Text} {p : Nat} (h : t.isBoundary p = true) (hlt : p < t.size) :
    ∃ c, t.charAt p = some c := by
  simp only [isBoundary, Bool.or_eq_true, beq_iff_eq, Option.isSome_iff_exists] at h
  exact h.resolve_left (Nat.ne_of_lt hlt)

/-- A place between two characters cuts the characters in two. -/
theorem exists_append_of_isBoundary {t : Text} {p : Nat} (h : t.isBoundary p = true) :
    ∃ u v, t.chars = u ++ v ∧ byteLength u = p := by
  simp only [isBoundary, size_eq_byteLength, charAt_eq_layout, Bool.or_eq_true, beq_iff_eq] at h
  generalize t.chars = cs at h ⊢
  induction cs generalizing p with
  | nil => exact ⟨[], [], rfl, by simpa [layout, byteLength, eq_comm] using h⟩
  | cons c cs ih =>
    by_cases hzero : p = 0
    · exact ⟨[], c :: cs, rfl, hzero.symm⟩
    · have hc : ¬ p < c.utf8Size := by
        intro hlt
        rw [layout_cons_getElem, if_neg hzero, if_pos hlt] at h
        simp only [byteLength, Option.join_some, Option.isSome_none, Bool.false_eq_true, or_false] at h
        omega
      rw [layout_cons_getElem, if_neg hzero, if_neg hc, byteLength] at h
      obtain ⟨u, v, rfl, hu⟩ := ih (h.imp_left fun heq => by omega)
      exact ⟨c :: u, v, rfl, by simp only [byteLength]; omega⟩

/-- Below a place, the characters after it do not matter. -/
theorem charAt_append {u v : List Char} {i : Nat} (h : i < byteLength u) :
    (ofChars (u ++ v)).charAt i = (ofChars u).charAt i := by
  rw [charAt_eq_layout, charAt_eq_layout, chars_ofChars, chars_ofChars, layout_append,
    List.getElem?_append_left (by rwa [length_layout])]

/-- The characters before a place between two characters. -/
theorem slice_zero_of_append {t : Text} {u v : List Char} (h : t.chars = u ++ v) :
    t.slice 0 (byteLength u) = u := by
  rw [slice, t.cells_eq, h, layout_append, ← length_layout, List.extract_toArray,
    List.extract_eq_take_drop, List.drop_zero, Nat.sub_zero, List.take_left, filterMap_layout]

/-- An edit keeps what stands before it. -/
theorem charAt_replace {t new : Text} {r : Range} (h : t.isBoundary r.start = true) {i : Nat}
    (hi : i < r.start) : (t.replace r new).charAt i = t.charAt i := by
  obtain ⟨u, v, hchars, hu⟩ := exists_append_of_isBoundary h
  obtain rfl : t = ofChars (u ++ v) := Text.ext hchars
  rw [replace, ← hu, slice_zero_of_append hchars, List.append_assoc, charAt_append (by omega),
    charAt_append (by omega)]

end Text

end BraceScopes
