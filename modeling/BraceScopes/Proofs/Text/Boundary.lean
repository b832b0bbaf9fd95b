import BraceScopes.Proofs.Text.Layout
/-!
Going over one character, forward and back. From a place between two characters both ways lead to the
next such place.
-/
namespace BraceScopes

theorem byteLength_append (u v : List Char) : byteLength (u ++ v) = byteLength u + byteLength v := by
  rw [← length_layout, layout_append, List.length_append, length_layout, length_layout]

theorem byteLength_pos {w : List Char} (h : w ≠ []) : 0 < byteLength w := by
  cases w with
  | nil => exact absurd rfl h
  | cons c w =>
    have hpos := c.utf8Size_pos
    rw [byteLength]
    omega

namespace Text

variable {t : Text} {p q i : Nat} {c d : Char} {u v w : List Char}

theorem next_of_charAt (h : t.charAt p = some c) : t.next p = p + c.utf8Size := by
  rw [next, h]
  rfl

theorem isBoundary_of_charAt (h : t.charAt p = some c) : t.isBoundary p = true := by
  simp [isBoundary, h]

theorem charAt_byteLength (h : t.chars = u ++ v) : t.charAt (byteLength u) = v.head? := by
  rw [charAt_eq_layout, h, layout_append,
    List.getElem?_append_right (Nat.le_of_eq (length_layout u)), length_layout, Nat.sub_self]
  cases v with
  | nil => rfl
  | cons c v => rfl

theorem isBoundary_byteLength (h : t.chars = u ++ v) : t.isBoundary (byteLength u) = true := by
  cases v with
  | nil =>
    rw [List.append_nil] at h
    rw [isBoundary, size_eq_byteLength, h]
    simp
  | cons c v => exact isBoundary_of_charAt (charAt_byteLength h)

theorem isBoundary_zero (t : Text) : t.isBoundary 0 = true := isBoundary_byteLength (u := []) rfl

/-- A character and the characters before and after it. -/
theorem exists_append_of_charAt (h : t.charAt p = some c) :
    ∃ u v, t.chars = u ++ c :: v ∧ byteLength u = p := by
  obtain ⟨u, v, hchars, rfl⟩ := exists_append_of_isBoundary (isBoundary_of_charAt h)
  rw [charAt_byteLength hchars] at h
  obtain ⟨v', rfl⟩ := List.head?_eq_some_iff.mp h
  exact ⟨u, v', hchars, rfl⟩

theorem isBoundary_next (h : t.charAt p = some c) : t.isBoundary (t.next p) = true := by
  obtain ⟨u, v, hchars, rfl⟩ := exists_append_of_charAt h
  have hsplit : t.chars = (u ++ [c]) ++ v := by simp [hchars]
  have hnext : t.next (byteLength u) = byteLength (u ++ [c]) := by
    rw [next_of_charAt h, byteLength_append]
    rfl
  rw [hnext]
  exact isBoundary_byteLength hsplit

theorem next_le_size (h : t.charAt p = some c) : t.next p ≤ t.size :=
  isBoundary_le_size (isBoundary_next h)

/-- Inside a character there is no place between two characters. -/
theorem isBoundary_inside (h : t.charAt p = some c) (hp : p < i) (hi : i < t.next p) :
    t.isBoundary i = false := by
  have hsize := next_le_size h
  rw [next_of_charAt h] at hi hsize
  have hne : (i == t.size) = false := beq_false_of_ne (by omega)
  rw [isBoundary, hne, charAt_inside h hp hi]
  rfl

theorem next_le_of_isBoundary (h : t.charAt p = some c) (hp : p < i) (hi : t.isBoundary i = true) :
    t.next p ≤ i := by
  refine Nat.le_of_not_lt fun hlt => ?_
  rw [isBoundary_inside h hp hlt] at hi
  simp at hi

theorem floorWithin_eq (hq : t.isBoundary q = true) (hle : q ≤ p)
    (hnone : ∀ i, q < i → i ≤ p → t.isBoundary i = false) : t.floorWithin p = q := by
  induction p with
  | zero =>
    obtain rfl : q = 0 := by omega
    rfl
  | succ p ih =>
    rw [floorWithin]
    rcases Nat.lt_or_eq_of_le hle with hlt | rfl
    · rw [hnone (p + 1) hlt (Nat.le_refl _)]
      exact ih (by omega) fun i hi hip => hnone i hi (by omega)
    · rw [if_pos hq]

theorem isBoundary_floorWithin (t : Text) (p : Nat) : t.isBoundary (t.floorWithin p) = true := by
  induction p with
  | zero => exact t.isBoundary_zero
  | succ p ih =>
    rw [floorWithin]
    split
    next h => exact h
    next => exact ih

theorem isBoundary_floor (t : Text) (p : Nat) : t.isBoundary (t.floor p) = true :=
  t.isBoundary_floorWithin _

theorem floor_eq_self (h : t.isBoundary p = true) : t.floor p = p := by
  rw [floor, Nat.min_eq_left (isBoundary_le_size h)]
  exact floorWithin_eq h (Nat.le_refl p) fun i hi hip => by omega

theorem le_floorWithin (hq : t.isBoundary q = true) (hle : q ≤ p) : q ≤ t.floorWithin p := by
  induction p with
  | zero => omega
  | succ p ih =>
    rw [floorWithin]
    split
    next => exact hle
    next hnot =>
      rcases Nat.lt_or_eq_of_le hle with hlt | rfl
      · exact ih (by omega)
      · exact absurd hq hnot

/-- The boundaries above an offset are those above the boundary at or before it. -/
theorem floor_lt_iff (hq : t.isBoundary q = true) : t.floor p < q ↔ p < q := by
  constructor
  · intro hlt
    refine Nat.lt_of_not_le fun hle => ?_
    have := le_floorWithin hq (Nat.le_min.mpr ⟨hle, isBoundary_le_size hq⟩)
    exact absurd this (Nat.not_le.mpr hlt)
  · exact Nat.lt_of_le_of_lt (t.floor_le p)

theorem charBefore_next (h : t.charAt p = some c) : t.charBefore (t.next p) = some (p, c) := by
  have hlt := t.lt_next p
  obtain ⟨k, hk⟩ : ∃ k, t.next p = k + 1 := ⟨t.next p - 1, by omega⟩
  have hfloor : t.floorWithin k = p :=
    floorWithin_eq (isBoundary_of_charAt h) (by omega) fun i hi hik =>
      isBoundary_inside h hi (by omega)
  rw [hk]
  simp only [charBefore, hfloor, h, Option.map_some]

theorem exists_charBefore (h : t.isBoundary p = true) (hpos : 0 < p) :
    ∃ q c, t.charAt q = some c ∧ t.next q = p := by
  obtain ⟨u, v, hchars, rfl⟩ := exists_append_of_isBoundary h
  obtain ⟨u, c, rfl⟩ : ∃ u' c, u = u' ++ [c] := by
    rcases List.eq_nil_or_concat u with rfl | ⟨u', c, rfl⟩
    · simp [byteLength] at hpos
    · exact ⟨u', c, List.concat_eq_append⟩
  have hat : t.charAt (byteLength u) = some c := by
    rw [List.append_assoc] at hchars
    exact charAt_byteLength hchars
  refine ⟨byteLength u, c, hat, ?_⟩
  rw [next_of_charAt hat, byteLength_append]
  rfl

theorem charBefore_eq_some (h : t.isBoundary p = true) :
    t.charBefore p = some (q, c) ↔ t.charAt q = some c ∧ t.next q = p := by
  constructor
  · intro hq
    have hpos : 0 < p := Nat.lt_of_le_of_lt (Nat.zero_le q) (charBefore_lt hq)
    obtain ⟨q', c', hat, rfl⟩ := exists_charBefore h hpos
    rw [charBefore_next hat] at hq
    cases hq
    exact ⟨hat, rfl⟩
  · rintro ⟨hat, rfl⟩
    exact charBefore_next hat

theorem isBoundary_of_charBefore (hp : t.isBoundary p = true) (h : t.charBefore p = some (q, c)) :
    t.isBoundary q = true :=
  isBoundary_of_charAt ((charBefore_eq_some hp).mp h).1

/-- Going back over one character does not lead below a place between characters. -/
theorem le_of_charBefore (hi : t.isBoundary i = true) (hp : t.isBoundary p = true) (hlt : i < p)
    (h : t.charBefore p = some (q, c)) : i ≤ q := by
  obtain ⟨hc, hnext⟩ := (charBefore_eq_some hp).mp h
  refine Nat.le_of_not_lt fun hqi => ?_
  have := next_le_of_isBoundary hc hqi hi
  omega

theorem prefix_of_startsWith (h : t.chars = u ++ v) (hw : t.startsWith (byteLength u) w = true) :
    w <+: v := by
  induction w generalizing u v with
  | nil => exact List.nil_prefix
  | cons c w ih =>
    simp only [startsWith, Bool.and_eq_true, beq_iff_eq, charAt_byteLength h] at hw
    obtain ⟨v, rfl⟩ := List.head?_eq_some_iff.mp hw.1
    refine List.cons_prefix_cons.mpr ⟨rfl, ih (u := u ++ [c]) (by simpa using h) ?_⟩
    rw [byteLength_append]
    exact hw.2

/-- The characters of a part of a text stand where the part begins. -/
theorem startsWith_of_append (h : t.chars = u ++ (w ++ v)) : t.startsWith (byteLength u) w = true := by
  induction w generalizing u with
  | nil => rfl
  | cons c w ih =>
    have hc : t.charAt (byteLength u) = some c := by
      rw [charAt_byteLength h]
      rfl
    have hsplit : t.chars = (u ++ [c]) ++ (w ++ v) := by simp [h]
    have htail := ih hsplit
    rw [byteLength_append] at htail
    rw [startsWith, hc, beq_self_eq_true, Bool.true_and]
    exact htail

/-- The slice where some characters stand holds these characters. -/
theorem slice_of_startsWith (hp : t.isBoundary p = true) (hw : t.startsWith p w = true) :
    t.slice p (p + byteLength w) = w := by
  obtain ⟨u, v, hchars, rfl⟩ := exists_append_of_isBoundary hp
  obtain ⟨v, rfl⟩ := prefix_of_startsWith hchars hw
  rw [slice, Array.toList_extract, t.cells_eq, List.extract_eq_take_drop, hchars, layout_append,
    layout_append]
  have hdrop : (layout u ++ (layout w ++ layout v)).drop (byteLength u) = layout w ++ layout v :=
    List.drop_left' (length_layout u)
  have htake : (layout w ++ layout v).take (byteLength w) = layout w :=
    List.take_left' (length_layout w)
  rw [hdrop, Nat.add_sub_cancel_left, htake, filterMap_layout]

end Text

end BraceScopes
