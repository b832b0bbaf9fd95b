import BraceScopes.Proofs.Text.Lines
import Mathlib.Order.Bounds.Defs
/-!
Offsets and positions. A position leads to the end of the longest beginning of its line that its code
units reach over, so an offset between two characters comes back from its position, and later positions
lead to later offsets.
-/
namespace BraceScopes

theorem units16_pos (c : Char) : 0 < units16 c := by
  unfold units16
  split <;> omega

theorem length16_append (u v : List Char) : length16 (u ++ v) = length16 u + length16 v := by
  induction u with
  | nil => simp [length16]
  | cons c u ih =>
    rw [List.cons_append, length16, length16, ih]
    omega

theorem eq_nil_of_length16 {w : List Char} (h : length16 w = 0) : w = [] := by
  cases w with
  | nil => rfl
  | cons c w =>
    have hpos := units16_pos c
    rw [length16] at h
    omega

/-- The longest beginning of some characters that has at most `n` code units. -/
structure LongestWithin (cs : List Char) (n : Nat) (w : List Char) : Prop where
  begins : w <+: cs
  within : length16 w ≤ n
  longest : ∀ x, x <+: cs → length16 x ≤ n → x <+: w

namespace LongestWithin

variable {cs w x : List Char} {m n : Nat} {c : Char}

theorem nil_of_lt (h : n < units16 c) : LongestWithin (c :: cs) n [] := by
  refine ⟨List.nil_prefix, Nat.zero_le n, fun x hx hle => ?_⟩
  cases x with
  | nil => exact List.nil_prefix
  | cons d x =>
    obtain ⟨rfl, -⟩ := List.cons_prefix_cons.mp hx
    rw [length16] at hle
    omega

theorem cons (h : LongestWithin cs n w) : LongestWithin (c :: cs) (units16 c + n) (c :: w) := by
  refine ⟨List.cons_prefix_cons.mpr ⟨rfl, h.begins⟩, ?_, fun x hx hle => ?_⟩
  · rw [length16]
    exact Nat.add_le_add_left h.within _
  · cases x with
    | nil => exact List.nil_prefix
    | cons d x =>
      obtain ⟨rfl, hrest⟩ := List.cons_prefix_cons.mp hx
      rw [length16] at hle
      exact List.cons_prefix_cons.mpr ⟨rfl, h.longest x hrest (by omega)⟩

theorem mono (h : LongestWithin cs m w) (h' : LongestWithin cs n x) (hmn : m ≤ n) : w <+: x :=
  h'.longest w h.begins (Nat.le_trans h.within hmn)

theorem eq_of_length16 (h : LongestWithin cs (length16 x) w) (hx : x <+: cs) : w = x := by
  obtain ⟨rest, rfl⟩ := h.longest x hx (Nat.le_refl _)
  have hle := h.within
  rw [length16_append] at hle
  rw [eq_nil_of_length16 (w := rest) (by omega), List.append_nil]

end LongestWithin

/-- Positions are ordered by line, then by code unit. -/
def Position.NotAfter (p q : Position) : Prop :=
  p.line < q.line ∨ p.line = q.line ∧ p.character ≤ q.character

namespace Text

/-- The place between a carriage return and the line feed that belongs to it. -/
def InsidePair (t : Text) (p : Nat) : Prop :=
  ∃ q, p = q + 1 ∧ t.charAt q = some '\r' ∧ t.charAt p = some '\n'

end Text

namespace Lines

variable {t : Text} {a b i n offset : Nat} {w : List Char} {p q : Position}

theorem advance_spec (cs : List Char) (p units n : Nat) :
    ∃ w, LongestWithin cs n w ∧ advance cs p units (units + n) = p + byteLength w := by
  induction cs generalizing p units n with
  | nil => exact ⟨[], ⟨List.nil_prefix, Nat.zero_le n, fun x hx _ => hx⟩, rfl⟩
  | cons c cs ih =>
    rw [advance]
    by_cases hlt : n < units16 c
    · rw [if_pos (by omega)]
      exact ⟨[], .nil_of_lt hlt, rfl⟩
    · obtain ⟨m, rfl⟩ : ∃ m, n = units16 c + m := ⟨n - units16 c, by omega⟩
      obtain ⟨w, hw, hadvance⟩ := ih (p + c.utf8Size) (units + units16 c) m
      refine ⟨c :: w, hw.cons, ?_⟩
      rw [if_neg (by omega), ← Nat.add_assoc, hadvance, byteLength, Nat.add_assoc]

/-- A position on a line leads as far along the line as its code units reach. -/
theorem offsetOf_of_line (h : (ofText t).spans[p.line]? = some (a, b)) :
    ∃ w, LongestWithin (t.slice a b) p.character w ∧ (ofText t).offsetOf t p = a + byteLength w := by
  obtain ⟨w, hw, hadvance⟩ := advance_spec (t.slice a b) a 0 p.character
  rw [Nat.zero_add] at hadvance
  refine ⟨w, hw, ?_⟩
  rw [offsetOf, h]
  exact hadvance

theorem offsetOf_of_no_line (h : (ofText t).spans[p.line]? = none) :
    (ofText t).offsetOf t p = t.size := by
  rw [offsetOf, h]
  rfl

/-- A beginning of a line ends between two characters of the line. -/
theorem begins_line (h : (ofText t).spans[i]? = some (a, b)) (hw : w <+: t.slice a b) :
    t.isBoundary (a + byteLength w) = true ∧ a + byteLength w ≤ b ∧
      t.slice a (a + byteLength w) = w := by
  obtain ⟨hle, -, -, -⟩ := line_spec h
  obtain ⟨ha, hb⟩ := line_isBoundary h
  obtain ⟨rest, hrest⟩ := hw
  have hchars := t.chars_eq_slices hle (Text.isBoundary_le_size hb)
  rw [← hrest, List.append_assoc] at hchars
  have hlength := Text.byteLength_slice ha hb hle
  rw [← hrest, byteLength_append] at hlength
  have hstart := Text.byteLength_slice_zero ha
  have hpart := Text.slice_of_append hchars
  have hsplit : t.chars = (t.slice 0 a ++ w) ++ (rest ++ t.slice b t.size) := by
    rw [hchars, List.append_assoc]
  have hend := Text.isBoundary_byteLength hsplit
  rw [byteLength_append, hstart] at hend
  rw [hstart] at hpart
  exact ⟨hend, by omega, hpart⟩

theorem slice_begins (hab : a ≤ offset) (hb : offset ≤ b) : t.slice a offset <+: t.slice a b :=
  ⟨t.slice offset b, t.slice_append_slice hab hb⟩

theorem isBoundary_offsetOf (t : Text) (p : Position) :
    t.isBoundary ((ofText t).offsetOf t p) = true := by
  cases hline : (ofText t).spans[p.line]? with
  | none =>
    rw [offsetOf_of_no_line hline]
    exact t.isBoundary_size
  | some s =>
    obtain ⟨w, hw, heq⟩ := offsetOf_of_line hline
    rw [heq]
    exact (begins_line hline hw.begins).1

theorem offsetOf_le_size (t : Text) (p : Position) : (ofText t).offsetOf t p ≤ t.size :=
  Text.isBoundary_le_size (isBoundary_offsetOf t p)

theorem lineOf_of_mem (h : (ofText t).spans[i]? = some (a, b)) (ha : a ≤ offset) (hb : offset ≤ b) :
    (ofText t).lineOf offset = i := by
  have hsize := Text.isBoundary_le_size (line_isBoundary h).2
  obtain ⟨-, -, hnext, -⟩ := line_spec h
  refine (lineOf_eq_iff t offset i).mpr ⟨⟨a, start?_eq_some.mpr ⟨b, h⟩, by omega⟩, fun c hc => ?_⟩
  have hlt := (hnext c hc).lt
  omega

/-- A place between two characters stands on its line, or inside the terminator of the line. -/
theorem le_stop_or_insidePair (h : (ofText t).spans[(ofText t).lineOf offset]? = some (a, b))
    (hsize : offset ≤ t.size) : offset ≤ b ∨ t.InsidePair offset := by
  obtain ⟨-, -, hnext, hlast⟩ := line_spec h
  obtain ⟨-, hbelow⟩ := (lineOf_eq_iff t offset _).mp rfl
  cases hstart : (ofText t).start? ((ofText t).lineOf offset + 1) with
  | none =>
    have hb := hlast hstart
    exact .inl (by omega)
  | some c =>
    have hlt := hbelow c hstart
    cases hnext c hstart with
    | lineFeed | carriageReturn => exact .inl (by omega)
    | both hreturn hfeed =>
      -- the only place between the stop and the next line is the one inside the pair
      by_cases hle : offset ≤ b
      · exact .inl hle
      · obtain rfl : offset = b + 1 := by omega
        exact .inr ⟨b, rfl, hreturn, hfeed⟩

theorem positionOf_eq (h : (ofText t).spans[(ofText t).lineOf offset]? = some (a, b)) :
    (ofText t).positionOf t offset =
      ⟨(ofText t).lineOf offset, length16 (t.slice a (min offset b))⟩ := by
  simp only [positionOf, span_of_getElem h]

/-- A place between two characters comes back from its position. -/
theorem offsetOf_positionOf (h : t.isBoundary offset = true) (hpair : ¬t.InsidePair offset) :
    (ofText t).offsetOf t ((ofText t).positionOf t offset) = offset := by
  have hsize := Text.isBoundary_le_size h
  obtain ⟨a, b, hline, hle⟩ := exists_lineOf t offset
  have hb : offset ≤ b := (le_stop_or_insidePair hline hsize).resolve_right hpair
  have ha : a ≤ offset := by omega
  rw [positionOf_eq hline, Nat.min_eq_left hb]
  obtain ⟨w, hw, heq⟩ := offsetOf_of_line
    (p := ⟨(ofText t).lineOf offset, length16 (t.slice a offset)⟩) hline
  rw [heq, hw.eq_of_length16 (slice_begins ha hb)]
  exact Text.byteLength_slice (line_isBoundary hline).1 h ha

/-- The place that a position leads to stands on the line of the position. -/
theorem positionOf_offsetOf (h : (ofText t).spans[p.line]? = some (a, b)) :
    ∃ w, LongestWithin (t.slice a b) p.character w ∧
      (ofText t).positionOf t ((ofText t).offsetOf t p) = ⟨p.line, length16 w⟩ := by
  obtain ⟨w, hw, heq⟩ := offsetOf_of_line h
  obtain ⟨-, hstop, hslice⟩ := begins_line h hw.begins
  have hline : (ofText t).lineOf (a + byteLength w) = p.line := lineOf_of_mem h (by omega) hstop
  refine ⟨w, hw, ?_⟩
  rw [heq, positionOf_eq (by rw [hline, h]), hline, Nat.min_eq_left hstop, hslice]

theorem positionOf_begins (h : (ofText t).spans[i]? = some (a, b))
    (hi : ((ofText t).positionOf t offset).line = i) :
    ∃ x, x <+: t.slice a b ∧ ((ofText t).positionOf t offset).character = length16 x := by
  obtain rfl : (ofText t).lineOf offset = i := hi
  obtain ⟨a', b', hline, hle⟩ := exists_lineOf t offset
  rw [h] at hline
  cases hline
  obtain ⟨hab, -, -, -⟩ := line_spec h
  refine ⟨_, slice_begins (show a ≤ min offset b by omega) (Nat.min_le_right _ _), ?_⟩
  rw [positionOf_eq h]

theorem offsetOf_mem_line (h : (ofText t).spans[p.line]? = some (a, b)) :
    a ≤ (ofText t).offsetOf t p ∧ (ofText t).offsetOf t p ≤ b := by
  obtain ⟨w, hw, heq⟩ := offsetOf_of_line h
  obtain ⟨-, hstop, -⟩ := begins_line h hw.begins
  omega

theorem stop_lt_start {j c d : Nat} (hij : i < j) (hi : (ofText t).spans[i]? = some (a, b))
    (hj : (ofText t).spans[j]? = some (c, d)) : b < c := by
  obtain ⟨-, -, hnext, -⟩ := line_spec hi
  have hcount := exists_span_iff.mp ⟨_, hj⟩
  obtain ⟨s, hs⟩ := exists_span_iff.mpr (show i + 1 < (ofText t).count by omega)
  have hstart : (ofText t).start? (i + 1) = some s.1 := start?_eq_some.mpr ⟨s.2, hs⟩
  have hlt := (hnext s.1 hstart).lt
  rcases Nat.lt_or_eq_of_le (show i + 1 ≤ j from hij) with later | rfl
  · have := start_lt_start later hstart (start?_eq_some.mpr ⟨d, hj⟩)
    omega
  · rw [hj] at hs
    cases hs
    exact hlt

theorem offsetOf_mono (h : p.NotAfter q) : (ofText t).offsetOf t p ≤ (ofText t).offsetOf t q := by
  cases hq : (ofText t).spans[q.line]? with
  | none =>
    rw [offsetOf_of_no_line hq]
    exact offsetOf_le_size t p
  | some s =>
    have hline : p.line < (ofText t).count := by
      have := exists_span_iff.mp ⟨s, hq⟩
      rcases h with hlt | ⟨heq, -⟩ <;> omega
    obtain ⟨r, hp⟩ := exists_span_iff.mpr hline
    rcases h with hlt | ⟨heq, hle⟩
    · -- on different lines the terminator between them keeps the offsets apart
      have := stop_lt_start hlt hp hq
      have := offsetOf_mem_line hp
      have := offsetOf_mem_line hq
      omega
    · rw [heq, hq] at hp
      cases hp
      obtain ⟨w, hw, hpw⟩ := offsetOf_of_line (p := p) (by rw [heq, hq])
      obtain ⟨x, hx, hqx⟩ := offsetOf_of_line hq
      obtain ⟨y, rfl⟩ := hw.mono hx hle
      rw [hpw, hqx, byteLength_append]
      omega

/-- Offsets and positions correspond. Every place between two characters comes back from its position,
the one inside a pair of terminators apart. A position leads to a place between two characters; on a
line of the text that place has, of all positions of such places, the largest that is not past the one
asked for. Later positions lead to later offsets, also past the last line. -/
theorem positions_correspond (t : Text) :
    (∀ offset, t.isBoundary offset = true → ¬t.InsidePair offset →
      (ofText t).offsetOf t ((ofText t).positionOf t offset) = offset) ∧
    (∀ p : Position, t.isBoundary ((ofText t).offsetOf t p) = true ∧
      (ofText t).offsetOf t p ≤ t.size ∧
      (p.line < (ofText t).count →
        ∃ k, (ofText t).positionOf t ((ofText t).offsetOf t p) = ⟨p.line, k⟩ ∧
          IsGreatest {k | k ≤ p.character ∧
            ∃ offset, t.isBoundary offset = true ∧ (ofText t).positionOf t offset = ⟨p.line, k⟩} k)) ∧
    ∀ p q : Position, p.NotAfter q → (ofText t).offsetOf t p ≤ (ofText t).offsetOf t q := by
  refine ⟨fun offset => offsetOf_positionOf, fun p => ?_, fun p q => offsetOf_mono⟩
  refine ⟨isBoundary_offsetOf t p, offsetOf_le_size t p, fun hline => ?_⟩
  obtain ⟨s, hs⟩ := exists_span_iff.mpr hline
  obtain ⟨w, hw, hposition⟩ := positionOf_offsetOf hs
  refine ⟨length16 w, hposition, ⟨hw.within, _, isBoundary_offsetOf t p, hposition⟩, ?_⟩
  rintro k ⟨hk, offset, -, hoffset⟩
  have hon : ((ofText t).positionOf t offset).line = p.line := by rw [hoffset]
  obtain ⟨x, hx, hcharacter⟩ := positionOf_begins hs hon
  obtain rfl : k = length16 x := by rw [← hcharacter, hoffset]
  obtain ⟨rest, rfl⟩ := hw.longest x hx hk
  rw [length16_append]
  exact Nat.le_add_right _ _

/-- A position inside a surrogate pair leads to the character that it splits, and the start of the next
line comes back from its position. -/
theorem positions_correspond_surrogates :
    let t : Text := .ofString "a😀\r\nb"
    0 < (ofText t).count ∧ (ofText t).offsetOf t ⟨0, 2⟩ = 1 ∧
      (∃ k, (ofText t).positionOf t ((ofText t).offsetOf t ⟨0, 2⟩) = ⟨0, k⟩ ∧ k ≤ 2) ∧
      t.isBoundary 7 = true ∧ ¬t.InsidePair 7 ∧
      (ofText t).offsetOf t ((ofText t).positionOf t 7) = 7 ∧
      Position.NotAfter ⟨0, 9⟩ ⟨1, 0⟩ ∧
      (ofText t).offsetOf t ⟨0, 9⟩ ≤ (ofText t).offsetOf t ⟨1, 0⟩ := by
  intro t
  obtain ⟨back, lead, mono⟩ := positions_correspond t
  have hline : 0 < (ofText t).count := by decide +kernel
  have hplace : t.isBoundary 7 = true := by decide +kernel
  have hpair : ¬t.InsidePair 7 := by
    rintro ⟨q, -, -, hfeed⟩
    exact absurd hfeed (by decide +kernel)
  have horder : Position.NotAfter ⟨0, 9⟩ ⟨1, 0⟩ := .inl (by decide)
  obtain ⟨k, hk, greatest⟩ := (lead ⟨0, 2⟩).2.2 hline
  exact ⟨hline, by decide +kernel, ⟨k, hk, greatest.1.1⟩, hplace, hpair, back 7 hplace hpair, horder,
    mono _ _ horder⟩

end Lines

end BraceScopes
