/-!
Texts addressed by byte. A character takes one to four bytes, and a text keeps one cell per byte, so
that looking at an offset takes constant time. Offsets that do not start a character are answered
like offsets past the end: there is no character there.
-/
namespace BraceScopes

/-- The cells of a list of characters: a cell holds the character that starts at its byte, or nothing
on the later bytes of a character. -/
def layout : List Char → List (Option Char)
  | [] => []
  | c :: cs => some c :: (List.replicate (c.utf8Size - 1) none ++ layout cs)

def byteLength : List Char → Nat
  | [] => 0
  | c :: cs => c.utf8Size + byteLength cs

/-- There is one cell for each byte. -/
theorem length_layout (cs : List Char) : (layout cs).length = byteLength cs := by
  induction cs with
  | nil => rfl
  | cons c cs ih =>
    have hpos := c.utf8Size_pos
    simp only [layout, byteLength, List.length_cons, List.length_append, List.length_replicate, ih]
    omega

/-- A text, as its characters and as its bytes. -/
structure Text where
  chars : List Char
  cells : Array (Option Char)
  cells_eq : cells = (layout chars).toArray

namespace Text

def ofChars (cs : List Char) : Text := ⟨cs, (layout cs).toArray, rfl⟩

def ofString (s : String) : Text := ofChars s.toList

def toString (t : Text) : String := String.ofList t.chars

/-- Length in bytes. -/
def size (t : Text) : Nat := t.cells.size

/-- The character that starts at byte `p`. -/
def charAt (t : Text) (p : Nat) : Option Char :=
  match t.cells[p]? with
  | some cell => cell
  | none => none

/-- Whether `p` lies between two characters or at an end of the text. -/
def isBoundary (t : Text) (p : Nat) : Bool := p == t.size || (t.charAt p).isSome

/-- The nearest boundary at or before an offset of the text. -/
def floorWithin (t : Text) : Nat → Nat
  | 0 => 0
  | p + 1 => if t.isBoundary (p + 1) then p + 1 else t.floorWithin p

/-- The nearest boundary at or before `p`, where offsets past the end count as the end. -/
def floor (t : Text) (p : Nat) : Nat := t.floorWithin (min p t.size)

/-- The offset after the character at `p`, or `p + 1` where no character starts. -/
def next (t : Text) (p : Nat) : Nat := p + ((t.charAt p).elim 1 Char.utf8Size)

/-- Start and value of the character that ends right before `p`. -/
def charBefore (t : Text) : Nat → Option (Nat × Char)
  | 0 => none
  | p + 1 => let q := t.floorWithin p; (t.charAt q).map fun c => (q, c)

/-- The characters that start in `[a, b)`. -/
def slice (t : Text) (a b : Nat) : List Char := (t.cells.extract a b).toList.filterMap id

def word (t : Text) (a b : Nat) : String := String.ofList (t.slice a b)

/-- Whether the characters of `w` stand at `p`. -/
def startsWith (t : Text) : Nat → List Char → Bool
  | _, [] => true
  | p, c :: w => t.charAt p == some c && t.startsWith (p + c.utf8Size) w

/-- The first offset among the `n` offsets from `p` on that passes the test. -/
def firstFrom (test : Nat → Bool) (p : Nat) : Nat → Option Nat
  | 0 => none
  | n + 1 => if test p then some p else firstFrom test (p + 1) n

/-- The first offset at or after `p` where the characters of `w` stand. -/
def find? (t : Text) (w : List Char) (p : Nat) : Option Nat :=
  firstFrom (fun q => t.startsWith q w) p (t.size + 1 - p)

/-- The offset of the first line terminator at or after `p`, or the end of the text. -/
def lineEnd (t : Text) (p : Nat) : Nat :=
  (firstFrom (fun q => t.charAt q == some '\n' || t.charAt q == some '\r') p (t.size - p)).getD t.size

@[ext]
theorem ext {s t : Text} (h : s.chars = t.chars) : s = t := by
  obtain ⟨_, _, hs⟩ := s
  obtain ⟨_, _, ht⟩ := t
  subst hs ht
  cases h
  rfl

instance : DecidableEq Text := fun s t =>
  decidable_of_iff (s.chars = t.chars) ⟨ext, fun h => h ▸ rfl⟩

theorem charAt_eq_none_of_size_le {t : Text} {p : Nat} (h : t.size ≤ p) : t.charAt p = none := by
  simp [charAt, Array.getElem?_eq_none h]

/-- A character lies inside its text. -/
theorem lt_size_of_charAt {t : Text} {p : Nat} {c : Char} (h : t.charAt p = some c) : p < t.size := by
  by_cases hp : t.size ≤ p
  · simp [charAt_eq_none_of_size_le hp] at h
  · omega

theorem lt_next (t : Text) (p : Nat) : p < t.next p := by
  unfold next
  cases t.charAt p with
  | none => simp
  | some c => simp [Char.utf8Size_pos]

theorem floorWithin_le (t : Text) (p : Nat) : t.floorWithin p ≤ p := by
  induction p with
  | zero => simp [floorWithin]
  | succ p ih =>
    unfold floorWithin
    split
    next => exact Nat.le_refl _
    next => omega

theorem floor_le (t : Text) (p : Nat) : t.floor p ≤ p :=
  Nat.le_trans (t.floorWithin_le _) (Nat.min_le_left _ _)

/-- Going back over a character goes back. -/
theorem charBefore_lt {t : Text} {p q : Nat} {c : Char} (h : t.charBefore p = some (q, c)) : q < p := by
  cases p with
  | zero => simp [charBefore] at h
  | succ p =>
    simp only [charBefore, Option.map_eq_some_iff, Prod.mk.injEq] at h
    obtain ⟨_, _, rfl, _⟩ := h
    exact Nat.lt_succ_of_le (t.floorWithin_le p)

end Text

end BraceScopes
