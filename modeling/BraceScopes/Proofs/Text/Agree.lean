import BraceScopes.Proofs.Text.Layout
/-!
Two texts that agree below a place. What is read before the place is the same in both, and so is the
outcome of a search that ends before it.
-/
namespace BraceScopes

namespace Text

/-- The texts have the same characters at the bytes below `p`. -/
def AgreeBelow (p : Nat) (s t : Text) : Prop := ∀ i < p, s.charAt i = t.charAt i

/-- The texts have the same first `p` bytes, and `p` lies between two characters of both. -/
structure SameBefore (s t : Text) (p : Nat) : Prop where
  left : s.isBoundary p = true
  right : t.isBoundary p = true
  agree : AgreeBelow p s t

variable {s t : Text} {p q n : Nat}

namespace AgreeBelow

theorem refl (p : Nat) (s : Text) : AgreeBelow p s s := fun _ _ => rfl

theorem symm (h : AgreeBelow p s t) : AgreeBelow p t s := fun i hi => (h i hi).symm

theorem trans {u : Text} (h : AgreeBelow p s t) (h' : AgreeBelow p t u) : AgreeBelow p s u :=
  fun i hi => (h i hi).trans (h' i hi)

theorem mono (h : AgreeBelow p s t) (hq : q ≤ p) : AgreeBelow q s t :=
  fun i hi => h i (Nat.lt_of_lt_of_le hi hq)

theorem next (h : AgreeBelow p s t) (hq : q < p) : s.next q = t.next q := by
  rw [Text.next, Text.next, h q hq]

theorem startsWith (h : AgreeBelow p s t) {w : List Char} (hq : q + byteLength w ≤ p) :
    s.startsWith q w = t.startsWith q w := by
  induction w generalizing q with
  | nil => rfl
  | cons c w ih =>
    have hpos := c.utf8Size_pos
    rw [byteLength] at hq
    rw [Text.startsWith, Text.startsWith, h q (by omega), ih (by omega)]

end AgreeBelow

/-- The first place that passes a test passes it, and no earlier one does. -/
theorem firstFrom_eq_some {test : Nat → Bool} :
    firstFrom test p n = some q ↔
      p ≤ q ∧ q < p + n ∧ test q = true ∧ ∀ i, p ≤ i → i < q → test i = false := by
  induction n generalizing p with
  | zero =>
    simp only [firstFrom, reduceCtorEq, false_iff]
    rintro ⟨hle, hlt, -⟩
    omega
  | succ n ih =>
    rw [firstFrom]
    by_cases hp : test p = true
    · rw [if_pos hp, Option.some.injEq]
      constructor
      · rintro rfl
        exact ⟨Nat.le_refl p, by omega, hp, fun i hi hlt => by omega⟩
      · rintro ⟨hle, -, -, hnone⟩
        rcases Nat.lt_or_eq_of_le hle with hlt | heq
        · simp [hnone p (Nat.le_refl p) hlt] at hp
        · exact heq
    · rw [if_neg hp, ih]
      constructor
      · rintro ⟨hle, hlt, hq, hnone⟩
        refine ⟨by omega, by omega, hq, fun i hi hiq => ?_⟩
        rcases Nat.lt_or_eq_of_le hi with hi | rfl
        · exact hnone i hi hiq
        · exact Bool.eq_false_iff.mpr hp
      · rintro ⟨hle, hlt, hq, hnone⟩
        have hne : p ≠ q := by
          rintro rfl
          exact hp hq
        exact ⟨by omega, by omega, hq, fun i hi hiq => hnone i (by omega) hiq⟩

theorem firstFrom_eq_none {test : Nat → Bool} :
    firstFrom test p n = none ↔ ∀ i, p ≤ i → i < p + n → test i = false := by
  induction n generalizing p with
  | zero => simp only [firstFrom, true_iff]; intro i _ _; omega
  | succ n ih =>
    rw [firstFrom]
    by_cases hp : test p = true
    · rw [if_pos hp]
      simp only [reduceCtorEq, false_iff]
      intro h
      simp [h p (Nat.le_refl p) (by omega)] at hp
    · rw [if_neg hp, ih]
      constructor
      · intro h i hi hlt
        rcases Nat.lt_or_eq_of_le hi with hi | rfl
        · exact h i hi (by omega)
        · exact Bool.eq_false_iff.mpr hp
      · exact fun h i hi hlt => h i (by omega) (by omega)

def endsLine (t : Text) (p : Nat) : Bool := t.charAt p == some '\n' || t.charAt p == some '\r'

theorem lineEnd_le (t : Text) (p : Nat) : t.lineEnd p ≤ t.size := by
  unfold lineEnd
  cases h : firstFrom (fun q => t.charAt q == some '\n' || t.charAt q == some '\r') p (t.size - p) with
  | none => exact Nat.le_refl _
  | some q =>
    obtain ⟨hle, hlt, -, -⟩ := firstFrom_eq_some.mp h
    simp only [Option.getD_some]
    omega

/-- Before the text ends, the end of a line is the first line terminator. -/
theorem lineEnd_eq_iff (hq : q < t.size) :
    t.lineEnd p = q ↔ p ≤ q ∧ t.endsLine q = true ∧ ∀ i, p ≤ i → i < q → t.endsLine i = false := by
  unfold lineEnd
  change ((firstFrom t.endsLine p (t.size - p)).getD t.size = q) ↔ _
  cases h : firstFrom t.endsLine p (t.size - p) with
  | none =>
    have none := firstFrom_eq_none.mp h
    simp only [Option.getD_none]
    refine iff_of_false (by omega) fun ⟨hle, hend, _⟩ => ?_
    simp [none q hle (by omega)] at hend
  | some k =>
    obtain ⟨hk, hlt, hend, first⟩ := firstFrom_eq_some.mp h
    simp only [Option.getD_some]
    constructor
    · rintro rfl
      exact ⟨hk, hend, first⟩
    · rintro ⟨hle, hend', first'⟩
      rcases Nat.lt_trichotomy k q with hlt | heq | hlt
      · simp [first' k hk hlt] at hend
      · exact heq
      · simp [first q hle hlt] at hend'

theorem AgreeBelow.endsLine (h : AgreeBelow n s t) (hp : p < n) : s.endsLine p = t.endsLine p := by
  rw [Text.endsLine, Text.endsLine, h p hp]

/-- A line that ends where the texts agree ends there in both. -/
theorem AgreeBelow.lineEnd (h : AgreeBelow n s t) (hs : n ≤ s.size) (ht : n ≤ t.size)
    (hlt : s.lineEnd p < n) : t.lineEnd p = s.lineEnd p := by
  obtain ⟨hle, hend, first⟩ := (lineEnd_eq_iff (Nat.lt_of_lt_of_le hlt hs)).mp rfl
  refine (lineEnd_eq_iff (Nat.lt_of_lt_of_le hlt ht)).mpr ⟨hle, ?_, fun i hi hiq => ?_⟩
  · rw [← h.endsLine hlt]
    exact hend
  · rw [← h.endsLine (by omega)]
    exact first i hi hiq

/-- A word that is found where the texts agree is found there in both. -/
theorem AgreeBelow.find (h : AgreeBelow n s t) {w : List Char} (ht : n ≤ t.size)
    (hf : s.find? w p = some q) (hq : q + byteLength w ≤ n) : t.find? w p = some q := by
  obtain ⟨hle, -, hin, first⟩ := firstFrom_eq_some.mp hf
  refine firstFrom_eq_some.mpr ⟨hle, by omega, ?_, fun i hi hiq => ?_⟩
  · rw [← h.startsWith hq]
    exact hin
  · rw [← h.startsWith (by omega)]
    exact first i hi hiq

end Text

end BraceScopes
