import BraceScopes.Proofs.Text.Boundary
import BraceScopes.Scan.Pattern
import Mathlib.Logic.Relation
/-!
Regular expressions, and the stretches of a text that match them. A match goes over characters that the
expression tests for and over no others.
-/
namespace BraceScopes

inductive Regex where
  | char (test : Char → Bool)
  | wordBoundary
  | empty
  | seq (a b : Regex)
  | alt (a b : Regex)
  | star (a : Regex)

namespace Regex

def plus (a : Regex) : Regex := a.seq a.star

def opt (a : Regex) : Regex := a.alt .empty

def exactly (c : Char) : Regex := .char (· == c)

def word : List Char → Regex
  | [] => .empty
  | c :: w => (exactly c).seq (word w)

/-- The stretch of the text from `p` to `q` is a match. -/
def Matches (t : Text) : Regex → Nat → Nat → Prop
  | .char test, p, q => ∃ c, t.charAt p = some c ∧ test c = true ∧ t.next p = q
  | .wordBoundary, p, q => Pattern.wordBoundary t t.size p = true ∧ p = q
  | .empty, p, q => p = q
  | .seq a b, p, q => ∃ m, a.Matches t p m ∧ b.Matches t m q
  | .alt a b, p, q => a.Matches t p q ∨ b.Matches t p q
  | .star a, p, q => Relation.ReflTransGen (a.Matches t) p q

/-- Whether a match can go over a character. -/
def crosses : Regex → Char → Bool
  | .char test, c => test c
  | .wordBoundary, _ | .empty, _ => false
  | .seq a b, c | .alt a b, c => a.crosses c || b.crosses c
  | .star a, c => a.crosses c

variable {t : Text} {r : Regex} {test : Char → Bool} {p q i : Nat} {c : Char} {w : List Char}

theorem Matches.le (h : r.Matches t p q) : p ≤ q := by
  induction r generalizing p q with
  | char test =>
    obtain ⟨c, -, -, rfl⟩ := h
    exact Nat.le_of_lt (t.lt_next p)
  | wordBoundary => exact Nat.le_of_eq h.2
  | empty => exact Nat.le_of_eq h
  | seq a b iha ihb =>
    obtain ⟨m, ha, hb⟩ := h
    exact Nat.le_trans (iha ha) (ihb hb)
  | alt a b iha ihb => exact h.elim iha ihb
  | star a ih =>
    induction h with
    | refl => exact Nat.le_refl p
    | tail _ hstep hle => exact Nat.le_trans hle (ih hstep)

theorem Matches.le_size (h : r.Matches t p q) (hp : p ≤ t.size) : q ≤ t.size := by
  induction r generalizing p q with
  | char test =>
    obtain ⟨c, hc, -, rfl⟩ := h
    exact Text.next_le_size hc
  | wordBoundary => exact h.2 ▸ hp
  | empty =>
    have : p = q := h
    exact this ▸ hp
  | seq a b iha ihb =>
    obtain ⟨m, ha, hb⟩ := h
    exact ihb hb (iha ha hp)
  | alt a b iha ihb => exact h.elim (fun ha => iha ha hp) (fun hb => ihb hb hp)
  | star a ih =>
    induction h with
    | refl => exact hp
    | tail _ hstep hsize => exact ih hstep hsize

/-- What a match goes over is what the expression tests for. -/
theorem Matches.crosses (h : r.Matches t p q) (hp : p ≤ i) (hi : i < q) (hc : t.charAt i = some c) :
    r.crosses c = true := by
  induction r generalizing p q with
  | char test =>
    obtain ⟨d, hd, htest, rfl⟩ := h
    rcases Nat.lt_or_eq_of_le hp with hlt | rfl
    · have hinside := Text.isBoundary_inside hd hlt hi
      rw [Text.isBoundary_of_charAt hc] at hinside
      cases hinside
    · rw [hd] at hc
      cases hc
      exact htest
  | wordBoundary =>
    have := h.2
    omega
  | empty =>
    have : p = q := h
    omega
  | seq a b iha ihb =>
    obtain ⟨m, ha, hb⟩ := h
    rw [Regex.crosses, Bool.or_eq_true]
    rcases Nat.lt_or_ge i m with hlt | hge
    · exact .inl (iha ha hp hlt)
    · exact .inr (ihb hb hge hi)
  | alt a b iha ihb =>
    rw [Regex.crosses, Bool.or_eq_true]
    exact h.imp (fun ha => iha ha hp hi) (fun hb => ihb hb hp hi)
  | star a ih =>
    induction h with
    | refl => omega
    | @tail m q _ hstep hbefore =>
      rcases Nat.lt_or_ge i m with hlt | hge
      · exact hbefore hlt
      · exact ih hstep hge hi

theorem matches_word : (word w).Matches t p q ↔ t.startsWith p w = true ∧ p + byteLength w = q := by
  induction w generalizing p with
  | nil => simp [word, Matches, Text.startsWith, byteLength]
  | cons c w ih =>
    simp only [word, exactly, Matches, ih, Text.startsWith, byteLength, Bool.and_eq_true, beq_iff_eq]
    constructor
    · rintro ⟨m, ⟨d, hd, rfl, rfl⟩, hw, rfl⟩
      rw [Text.next_of_charAt hd] at hw ⊢
      exact ⟨⟨hd, hw⟩, by omega⟩
    · rintro ⟨⟨hc, hw⟩, rfl⟩
      refine ⟨t.next p, ⟨c, hc, rfl, rfl⟩, ?_, ?_⟩
      · rw [Text.next_of_charAt hc]
        exact hw
      · rw [Text.next_of_charAt hc]
        omega

/-- Characters of a class that stand in the text, as many as there are from `p` to `q`. -/
def run (test : Char → Bool) : Regex := (char test).star

theorem matches_run_cons (hc : t.charAt p = some c) (htest : test c = true)
    (h : (run test).Matches t (t.next p) q) : (run test).Matches t p q :=
  .head ⟨c, hc, htest, rfl⟩ h

theorem matches_plus_char : (plus (char test)).Matches t p q ↔ p < q ∧ (run test).Matches t p q := by
  constructor
  · rintro ⟨m, hfirst, hrest⟩
    have hle : m ≤ q := Matches.le (r := (char test).star) hrest
    obtain ⟨c, hc, htest, rfl⟩ := hfirst
    have hlt := t.lt_next p
    exact ⟨by omega, matches_run_cons hc htest hrest⟩
  · rintro ⟨hlt, h⟩
    rcases Relation.ReflTransGen.cases_head h with rfl | ⟨m, hfirst, hrest⟩
    · omega
    · exact ⟨m, hfirst, hrest⟩

/-- A run may begin at any of its characters. -/
theorem matches_run_suffix (h : (run test).Matches t p q) (hi : t.isBoundary i = true) (hp : p ≤ i)
    (hq : i ≤ q) : (run test).Matches t i q := by
  induction h using Relation.ReflTransGen.head_induction_on with
  | refl =>
    obtain rfl := Nat.le_antisymm hp hq
    exact .refl
  | @head p m hstep hrest ih =>
    rcases Nat.lt_or_eq_of_le hp with hlt | rfl
    · obtain ⟨c, hc, -, rfl⟩ := hstep
      exact ih (Text.next_le_of_isBoundary hc hlt hi)
    · exact .head hstep hrest

theorem matches_run_of_startsWith (hw : ∀ c ∈ w, test c = true) (h : t.startsWith p w = true) :
    (run test).Matches t p (p + byteLength w) := by
  induction w generalizing p with
  | nil => exact .refl
  | cons c w ih =>
    obtain ⟨hc, hw⟩ := List.forall_mem_cons.mp hw
    simp only [Text.startsWith, Bool.and_eq_true, beq_iff_eq] at h
    have hrest := ih hw h.2
    rw [← Text.next_of_charAt h.1] at hrest
    rw [byteLength, ← Nat.add_assoc, ← Text.next_of_charAt h.1]
    exact matches_run_cons h.1 hc hrest

end Regex

namespace Text

/-- No character that passes the test stands at `p`. -/
def Ends (t : Text) (test : Char → Bool) (p : Nat) : Prop := ∀ c, t.charAt p = some c → test c = false

end Text

/-- There is one run of all the characters that there are. -/
theorem Regex.matches_run_unique {t : Text} {test : Char → Bool} {p q q' : Nat}
    (h : (run test).Matches t p q) (hq : t.Ends test q) (h' : (run test).Matches t p q')
    (hq' : t.Ends test q') : q = q' := by
  induction h using Relation.ReflTransGen.head_induction_on with
  | refl =>
    rcases Relation.ReflTransGen.cases_head h' with heq | ⟨m, ⟨c, hc, htest, -⟩, -⟩
    · exact heq
    · rw [hq c hc] at htest
      cases htest
  | @head p m hstep hrest ih =>
    obtain ⟨c, hc, htest, rfl⟩ := hstep
    rcases Relation.ReflTransGen.cases_head h' with rfl | ⟨m, ⟨_, -, -, rfl⟩, hrest'⟩
    · rw [hq' c hc] at htest
      cases htest
    · exact ih hrest'

end BraceScopes
