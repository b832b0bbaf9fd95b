import BraceScopes.Text.Basic
import BraceScopes.Text.WordChar
/-!
The patterns that code is searched for, and their leftmost matches. A search is cut off at a limit: no
character at or after it is seen. The characters before the place where a search starts are seen, but
no match begins there.
-/
namespace BraceScopes

structure Span where
  start : Nat
  stop : Nat
deriving DecidableEq

inductive Pattern where
  /-- One of some words, with a word boundary on either side; earlier words win. -/
  | words (ws : List (List Char))
  | oneOf (cs : List Char)
  | literal (w : List Char)
  /-- As many word characters as there are, and at least one. -/
  | wordRun
  /-- Nothing, which is found everywhere. -/
  | empty
deriving DecidableEq

namespace Pattern

/-- Whether exactly one of the characters beside gap `p` is a word character. -/
def wordBoundary (t : Text) (limit p : Nat) : Bool :=
  let before := (t.charBefore p).any fun (_, c) => isWordChar c
  let after := p < limit && (t.charAt p).any isWordChar
  before != after

/-- The end of the word characters from `p` on. -/
def wordEnd (t : Text) (limit p : Nat) : Nat :=
  if p < limit && (t.charAt p).any isWordChar then wordEnd t limit (t.next p) else p
termination_by limit - p
decreasing_by
  have := t.lt_next p
  simp_all
  omega

/-- Where a match that begins at `p` stops. -/
def matchAt? (t : Text) (limit p : Nat) : Pattern → Option Nat
  | .words ws =>
    if wordBoundary t limit p then
      ws.findSome? fun w =>
        let q := p + byteLength w
        if t.startsWith p w && q ≤ limit && wordBoundary t limit q then some q else none
    else none
  | .oneOf cs =>
    if p < limit then (t.charAt p).bind fun c => if cs.contains c then some (p + c.utf8Size) else none
    else none
  | .literal w =>
    let q := p + byteLength w
    if t.startsWith p w && q ≤ limit then some q else none
  | .wordRun => if p < limit && (t.charAt p).any isWordChar then some (wordEnd t limit p) else none
  | .empty => some p

/-- The first match that begins at one of the `n` offsets from `p` on. -/
def firstMatch? (t : Text) (limit : Nat) (pat : Pattern) (p : Nat) : Nat → Option Span
  | 0 => none
  | n + 1 =>
    match pat.matchAt? t limit p with
    | some q => some ⟨p, q⟩
    | none => firstMatch? t limit pat (p + 1) n

/-- The leftmost match that begins at or after `p`. -/
def find? (t : Text) (limit : Nat) (pat : Pattern) (p : Nat) : Option Span :=
  firstMatch? t limit pat p (limit + 1 - p)

/-- Where the search for the next match begins: after a match, or one character on when it was
empty. -/
def resume (t : Text) (m : Span) : Nat := if m.start < m.stop then m.stop else t.next m.start

theorem of_firstMatch {t : Text} {limit : Nat} {pat : Pattern} {p n : Nat} {m : Span}
    (h : firstMatch? t limit pat p n = some m) : p ≤ m.start ∧ m.start < p + n := by
  induction n generalizing p with
  | zero => simp [firstMatch?] at h
  | succ n ih =>
    unfold firstMatch? at h
    split at h
    next => cases h; constructor <;> simp
    next => have := ih h; omega

/-- A match begins where the search began or later, and not past the limit. -/
theorem of_find {t : Text} {limit : Nat} {pat : Pattern} {p : Nat} {m : Span}
    (h : pat.find? t limit p = some m) : p ≤ m.start ∧ m.start ≤ limit := by
  have := of_firstMatch h
  omega

theorem lt_resume (t : Text) (m : Span) : m.start < resume t m := by
  unfold resume
  split
  next h => exact h
  next => exact t.lt_next _

end Pattern

end BraceScopes
