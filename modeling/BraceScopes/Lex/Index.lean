import BraceScopes.Bisect
import BraceScopes.Lex.State
/-!
A text lexed once, so that questions about any place take logarithmic time.
-/
namespace BraceScopes

structure Bracket where
  pos : Nat
  /-- The closing bracket that ended it, of whatever type. -/
  closed : Option Nat
  /-- Whether that closing bracket has its type. -/
  matched : Bool
  /-- The brackets around it, innermost first. -/
  enclosing : List Nat
deriving DecidableEq

/-- A closing bracket of code, with the opening bracket of its type that it ended. -/
structure Closer where
  pos : Nat
  opener : Option Nat
deriving DecidableEq

/-- A text with its comments, literals and brackets, each in the order of the text. -/
structure Lexed where
  text : Text
  rules : Rules
  regions : Array Region
  brackets : Array Bracket
  closers : Array Closer

namespace Lexed

/-- How many brackets open before `p`. -/
def countBefore (brackets : Array Bracket) (p : Nat) : Nat :=
  bisect (fun i => brackets[i]?.any (·.pos < p)) 0 brackets.size

/-- Takes one event into account, with `stack` the brackets open so far. -/
def addEvent (s : Lexed × List Nat) (e : Event) : Lexed × List Nat :=
  let (ix, stack) := s
  match e with
  | .region r => ({ ix with regions := ix.regions.push r }, stack)
  | .opened p => ({ ix with brackets := ix.brackets.push ⟨p, none, false, stack⟩ }, p :: stack)
  | .closed p =>
    match stack with
    | [] => ({ ix with closers := ix.closers.push ⟨p, none⟩ }, [])
    | o :: rest =>
      let matched := (ix.text.charAt p).bind openerOf == ix.text.charAt o
      let slot := countBefore ix.brackets o
      ({ ix with
          brackets := ix.brackets.modify slot fun b => { b with closed := some p, matched }
          closers := ix.closers.push ⟨p, if matched then some o else none⟩ }, rest)

def ofText (t : Text) (r : Rules) : Lexed :=
  ((Lex.events t r).foldl addEvent (⟨t, r, #[], #[], #[]⟩, [])).1

/-- The last region that starts before gap `p`. -/
def regionBefore? (ix : Lexed) (p : Nat) : Option Region :=
  match bisect (fun i => ix.regions[i]?.any (·.start < p)) 0 ix.regions.size with
  | 0 => none
  | n + 1 => ix.regions[n]?

/-- The comment or string that the character at `p` belongs to. -/
def regionAtChar? (ix : Lexed) (p : Nat) : Option Region :=
  (ix.regionBefore? (p + 1)).filter (·.containsChar p)

/-- The comment or string around the gap before `p`. -/
def regionAtGap? (ix : Lexed) (p : Nat) : Option Region :=
  (ix.regionBefore? p).filter (·.containsGap p)

def isCode (ix : Lexed) (p : Nat) : Bool := (ix.regionAtChar? p).isNone

def bracketAt? (ix : Lexed) (p : Nat) : Option Bracket :=
  (ix.brackets[countBefore ix.brackets p]?).filter (·.pos == p)

/-- Whether the bracket at `o` is closed before gap `p`. -/
def closedBefore (ix : Lexed) (p o : Nat) : Bool :=
  ((ix.bracketAt? o).bind (·.closed)).any (· < p)

/-- The brackets open at gap `p`, innermost first: of the last bracket that opens before it and those
around that one, the ones that are not closed yet. -/
def openAt (ix : Lexed) (p : Nat) : List Nat :=
  match countBefore ix.brackets p with
  | 0 => []
  | n + 1 =>
    match ix.brackets[n]? with
    | some b => (b.pos :: b.enclosing).dropWhile (ix.closedBefore p)
    | none => []

/-- The lexical state at gap `p`, where gaps past the end count as the end. -/
def classify (ix : Lexed) (p : Nat) : LexState :=
  let p := min p ix.text.size
  ⟨(ix.regionAtGap? p).map fun r => (r.kind, r.start), ix.openAt p⟩

/-- The brackets around the bracket that opens at `o`, innermost first. -/
def ancestors (ix : Lexed) (o : Nat) : List Nat := ((ix.bracketAt? o).map (·.enclosing)).getD []

/-- The bracket directly around the one that opens at `o`. -/
def parentOf (ix : Lexed) (o : Nat) : Option Nat := (ix.ancestors o).head?

/-- The partner of the opening bracket at `o`. -/
def closeOf (ix : Lexed) (o : Nat) : Option Nat :=
  (ix.bracketAt? o).bind fun b => if b.matched then b.closed else none

/-- The partner of the closing bracket at `c`. -/
def openOf (ix : Lexed) (c : Nat) : Option Nat :=
  let slot := bisect (fun i => ix.closers[i]?.any (·.pos < c)) 0 ix.closers.size
  ((ix.closers[slot]?).filter (·.pos == c)).bind (·.opener)

def isBrace (ix : Lexed) (o : Nat) : Bool := ix.text.charAt o == some '{'

/-- The opening braces of code at or after `p`, ascending. -/
def bracesFrom (ix : Lexed) (p : Nat) : List Nat :=
  ((ix.brackets.toList.drop (countBefore ix.brackets p)).map (·.pos)).filter ix.isBrace

/-- The braces open at gap `p`, innermost first. -/
def bracesAround (ix : Lexed) (p : Nat) : List Nat := (ix.classify p).enclosing.filter ix.isBrace

/-- Just inside the innermost bracket around gap `p`, or the start of the text. -/
def bodyStart (ix : Lexed) (p : Nat) : Nat :=
  match (ix.classify p).enclosing with
  | [] => 0
  | o :: _ => o + 1

/-- The region of a character begins at or before it and ends after it. -/
theorem of_regionAtChar {ix : Lexed} {p : Nat} {r : Region} (h : ix.regionAtChar? p = some r) :
    r.start ≤ p ∧ p < r.stop := by
  have h := (Option.filter_eq_some_iff.mp h).2
  simpa [Region.containsChar] using h

/-- The region around a gap begins before it. -/
theorem of_regionAtGap {ix : Lexed} {p : Nat} {r : Region} (h : ix.regionAtGap? p = some r) :
    r.start < p := by
  have h := (Option.filter_eq_some_iff.mp h).2
  simp only [Region.containsGap, Bool.and_eq_true, decide_eq_true_eq] at h
  exact h.1

end Lexed

end BraceScopes
