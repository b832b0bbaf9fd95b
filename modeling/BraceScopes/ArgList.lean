import BraceScopes.Scan.Declaration
import BraceScopes.Scan.Pattern
/-!
Comma-separated lists of types, with or without a name after each type. Lists are read from their end,
because that is where the name of an entry stands.
-/
namespace BraceScopes

/-- An entry of a list: its type without modifiers and annotations, and its name where names are
asked for. -/
structure Arg where
  ty : String
  name : Option String
deriving DecidableEq

/-- A list that cannot be read, with the place of the trouble. -/
structure MalformedArgument where
  pos : Nat
deriving DecidableEq

namespace MalformedArgument

def message (e : MalformedArgument) : String := s!"malformed argument list at offset {e.pos}"

end MalformedArgument

namespace ArgList

/-- What was read of an entry from its end: how many array brackets stand after the name, the name,
and where the name begins. -/
structure Tail where
  dims : Nat
  name : Option String
  pos : Nat
deriving DecidableEq

/-- What was read of a type: its pieces from left to right, the comma before it, and where it
begins. -/
structure TypePieces where
  pieces : List Piece
  comma : Option Nat
  pos : Nat
deriving DecidableEq

/-- Goes back over array brackets and counts them. -/
def dimsBefore (ix : Lexed) (start count p : Nat) : Nat × Nat :=
  match _h : ix.pieceBefore? .angle p start with
  | some u => if u.kind = .group '[' then dimsBefore ix start (count + 1) u.start else (count, p)
  | none => (count, p)
termination_by p
decreasing_by exact Lexed.pieceBefore_lt _h

/-- Reads a name and the array brackets after it. A part of a qualified name or of an annotation is no
name. -/
def tailBefore (ix : Lexed) (start p : Nat) : Except MalformedArgument Tail :=
  let (dims, q) := dimsBefore ix start 0 p
  match ix.pieceBefore? .normal q start with
  | none => .error ⟨q⟩
  | some u =>
    if u.kind ≠ .ident then .error ⟨q⟩
    else if (ix.text.charBefore u.start).any fun (_, c) => c == '.' || c == '@' then .error ⟨u.start⟩
    else .ok ⟨dims, some (ix.text.word u.start u.stop), u.start⟩

/-- Reads the pieces of a type back to a comma or to the start of the list, where `pieces` were read
already. -/
def typeBefore (ix : Lexed) (start : Nat) (pieces : List Piece) (p : Nat) :
    Except MalformedArgument TypePieces :=
  match _h : ix.pieceBefore? .angle p start with
  | none => if start < ix.skipTriviaBack p start then .error ⟨p⟩ else .ok ⟨pieces, none, p⟩
  | some u =>
    match u.kind with
    | .punct ',' => .ok ⟨pieces, some u.start, p⟩
    | .ident => typeBefore ix start (u :: pieces) u.start
    | .group '(' => typeBefore ix start (u :: pieces) u.start
    | .group '[' => typeBefore ix start (u :: pieces) u.start
    | .group '<' => typeBefore ix start (u :: pieces) u.start
    | _ => .error ⟨u.start⟩
termination_by p
decreasing_by all_goals exact Lexed.pieceBefore_lt _h

/-- Strikes modifiers, annotations and the arguments of annotations from the pieces of a type.
`annotated` says whether an annotation stands right before. -/
def strike (ix : Lexed) (annotated : Bool) : List Piece → List (Option Piece)
  | [] => []
  | u :: us =>
    if annotated && u.kind == .group '(' then none :: strike ix false us
    else if u.kind == .ident && ix.text.charAt u.start == some '@' then none :: strike ix true us
    else if ix.isWord u "final" then none :: strike ix false us
    else some u :: strike ix false us

/-- The stretches of neighbouring pieces that are left. -/
def segments : List (Option Piece) → List Span
  | [] => []
  | none :: us => segments us
  | some u :: some v :: us =>
    match segments (some v :: us) with
    | s :: ss => ⟨u.start, s.stop⟩ :: ss
    | [] => [⟨u.start, u.stop⟩]
  | some u :: us => ⟨u.start, u.stop⟩ :: segments us

/-- The text of a type, unless nothing of it is left. -/
def typeText? (ix : Lexed) (pieces : List Piece) : Option String :=
  match segments (strike ix false pieces) with
  | [] => none
  | ss => some (" ".intercalate (ss.map fun s => String.ofList (ix.normalized s.start s.stop)))

/-- Reads the entry that ends at `p`, and the comma before it. Array brackets after the name belong to
the type. -/
def entryBefore (ix : Lexed) (typesOnly : Bool) (start p : Nat) :
    Except MalformedArgument (Arg × Option Nat) :=
  match if typesOnly then .ok ⟨0, none, p⟩ else tailBefore ix start p with
  | .error e => .error e
  | .ok tail =>
    match typeBefore ix start [] tail.pos with
    | .error e => .error e
    | .ok found =>
      match typeText? ix found.pieces with
      | none => .error ⟨found.pos⟩
      | some ty => .ok (⟨ty ++ String.join (List.replicate tail.dims "[]"), tail.name⟩, found.comma)

theorem dimsBefore_le (ix : Lexed) (start count p : Nat) : (dimsBefore ix start count p).2 ≤ p := by
  fun_induction dimsBefore ix start count p with
  | case1 count p u hu hk ih =>
    have := Lexed.pieceBefore_lt hu
    omega
  | case2 => exact Nat.le_refl _
  | case3 => exact Nat.le_refl _

theorem tailBefore_le {ix : Lexed} {start p : Nat} {tail : Tail}
    (h : tailBefore ix start p = .ok tail) : tail.pos ≤ p := by
  unfold tailBefore at h
  have hle := dimsBefore_le ix start 0 p
  generalize dimsBefore ix start 0 p = found at h hle
  obtain ⟨dims, q⟩ := found
  simp only at h hle
  split at h
  next => simp at h
  next u hu =>
    have := Lexed.pieceBefore_lt hu
    split at h
    next => simp at h
    next =>
      split at h
      next => simp at h
      next =>
        cases h
        simp only
        omega

theorem typeBefore_comma_lt {ix : Lexed} {start p c : Nat} {pieces : List Piece} {found : TypePieces}
    (h : typeBefore ix start pieces p = .ok found) (hc : found.comma = some c) : c < p := by
  fun_induction typeBefore ix start pieces p with
  | case1 => simp at h
  | case2 => cases h; simp at hc
  | case3 pieces p u hu hk =>
    cases h
    simp only [Option.some.injEq] at hc
    subst hc
    exact Lexed.pieceBefore_lt hu
  | case4 pieces p u hu hk ih | case5 pieces p u hu hk ih | case6 pieces p u hu hk ih
  | case7 pieces p u hu hk ih =>
    have := Lexed.pieceBefore_lt hu
    have := ih h
    omega
  | case8 => simp at h

/-- The comma before an entry stands before the end of that entry. -/
theorem entryBefore_comma_lt {ix : Lexed} {typesOnly : Bool} {start p c : Nat} {arg : Arg}
    (h : entryBefore ix typesOnly start p = .ok (arg, some c)) : c < p := by
  unfold entryBefore at h
  split at h
  next => simp at h
  next tail ht =>
    have hle : tail.pos ≤ p := by
      split at ht
      next => cases ht; exact Nat.le_refl _
      next => exact tailBefore_le ht
    split at h
    next => simp at h
    next found hf =>
      split at h
      next => simp at h
      next =>
        simp only [Except.ok.injEq, Prod.mk.injEq] at h
        have := typeBefore_comma_lt hf h.2
        omega

/-- Reads the entries that end at `p`, in front of those in `args`. -/
def entriesBefore (ix : Lexed) (typesOnly : Bool) (start : Nat) (args : List Arg) (p : Nat) :
    Except MalformedArgument (List Arg) :=
  match _h : entryBefore ix typesOnly start p with
  | .error e => .error e
  | .ok (arg, none) => .ok (arg :: args)
  | .ok (arg, some comma) => entriesBefore ix typesOnly start (arg :: args) comma
termination_by p
decreasing_by exact entryBefore_comma_lt _h

/-- Reads the list in `[start, stop)`. -/
def parse (ix : Lexed) (typesOnly : Bool) (start stop : Nat) : Except MalformedArgument (List Arg) :=
  if ix.skipTriviaBack stop start ≤ start then .ok [] else entriesBefore ix typesOnly start [] stop

end ArgList

end BraceScopes
