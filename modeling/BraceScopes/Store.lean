import BraceScopes.Detect.Basic
/-!
What is known about the braces of a text: an annotation for each brace that was looked at, in the order
of the text.
-/
namespace BraceScopes

structure Scope where
  kind : ScopeKind
  name : String
  /-- Where the declaration of the scope begins. -/
  start : Option Nat
  /-- The brace, or the semicolon of a method without a body. -/
  openBrace : Nat
  /-- The brace of the scope around this one. -/
  parent : Option Nat
deriving DecidableEq

inductive Annotation where
  | scope (s : Scope)
  /-- No detector accepts the brace, or one around it is unknown. -/
  | unknown
deriving DecidableEq

namespace Annotation

def scope? : Annotation → Option Scope
  | .scope s => some s
  | .unknown => none

@[simp] theorem scope?_scope (s : Scope) : scope? (.scope s) = some s := rfl

@[simp] theorem scope?_unknown : scope? .unknown = none := rfl

def isUnknown : Annotation → Bool
  | .scope _ => false
  | .unknown => true

end Annotation

/-- One end of an interval. -/
inductive Bound where
  | unbounded
  | included (p : Nat)
  | excluded (p : Nat)
deriving DecidableEq

namespace Bound

/-- Whether an offset lies behind a lower end. -/
def admitsFrom : Bound → Nat → Bool
  | .unbounded, _ => true
  | .included a, p => a ≤ p
  | .excluded a, p => a < p

/-- Whether an offset lies before an upper end. -/
def admitsTo : Bound → Nat → Bool
  | .unbounded, _ => true
  | .included b, p => p ≤ b
  | .excluded b, p => p < b

/-- Whether a lookup may go from one end to another. It may not go backward, nor from an offset to itself
where neither end includes it. -/
def reaches : Bound → Bound → Bool
  | .unbounded, _ | _, .unbounded => true
  | .excluded a, .excluded b => a < b
  | .included a, .included b | .included a, .excluded b | .excluded a, .included b => a ≤ b

end Bound

/-- A stretch of offsets to look up. There is none that goes backward: such a lookup aborts. -/
structure Interval where
  lower : Bound
  upper : Bound
  reaches : lower.reaches upper = true
deriving DecidableEq

namespace Interval

def contains (i : Interval) (p : Nat) : Bool := i.lower.admitsFrom p && i.upper.admitsTo p

end Interval

/-- Annotations by brace, ascending. -/
structure Store where
  entries : List (Nat × Annotation)
  ascending : entries.Pairwise fun a b => a.1 < b.1
deriving DecidableEq

namespace Store

def empty : Store := ⟨[], .nil⟩

def size (s : Store) : Nat := s.entries.length

def isEmpty (s : Store) : Bool := s.entries.isEmpty

def get? (s : Store) (brace : Nat) : Option Annotation := s.entries.lookup brace

def scope? (s : Store) (brace : Nat) : Option Scope := (s.get? brace).bind Annotation.scope?

/-- Puts an entry in its place, over the one of the same brace. -/
def put (brace : Nat) (a : Annotation) : List (Nat × Annotation) → List (Nat × Annotation)
  | [] => [(brace, a)]
  | e :: es =>
    if brace < e.1 then (brace, a) :: e :: es
    else if brace = e.1 then (brace, a) :: es
    else e :: put brace a es

theorem mem_put {brace : Nat} {a : Annotation} {es : List (Nat × Annotation)} {e : Nat × Annotation}
    (h : e ∈ put brace a es) : e = (brace, a) ∨ e ∈ es := by
  induction es with
  | nil => simpa [put] using h
  | cons x es ih =>
    unfold put at h
    split at h
    next => simpa using h
    next =>
      split at h
      next => grind
      next => grind

theorem pairwise_put {brace : Nat} {a : Annotation} {es : List (Nat × Annotation)}
    (h : es.Pairwise fun x y => x.1 < y.1) : (put brace a es).Pairwise fun x y => x.1 < y.1 := by
  induction es with
  | nil => simp [put]
  | cons x es ih =>
    obtain ⟨hx, hes⟩ := List.pairwise_cons.mp h
    unfold put
    split
    next hlt =>
      refine List.pairwise_cons.mpr ⟨fun y hy => ?_, h⟩
      rcases List.mem_cons.mp hy with rfl | hy
      · exact hlt
      · exact Nat.lt_trans hlt (hx y hy)
    next hle =>
      split
      next heq => exact List.pairwise_cons.mpr ⟨fun y hy => heq ▸ hx y hy, hes⟩
      next hne =>
        refine List.pairwise_cons.mpr ⟨fun y hy => ?_, ih hes⟩
        rcases mem_put hy with rfl | hy
        · simp only
          omega
        · exact hx y hy

def insert (s : Store) (brace : Nat) (a : Annotation) : Store :=
  ⟨put brace a s.entries, pairwise_put s.ascending⟩

def modify (s : Store) (brace : Nat) (f : Annotation → Annotation) : Store :=
  ⟨s.entries.map fun e => (e.1, if e.1 = brace then f e.2 else e.2),
    List.pairwise_map.mpr s.ascending⟩

def clearFrom (s : Store) (p : Nat) : Store := ⟨s.entries.filter (·.1 < p), s.ascending.filter _⟩

/-- The entries whose brace lies in an interval, ascending. -/
def range (s : Store) (i : Interval) : List (Nat × Annotation) := s.entries.filter (i.contains ·.1)

def scopes (s : Store) : List Scope := s.entries.filterMap (·.2.scope?)

def unknownCount (s : Store) : Nat := (s.entries.filter (·.2.isUnknown)).length

/-- Follows at most `n` links from a brace to the scopes around it. -/
def climb (s : Store) : Nat → Option Nat → List Scope
  | 0, _ => []
  | _, none => []
  | n + 1, some brace =>
    match s.scope? brace with
    | some scope => scope :: climb s n scope.parent
    | none => []

/-- The scopes around the scope of a brace, innermost first. No chain of links is longer than the
store. -/
def ancestors (s : Store) (brace : Nat) : List Scope :=
  s.climb s.size ((s.scope? brace).bind (·.parent))

end Store

end BraceScopes
