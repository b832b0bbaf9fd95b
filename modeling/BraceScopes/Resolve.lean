import BraceScopes.Store
/-!
Resolving the braces of a text. First the braces are classified from the last to the first; a brace
inside the declaration of a later scope, on the same level, belongs to that declaration and is left
out. Then every brace is linked to the nearest one around it that has an annotation, and is unknown
when that one is.
-/
namespace BraceScopes

namespace Resolve

/-- The declaration of a scope: where it begins, its brace, and the bracket around that brace. -/
structure Declaration where
  start : Nat
  brace : Nat
  parent : Option Nat
deriving DecidableEq

/-- Whether a brace stands inside a declaration, on the level of its brace. -/
def Declaration.covers (d : Declaration) (ix : Lexed) (brace : Nat) : Bool :=
  d.start ≤ brace && brace < d.brace && ix.parentOf brace == d.parent

/-- A brace that was classified, with the detector that accepted it. -/
structure Visit where
  brace : Nat
  found : Option (String × Detection)
deriving DecidableEq

/-- Classifies braces, given from the last to the first, where `last` is the declaration found last. -/
def classifyBack (chain : List Detector) (cfg : ScopeConfig) (ix : Lexed) :
    Option Declaration → List Nat → List Visit
  | _, [] => []
  | last, b :: bs =>
    if last.any fun d => d.covers ix b then classifyBack chain cfg ix last bs
    else
      let found := firstAccepting? chain cfg ix b
      let last := match found.bind fun f => f.2.start with
        | some start => some ⟨start, b, ix.parentOf b⟩
        | none => last
      ⟨b, found⟩ :: classifyBack chain cfg ix last bs

/-- The visits of all braces at or after `p`, from the last to the first. -/
def visits (chain : List Detector) (cfg : ScopeConfig) (ix : Lexed) (p : Nat) : List Visit :=
  classifyBack chain cfg ix none (ix.bracesFrom p).reverse

/-- The nearest brace around a brace that has an annotation. -/
def annotatedAround? (ix : Lexed) (store : Store) (brace : Nat) : Option (Nat × Annotation) :=
  ((ix.ancestors brace).filter ix.isBrace).findSome? fun o => (store.get? o).map fun a => (o, a)

/-- The annotation of a brace, given the annotations of the braces before it. -/
def annotate (ix : Lexed) (store : Store) (v : Visit) : Annotation :=
  match v.found, annotatedAround? ix store v.brace with
  | some (_, found), none => .scope ⟨found.kind, found.name, found.start, v.brace, none⟩
  | some (_, found), some (o, .scope _) => .scope ⟨found.kind, found.name, found.start, v.brace, some o⟩
  | _, _ => .unknown

/-- Adds the annotations of visits, given from the first brace to the last. -/
def link (ix : Lexed) (store : Store) (vs : List Visit) : Store :=
  vs.foldl (fun s v => s.insert v.brace (annotate ix s v)) store

/-- Annotates the braces at or after `p` anew and keeps the annotations before. -/
def run (chain : List Detector) (cfg : ScopeConfig) (ix : Lexed) (store : Store) (p : Nat) : Store :=
  link ix (store.clearFrom p) (visits chain cfg ix p).reverse

end Resolve

end BraceScopes
