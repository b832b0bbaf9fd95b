import BraceScopes.Session
/-!
Questions about scopes by place. Every question first brings the session up to date, and comes with
the session after that.
-/
namespace BraceScopes

/-- A scope with the scopes around it, innermost first. -/
structure Detached where
  scope : Scope
  ancestors : List Scope
deriving DecidableEq

namespace Store

/-- A scope of the store with those scopes around it that `keep` accepts. -/
def detach (s : Store) (scope : Scope) (keep : Scope → Bool) : Detached :=
  ⟨scope, (s.ancestors scope.openBrace).filter keep⟩

end Store

namespace Session

def scopeAt (s : Session) (brace : Nat) : Option Annotation × Session :=
  let s := s.resolve
  (s.store.get? brace, s)

/-- The innermost scope around an offset that `accept` accepts. -/
def enclosingScope (s : Session) (offset : Nat) (accept : Scope → Bool) : Option Detached × Session :=
  let s := s.resolve
  let braces := (classify s.text s.rules offset).enclosing.filter fun o => s.text.charAt o == some '{'
  let found := (braces.filterMap s.store.scope?).find? accept
  (found.map fun scope => s.store.detach scope fun _ => true, s)

/-- The scopes that `accept` accepts whose brace lies in an interval, each with those scopes around it
that `keep` accepts. -/
def allScopes (s : Session) (i : Interval) (accept keep : Scope → Bool) : List Detached × Session :=
  let s := s.resolve
  let found := ((s.store.range i).filterMap (·.2.scope?)).filter accept
  (found.map fun scope => s.store.detach scope keep, s)

/-- The start of the declaration whose name contains an offset, not before `bound`. -/
def declarationStart (s : Session) (offset : Nat) (bound : Option Nat) : Nat × Session :=
  let s := s.resolve
  (s.lexed.declarationStart offset (bound.getD 0), s)

end Session

end BraceScopes
