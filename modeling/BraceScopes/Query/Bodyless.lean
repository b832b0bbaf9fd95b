import BraceScopes.Session
/-!
Methods that are declared without a body.
-/
namespace BraceScopes

namespace Session

/-- The method whose declaration ends with the semicolon at `p`, inside the scope of brace `owner`. -/
def bodyless? (s : Session) (ix : Lexed) (owner p : Nat) : Option Scope :=
  match Detect.methodOrStatement s.config ix p with
  | some found =>
    if found.kind = .method then some ⟨.method, found.name, found.start, p, some owner⟩ else none
  | none => none

def directlyIn (ix : Lexed) (brace p : Nat) : Bool := (ix.classify p).enclosing.head? == some brace

/-- Where the body of a brace ends; a body that is not closed ends with the text. -/
def bodyEnd (ix : Lexed) (brace : Nat) : Nat := (ix.closeOf brace).getD ix.text.size

/-- The abstract methods that stand directly in the body of a brace. -/
def abstractIn (s : Session) (ix : Lexed) (brace : Nat) : List Scope :=
  let stop := bodyEnd ix brace
  let keywords := (ix.searchForwardAll .abstractKeyword (brace + 1) stop).filter fun keyword =>
    directlyIn ix brace keyword.start
  keywords.filterMap fun keyword =>
    match ix.searchForward .memberEnd keyword.stop stop 1 with
    | some found =>
      if ix.text.charAt found.start = some ';' then s.bodyless? ix brace found.start else none
    | none => none

def classAbstractMethods (s : Session) : List Scope × Session :=
  let s := s.resolve
  let ix := s.lexed
  let owners := s.store.scopes.filter fun scope =>
    scope.kind.isClassLike && scope.kind != .interfaceBody
  (owners.flatMap fun owner => s.abstractIn ix owner.openBrace, s)

def bodylessIn (s : Session) (ix : Lexed) (brace : Nat) : List Scope :=
  let semicolons := ix.searchForwardAll .semicolon (brace + 1) (bodyEnd ix brace)
  (semicolons.filter fun m => directlyIn ix brace m.start).filterMap fun m =>
    s.bodyless? ix brace m.start

/-- The methods without a body of an interface. Only interfaces are looked at. -/
def interfaceAbstractMethods (s : Session) (owner : Scope) : List Scope × Session :=
  if owner.kind ≠ .interfaceBody then ([], s)
  else
    let s := s.resolve
    let ix := s.lexed
    if ix.text.charAt owner.openBrace = some '{' then (s.bodylessIn ix owner.openBrace, s) else ([], s)

end Session

end BraceScopes
