import BraceScopes.ArgList
import BraceScopes.Detect.Basic
import BraceScopes.Detect.Keyword
import BraceScopes.Scan.Clause
import BraceScopes.Scan.Skip
/-!
The five detectors and their usual order. Code that does not fit, such as an unbalanced bracket or a
list that cannot be read, makes a detector decline.
-/
namespace BraceScopes

namespace Detect

/-- An array begins after one of the configured characters. -/
def array (cfg : ScopeConfig) (ix : Lexed) (brace : Nat) : Option Detection :=
  match ix.stepBack? brace with
  | none => none
  | some (skipped, _) =>
    if skipped.closingChar.any cfg.arrayPredecessors.contains then some ⟨.array, "", none⟩ else none

/-- The word before gap `p` that names a type, before its type arguments if it has any. -/
def typeNameBefore? (ix : Lexed) (p : Nat) : Option Piece :=
  match ix.pieceBefore? .angle p 0 with
  | none => none
  | some u => if u.kind = .group '<' then ix.pieceBefore? .angle u.start 0 else some u

/-- An anonymous class is written `new Type(args) {`. -/
def anonClass (_cfg : ScopeConfig) (ix : Lexed) (brace : Nat) : Option Detection := do
  let args ← ix.pieceBefore? .normal brace 0
  guard (args.kind = .group '(')
  let ty ← typeNameBefore? ix args.start
  guard (ty.kind = .ident)
  let new ← ix.pieceBefore? .normal ty.start 0
  guard (ix.isWord new "new")
  return ⟨.anonClass, "<anon>" ++ ix.text.word ty.start ty.stop, some new.start⟩

/-- Where the name and type parameters end in a type header that ends at `stop`: before its clauses,
which are taken off from the right. -/
def headerEnd (ix : Lexed) (bound stop : Nat) : Nat :=
  match ix.clauseBefore? .typeClause stop bound with
  | none => stop
  | some clause => if clause.start < stop then headerEnd ix bound clause.start else stop
termination_by stop

def kindOfKeyword (w : String) : ScopeKind :=
  if w = "class" then .classBody else if w = "interface" then .interfaceBody else .enumBody

def bareName (ty : String) : String := String.ofList (dropBlanksEnd (ty.toList.takeWhile (· != '<')))

/-- The type keyword of the declaration that ends at the brace. A class literal is none. -/
def typeKeyword? (ix : Lexed) (brace : Nat) : Option Span := do
  let body := ix.bodyStart brace
  let bound := ((ix.searchBack .declarationBoundary brace body 1).map (·.stop)).getD body
  let keyword ← ix.searchBack .typeKeyword brace bound 1
  guard !((ix.text.charBefore keyword.start).any fun (_, c) => c == '.')
  return keyword

/-- A class, interface or enum declares one name after its keyword, then its clauses. -/
def classLike (_cfg : ScopeConfig) (ix : Lexed) (brace : Nat) : Option Detection := do
  let keyword ← typeKeyword? ix brace
  let args ← (ArgList.parse ix true keyword.stop (headerEnd ix keyword.stop brace)).toOption
  match args with
  | [arg] =>
    let name := bareName arg.ty
    guard (name ≠ "")
    return ⟨kindOfKeyword (ix.text.word keyword.start keyword.stop), name,
      some (ix.declarationStart keyword.start 0)⟩
  | _ => none

/-- A simple statement is a lambda arrow or a statement keyword right before the brace. -/
def simpleStatement (cfg : ScopeConfig) (ix : Lexed) (brace : Nat) : Option Detection := do
  let u ← ix.pieceBefore? .normal brace 0
  match u.kind with
  | .punct '>' =>
    guard ((ix.text.charBefore u.start).any fun (_, c) => c == '-')
    return ⟨.simpleStatement, "lambda", some (u.start - 1)⟩
  | .ident =>
    let word := ix.text.word u.start u.stop
    guard (cfg.isStatementKeyword word)
    return ⟨.simpleStatement, word, some u.start⟩
  | _ => none

/-- The parameters of a declaration that ends with a throws clause at `stop`. -/
def paramsBeforeThrows? (ix : Lexed) (stop : Nat) : Option Piece := do
  let paren ← ix.searchBack .closeParen stop (ix.bodyStart stop) 1
  let keyword ← ix.clauseBefore? .throwsClause stop paren.stop
  let thrown ← (ArgList.parse ix true keyword.stop stop).toOption
  guard !thrown.isEmpty
  let params ← ix.pieceBefore? .normal keyword.start 0
  guard (params.kind = .group '(')
  return params

/-- The parameters of a declaration that ends at `stop`, and whether a throws clause follows them. -/
def params? (ix : Lexed) (stop : Nat) : Option (Piece × Bool) := do
  let u ← ix.pieceBefore? .normal stop 0
  if u.kind = .group '(' then return (u, false)
  else return (← paramsBeforeThrows? ix stop, true)

/-- A method is a name and a list of parameters, with or without a throws clause; a statement is a
keyword and a group. The declaration ends at `stop`, with a body or without. -/
def methodOrStatement (cfg : ScopeConfig) (ix : Lexed) (stop : Nat) : Option Detection := do
  let (params, throwing) ← params? ix stop
  let ident ← ix.pieceBefore? .normal params.start 0
  guard (ident.kind = .ident)
  let word := ix.text.word ident.start ident.stop
  if !throwing && cfg.isStatementKeyword word then return ⟨.statement, word, some ident.start⟩
  let args ← (ArgList.parse ix false (params.start + 1) (params.stop - 1)).toOption
  let types := ",".intercalate (args.map (·.ty))
  return ⟨.method, word ++ "(" ++ types ++ ")", some (ix.declarationStart ident.start 0)⟩

end Detect

namespace Detector

def array : Detector := ⟨"array", Detect.array⟩

def anonClass : Detector := ⟨"anon-class", Detect.anonClass⟩

def classLike : Detector := ⟨"class-like", Detect.classLike⟩

def simpleStatement : Detector := ⟨"simple-statement", Detect.simpleStatement⟩

def methodOrStatement : Detector := ⟨"method-or-statement", Detect.methodOrStatement⟩

def standard : List Detector := [array, anonClass, classLike, simpleStatement, methodOrStatement]

end Detector

end BraceScopes
