import BraceScopes.Scan.Pattern
/-!
The words and characters that declarations are searched for.
-/
namespace BraceScopes

namespace Pattern

def typeKeyword : Pattern := .words ["class".toList, "interface".toList, "enum".toList]

def typeClause : Pattern := .words ["extends".toList, "implements".toList, "permits".toList]

def throwsClause : Pattern := .words ["throws".toList]

def abstractKeyword : Pattern := .words ["abstract".toList]

def closeParen : Pattern := .oneOf [')']

/-- What ends the declaration before. -/
def declarationBoundary : Pattern := .oneOf [';', '{', '}', ')']

/-- What ends a member of a body. -/
def memberEnd : Pattern := .oneOf [';', '{', '}']

def semicolon : Pattern := .oneOf [';']

end Pattern

end BraceScopes
