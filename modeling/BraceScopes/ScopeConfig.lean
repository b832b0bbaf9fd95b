/-!
The words and characters that scope detection goes by.
-/
namespace BraceScopes

structure ScopeConfig where
  /-- Words that introduce a block right before its brace or before a group and its brace. -/
  statementKeywords : List String :=
    ["if", "else", "for", "while", "do", "switch", "try", "catch", "finally", "static", "synchronized"]
  /-- Characters after which a brace begins an array. -/
  arrayPredecessors : List Char := [',', ']', '=']
deriving DecidableEq

namespace ScopeConfig

def isStatementKeyword (c : ScopeConfig) (w : String) : Bool := c.statementKeywords.contains w

end ScopeConfig

end BraceScopes
