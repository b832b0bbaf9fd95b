import BraceScopes.Text.Blank
/-!
What is logged.
-/
namespace BraceScopes

structure Logging where
  level : String := "info"
  /-- Whether events are written as JSON. -/
  json : Bool := false
deriving DecidableEq

namespace Logging

def trimmed (s : String) : String := String.ofList (trimBlanks s.toList)

/-- The configured level, where an empty one means the usual level. -/
def effectiveLevel (l : Logging) : String :=
  match trimmed l.level with
  | "" => "info"
  | "warning" => "warn"
  | "WARNING" => "warn"
  | level => level

/-- The level followed by further directives, which win for the targets that they name. -/
def directives (l : Logging) (further : Option String) : String :=
  match trimmed (further.getD "") with
  | "" => l.effectiveLevel
  | extra => l.effectiveLevel ++ "," ++ extra

end Logging

end BraceScopes
