import BraceScopes.Detect.Basic
import BraceScopes.Text.Edit
/-!
What a session reports about its work.
-/
namespace BraceScopes

namespace Trace

inductive Level where
  | trace
  | debug
  | warn
deriving DecidableEq

namespace Level

def name : Level → String
  | .trace => "TRACE"
  | .debug => "DEBUG"
  | .warn => "WARN"

end Level

inductive Field where
  | number (n : Nat)
  | text (s : String)
deriving DecidableEq

inductive Event where
  /-- An edit was made, which took out and put in so many bytes. -/
  | appliedEdit (start removed inserted : Nat)
  /-- A detector accepted a brace. -/
  | braceClassified (brace : Nat) (detector : String) (found : Detection)
  /-- The braces at or after `start` were resolved. -/
  | resolvedScopes (start braces unknown : Nat)
  /-- The configuration names no statement keywords. -/
  | noKeywords
  /-- The configuration names a statement keyword that no identifier can be. -/
  | oddKeyword (word : String)
deriving DecidableEq

namespace Event

def ofEdit (e : Edit) : Event := .appliedEdit e.range.start e.range.length e.replacement.size

def target : Event → String
  | .appliedEdit .. => "jscope.vfs"
  | .braceClassified .. => "jscope.syntax"
  | .resolvedScopes .. => "jscope.syntax"
  | .noKeywords => "jscope.config"
  | .oddKeyword _ => "jscope.config"

def level : Event → Level
  | .appliedEdit .. => .trace
  | .braceClassified .. => .trace
  | .resolvedScopes .. => .debug
  | .noKeywords => .warn
  | .oddKeyword _ => .warn

def message : Event → String
  | .appliedEdit .. => "applied edit"
  | .braceClassified .. => "brace classified"
  | .resolvedScopes .. => "resolved scopes"
  | .noKeywords =>
    "scopes.statement_keywords is empty; every `(...) \x7b` block will be read as a method"
  | .oddKeyword _ => "statement keyword is not an identifier and will never match"

def fields : Event → List (String × Field)
  | .appliedEdit start removed inserted =>
    [("start", .number start), ("removed", .number removed), ("inserted", .number inserted)]
  | .braceClassified brace detector found =>
    [("brace", .number brace), ("detector", .text detector), ("kind", .text found.kind.name),
      ("name", .text found.name)]
  | .resolvedScopes start braces unknown =>
    [("from", .number start), ("braces", .number braces), ("unknown", .number unknown)]
  | .noKeywords => []
  | .oddKeyword word => [("keyword", .text word)]

end Event

end Trace

end BraceScopes
