import BraceScopes.Rules
import BraceScopes.ScopeConfig
import BraceScopes.Settings.Decode
import BraceScopes.Settings.Logging
import BraceScopes.Toml.Reader
import BraceScopes.Trace
/-!
The settings of a workspace, and how they are read from a TOML document.
-/
namespace BraceScopes

structure Settings where
  logging : Logging := {}
  lexical : Rules := {}
  scopes : ScopeConfig := {}
deriving DecidableEq

inductive SettingsError where
  | malformed
  /-- The document holds a value that does not fit. -/
  | unfit (error : DecodeError)
  | unreadable

namespace SettingsError

/-- What is wrong with the document, where it can be said. -/
def message? : SettingsError → Option String
  | .unfit error => some ("failed to parse toml config: " ++ error.message)
  | .malformed => none
  | .unreadable => none

end SettingsError

namespace Decode

def logging : Decoder Logging :=
  record "LoggingConfig"
    [⟨"level", fun l v => (string v).map fun level => { l with level }⟩,
      ⟨"json", fun l v => (boolean v).map fun json => { l with json }⟩] {}

def rules : Decoder Rules :=
  record "Ruleset"
    [⟨"line_comment", fun r v => (string v).map fun s => { r with lineComment := some s }⟩,
      ⟨"block_comment_start", fun r v => (string v).map fun s => { r with blockCommentStart := some s }⟩,
      ⟨"block_comment_end", fun r v => (string v).map fun s => { r with blockCommentEnd := some s }⟩,
      ⟨"text_block", fun r v => (string v).map fun s => { r with textBlock := some s }⟩,
      ⟨"quotes", fun r v => (list char v).map fun quotes => { r with quotes }⟩,
      ⟨"escape", fun r v => (char v).map fun escape => { r with escape }⟩,
      ⟨"extra_ident_chars", fun r v => (list char v).map fun cs => { r with extraIdentChars := cs }⟩] {}

def scopeConfig : Decoder ScopeConfig :=
  record "ScopeConfig"
    [⟨"statement_keywords", fun c v => (list string v).map fun ws => { c with statementKeywords := ws }⟩,
      ⟨"array_predecessors", fun c v => (list char v).map fun cs => { c with arrayPredecessors := cs }⟩] {}

def settings : Decoder Settings :=
  record "Settings"
    [⟨"logging", fun s v => (logging v).map fun logging => { s with logging }⟩,
      ⟨"lexical", fun s v => (rules v).map fun lexical => { s with lexical }⟩,
      ⟨"scopes", fun s v => (scopeConfig v).map fun scopes => { s with scopes }⟩] {}

end Decode

namespace Settings

/-- Reads settings from a document. What the document does not mention has its usual value. -/
def ofToml (document : String) : Except SettingsError Settings :=
  match Toml.read? document with
  | none => .error .malformed
  | some entries =>
    match Decode.settings (.table .header entries) with
    | .ok s => .ok s
    | .error e => .error (.unfit e)

def isIdentifier (s : Settings) (word : String) : Bool :=
  !word.toList.isEmpty && word.toList.all s.lexical.isIdentChar

/-- Settings that are possible and probably not meant. -/
def warnings (s : Settings) : List Trace.Event :=
  let missing := if s.scopes.statementKeywords.isEmpty then [.noKeywords] else []
  let odd := (s.scopes.statementKeywords.find? fun w => !s.isIdentifier w).map Trace.Event.oddKeyword
  missing ++ odd.toList

end Settings

end BraceScopes
