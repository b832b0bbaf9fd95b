import BraceScopes.Detect.Chain
import BraceScopes.Document
import BraceScopes.Resolve
import BraceScopes.Trace
import BraceScopes.Watermark
/-!
A document together with its scopes. Edits mark the rest of the document as out of date and drop its
annotations; resolving brings them up to date.
-/
namespace BraceScopes

structure Session where
  document : Document
  rules : Rules
  config : ScopeConfig
  detectors : List Detector
  store : Store
  watermark : Watermark
  /-- Whether edits move the watermark. -/
  observing : Bool
  /-- What happened so far, oldest first. -/
  log : List Trace.Event

namespace Session

/-- A session in which nothing is resolved yet. -/
def ofText (t : Text) (rules : Rules) (config : ScopeConfig) : Session where
  document := Document.ofText t 0
  rules := rules
  config := config
  detectors := Detector.standard
  store := Store.empty
  watermark := .uninitialized
  observing := false
  log := []

def text (s : Session) : Text := s.document.text

def lexed (s : Session) : Lexed := Lexed.ofText s.text s.rules

def record (s : Session) (events : List Trace.Event) : Session := { s with log := s.log ++ events }

/-- What an edit does to the watermark. -/
def notice (s : Session) : Watermark → Nat → Watermark :=
  if s.observing then Watermark.lower else fun mark _ => mark

/-- Drops the annotations that may be out of date. -/
def dropStale (s : Session) : Session :=
  match s.watermark.dirtyFrom with
  | some p => { s with store := s.store.clearFrom p }
  | none => s

def applyEdit (s : Session) (e : Edit) : Except DocumentError Session :=
  match s.document.applyEdit s.notice s.watermark e with
  | .error error => .error error
  | .ok (document, watermark) =>
    .ok (({ s with document, watermark }.dropStale).record [.ofEdit e])

def applyChanges (s : Session) (version : Int) (cs : List Change) :
    Session × Except DocumentError (List Edit) :=
  let ((document, watermark), result) := s.document.applyChanges s.notice s.watermark version cs
  let events := (result.toOption.getD []).map Trace.Event.ofEdit
  (({ s with document, watermark }.dropStale).record events, result)

/-- Makes an edit that does not move the watermark. -/
def applyUnnoticed (s : Session) (e : Edit) : Except DocumentError Session :=
  match s.document.applyEdit (fun (u : Unit) _ => u) () e with
  | .error error => .error error
  | .ok (document, _) => .ok ({ s with document }.record [.ofEdit e])

/-- Makes edits that do not move the watermark. A refused edit does not keep later ones from being
made. -/
def applySuspended (s : Session) : List Edit → Session × List (Except DocumentError Unit)
  | [] => (s, [])
  | e :: es =>
    match s.applyUnnoticed e with
    | .ok s' => let (s'', results) := s'.applySuspended es; (s'', .ok () :: results)
    | .error error => let (s'', results) := s.applySuspended es; (s'', .error error :: results)

/-- Takes everything at or after `p` as out of date. -/
def invalidateFrom (s : Session) (p : Nat) : Session :=
  { s with watermark := s.watermark.lower p }.dropStale

/-- Appends a detector, which is asked after all others. -/
def pushDetector (s : Session) (d : Detector) : Session := { s with detectors := s.detectors ++ [d] }

/-- The events of resolving the braces at or after `p`, with `store` the outcome. -/
def resolveEvents (s : Session) (ix : Lexed) (p : Nat) (store : Store) : List Trace.Event :=
  (Resolve.visits s.detectors s.config ix p).filterMap (fun v =>
    v.found.map fun f => .braceClassified v.brace f.1 f.2)
  ++ [.resolvedScopes p (ix.bracesFrom p).length store.unknownCount]

/-- Resolves the braces at or after `p`. From then on edits are observed. -/
def resolveFrom (s : Session) (p : Nat) : Session :=
  let ix := s.lexed
  let store := Resolve.run s.detectors s.config ix s.store p
  { s with store, watermark := .clean, observing := true }.record (s.resolveEvents ix p store)

/-- Brings all annotations up to date. -/
def resolve (s : Session) : Session :=
  match s.watermark.dirtyFrom with
  | some p => s.resolveFrom (min p s.text.size)
  | none => s

end Session

end BraceScopes
