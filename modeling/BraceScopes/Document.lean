import BraceScopes.Text.Edit
import BraceScopes.Text.Lines
/-!
A versioned document under edits. Whoever watches a document is told, after each edit, the earliest
offset that the edit may have changed.
-/
namespace BraceScopes

structure Document where
  text : Text
  version : Int
  lines : Lines
deriving DecidableEq

inductive DocumentError where
  | invalidRange (range : Range) (size : Nat)
  | notBoundary (offset : Nat)
deriving DecidableEq

namespace DocumentError

def message : DocumentError → String
  | .invalidRange r n => s!"invalid edit range {r.toString} for document of length {n}"
  | .notBoundary p => s!"offset {p} is not a UTF-8 character boundary"

end DocumentError

/-- New text for a stretch between two positions, or for the whole document. -/
structure Change where
  range : Option (Position × Position)
  text : Text
deriving DecidableEq

namespace Document

variable {σ : Type}

def ofText (t : Text) (version : Int) : Document := ⟨t, version, Lines.ofText t⟩

/-- Why an edit does not fit the document. -/
def editError? (d : Document) (e : Edit) : Option DocumentError :=
  if d.text.size < e.range.stop then some (.invalidRange e.range d.text.size)
  else if !d.text.isBoundary e.range.start then some (.notBoundary e.range.start)
  else if !d.text.isBoundary e.range.stop then some (.notBoundary e.range.stop)
  else none

/-- Makes an edit and tells the watcher, whose state is `seen`, where it began. -/
def applyEdit (notify : σ → Nat → σ) (d : Document) (seen : σ) (e : Edit) :
    Except DocumentError (Document × σ) :=
  match d.editError? e with
  | some error => .error error
  | none =>
    let text := d.text.replace e.range e.replacement
    .ok ({ d with text, lines := Lines.ofText text }, notify seen e.earliestChanged)

def endPosition (d : Document) : Position := d.lines.positionOf d.text d.text.size

/-- A change as an edit. The two positions may come in either order. -/
def editOfChange (d : Document) (c : Change) : Edit :=
  let (a, b) := c.range.getD (⟨0, 0⟩, d.endPosition)
  ⟨.between (d.lines.offsetOf d.text a) (d.lines.offsetOf d.text b), c.text⟩

/-- Makes changes one after the other and collects them as edits. What was changed and told before a
refused change stays. -/
def applyEach (notify : σ → Nat → σ) (d : Document) (seen : σ) :
    List Change → (Document × σ) × Except DocumentError (List Edit)
  | [] => ((d, seen), .ok [])
  | c :: cs =>
    match d.applyEdit notify seen (d.editOfChange c) with
    | .error error => ((d, seen), .error error)
    | .ok (d', seen') =>
      let (state, rest) := applyEach notify d' seen' cs
      (state, rest.map (d.editOfChange c :: ·))

/-- Makes changes in order, and takes the new version when all of them are made. -/
def applyChanges (notify : σ → Nat → σ) (d : Document) (seen : σ) (version : Int)
    (cs : List Change) : (Document × σ) × Except DocumentError (List Edit) :=
  let ((d', seen'), result) := d.applyEach notify seen cs
  match result with
  | .ok edits => (({ d' with version }, seen'), .ok edits)
  | .error error => ((d', seen'), .error error)

end Document

end BraceScopes
