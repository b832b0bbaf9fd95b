import BraceScopes.Toml.Value
/-!
Adding to the tables of a TOML document. Every key is defined once, and a table is added to only in the
way in which it was written.
-/
namespace BraceScopes

namespace Toml

/-- Whether a table of some style may be entered, by a dotted key or by a header. -/
def TableStyle.enterable (style : TableStyle) (byDots : Bool) : Bool :=
  match style with
  | .inline => false
  | .header => !byDots
  | .implied => true
  | .dotted => true

variable {α : Type}

/-- Goes along a path of keys, from a table that was written by dots or not, and changes the table at
its end. Tables that are missing on the way are added, and of several rows the last is entered. -/
def alter? (byDots : Bool) (f : Bool → Entries → Option (α × Entries)) :
    List String → Bool → Entries → Option (α × Entries)
  | [], dotted, es => f dotted es
  | k :: ks, _, es =>
    match es.lookup k with
    | none =>
      (alter? byDots f ks byDots []).map fun (a, sub) =>
        (a, es.set k (.table (if byDots then .dotted else .implied) sub))
    | some (.table style sub) =>
      if style.enterable byDots then
        (alter? byDots f ks (style == .dotted) sub).map fun (a, sub) => (a, es.set k (.table style sub))
      else none
    | some (.tables rows) =>
      match rows.getLast? with
      | none => none
      | some row =>
        (alter? byDots f ks false row).map fun (a, row) => (a, es.set k (.tables (rows.dropLast ++ [row])))
    | some _ => none

/-- Adds a key and its value to a table. Only dotted keys add to a table that dotted keys made, and
they add to no other. -/
def define? (es : Entries) (key : List String) (v : Value) : Option Entries :=
  match key.getLast? with
  | none => none
  | some last =>
    let path := key.dropLast
    let add (dotted : Bool) (es : Entries) : Option (Unit × Entries) :=
      if dotted = path.isEmpty ∨ (es.lookup last).isSome then none else some ((), es ++ [(last, v)])
    (alter? true add path false es).map (·.2)

def defineAll? (pairs : List (List String × Value)) : Option Entries :=
  pairs.foldlM (fun es (key, v) => define? es key v) []

/-- A document being read: the finished tables, and the one whose header was read last. -/
structure Draft where
  root : Entries := []
  /-- The header read last; none yet when empty. -/
  path : List String := []
  /-- Whether that header begins a row of tables. -/
  isRow : Bool := false
  current : Entries := []

namespace Draft

def finish? (d : Draft) : Option Entries :=
  match d.path.getLast? with
  | none => some d.current
  | some last =>
    let place (_ : Bool) (es : Entries) : Option (Unit × Entries) :=
      match es.lookup last, d.isRow with
      | none, false => some ((), es ++ [(last, .table .header d.current)])
      | none, true => some ((), es ++ [(last, .tables [d.current])])
      | some (.tables rows), true => some ((), es.set last (.tables (rows ++ [d.current])))
      | _, _ => none
    (alter? false place d.path.dropLast false d.root).map (·.2)

/-- Begins the table of a header. A table that other headers implied is taken over. -/
def openTable? (d : Draft) (path : List String) : Option Draft := do
  let root ← d.finish?
  let last ← path.getLast?
  let take (_ : Bool) (es : Entries) : Option (Entries × Entries) :=
    match es.lookup last with
    | none => some ([], es)
    | some (.table .implied sub) => some (sub, es.erase last)
    | some _ => none
  let (current, root) ← alter? false take path.dropLast false root
  return ⟨root, path, false, current⟩

def openRow? (d : Draft) (path : List String) : Option Draft := do
  let root ← d.finish?
  let last ← path.getLast?
  let reserve (_ : Bool) (es : Entries) : Option (Unit × Entries) :=
    match es.lookup last with
    | none => some ((), es ++ [(last, .tables [])])
    | some (.tables _) => some ((), es)
    | some _ => none
  let (_, root) ← alter? false reserve path.dropLast false root
  return ⟨root, path, true, []⟩

/-- Adds a key to the current table. -/
def define? (d : Draft) (key : List String) (v : Value) : Option Draft :=
  (Toml.define? d.current key v).map fun current => { d with current }

end Draft

end Toml

end BraceScopes
