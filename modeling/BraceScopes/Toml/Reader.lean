import BraceScopes.Toml.Number
import BraceScopes.Toml.Table
/-!
Reading TOML documents.
-/
namespace BraceScopes

namespace Toml

/-- Reads a value that holds no others. -/
def scalar? (cs : List Char) : Option (Value × List Char) :=
  match cs with
  | '"' :: _ => (string? cs).map fun (s, rest) => (.string s, rest)
  | '\'' :: _ => (string? cs).map fun (s, rest) => (.string s, rest)
  | 't' :: 'r' :: 'u' :: 'e' :: rest => some (.boolean true, rest)
  | 'f' :: 'a' :: 'l' :: 's' :: 'e' :: rest => some (.boolean false, rest)
  | _ => number? cs

/-- Reads at most `n` items of an array and the bracket after them. -/
def items? (item : List Char → Option (Value × List Char)) :
    Nat → List Char → Option (List Value × List Char)
  | 0, _ => none
  | n + 1, cs =>
    match skipFiller cs with
    | ']' :: rest => some ([], rest)
    | cs => do
      let (v, rest) ← item cs
      match skipFiller rest with
      | ',' :: rest => (items? item n rest).map fun (vs, rest) => (v :: vs, rest)
      | ']' :: rest => some ([v], rest)
      | _ => none

def pair? (item : List Char → Option (Value × List Char)) (cs : List Char) :
    Option ((List String × Value) × List Char) := do
  let (key, rest) ← key? cs
  let rest ← char? '=' rest
  let (v, rest) ← item (skipSpaces rest)
  return ((key, v), rest)

/-- Reads at most `n` pairs of an inline table and the brace after them. -/
def pairs? (item : List Char → Option (Value × List Char)) :
    Nat → List Char → Option (List (List String × Value) × List Char)
  | 0, _ => none
  | n + 1, cs => do
    let (p, rest) ← pair? item cs
    match skipSpaces rest with
    | ',' :: rest => (pairs? item n rest).map fun (ps, rest) => (p :: ps, rest)
    | '}' :: rest => some ([p], rest)
    | _ => none

/-- Reads an inline table, after its first brace. -/
def inlineTable? (item : List Char → Option (Value × List Char)) (cs : List Char) :
    Option (Value × List Char) := do
  let (pairs, rest) ← match skipSpaces cs with
    | '}' :: rest => some ([], rest)
    | _ => pairs? item cs.length cs
  let entries ← defineAll? pairs
  return (.table .inline entries, rest)

/-- Reads a value that nests at most `depth` deep. -/
def value? : Nat → List Char → Option (Value × List Char)
  | 0, cs => scalar? cs
  | depth + 1, cs =>
    match cs with
    | '[' :: rest => (items? (value? depth) cs.length rest).map fun (vs, rest) => (.array vs, rest)
    | '{' :: rest => inlineTable? (value? depth) rest
    | _ => scalar? cs

/-- Reads a header, with one bracket on either side or with two. -/
def header? (d : Draft) (cs : List Char) : Option (Draft × List Char) := do
  match cs with
  | '[' :: '[' :: rest =>
    let (key, rest) ← key? rest
    let rest ← char? ']' rest >>= char? ']'
    return (← d.openRow? key, rest)
  | '[' :: rest =>
    let (key, rest) ← key? rest
    let rest ← char? ']' rest
    return (← d.openTable? key, rest)
  | _ => none

/-- Reads one expression of a document and the end of its line. -/
def expression? (d : Draft) (cs : List Char) : Option (Draft × List Char) := do
  let (d, rest) ← match cs with
    | '#' :: _ => some (d, cs)
    | '\n' :: _ => some (d, cs)
    | '\r' :: _ => some (d, cs)
    | '[' :: _ => header? d cs
    | _ => do
      let ((key, v), rest) ← pair? (value? (maxDepth - 1)) cs
      pure (← d.define? key v, rest)
  let rest ← lineEnd? rest
  return (d, rest)

/-- Reads at most `n` expressions, up to the end of the document. -/
def expressions? : Nat → Draft → List Char → Option Draft
  | n, d, cs =>
    match skipSpaces cs with
    | [] => some d
    | cs =>
      match n with
      | 0 => none
      | n + 1 => expression? d cs >>= fun (d, rest) => expressions? n d rest

/-- Reads a document. A byte order mark at its start is passed over. -/
def read? (s : String) : Option Entries := do
  let cs := match s.toList with
    | '\ufeff' :: cs => cs
    | cs => cs
  let d ← expressions? cs.length {} cs
  d.finish?

end Toml

end BraceScopes
