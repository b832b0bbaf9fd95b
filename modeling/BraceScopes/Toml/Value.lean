import BraceScopes.Decimal.Shortest
import BraceScopes.Text.Quoted
/-!
The values of a TOML document.
-/
namespace BraceScopes

namespace Toml

/-- How a table was written, which decides who may add to it. -/
inductive TableStyle where
  /-- Between braces; nobody may add to it. -/
  | inline
  /-- By a header of its own; later headers may add tables to it. -/
  | header
  /-- As a part of the header of another table. -/
  | implied
  /-- As a part of a dotted key. -/
  | dotted
deriving DecidableEq

inductive Value where
  | string (s : String)
  | integer (n : Int)
  | float (x : Binary64)
  | boolean (b : Bool)
  /-- A date, a time, or both. -/
  | datetime
  | array (items : List Value)
  | table (style : TableStyle) (entries : List (String × Value))
  /-- Tables that were written under headers in double brackets. -/
  | tables (rows : List (List (String × Value)))

/-- The entries of a table, in the order in which they were added. -/
abbrev Entries := List (String × Value)

namespace Value

def describe : Value → String
  | .string s => "string " ++ Quoted.encode s
  | .integer n => s!"integer `{n}`"
  | .float x => s!"floating point `{x.toString}`"
  | .boolean b => s!"boolean `{b}`"
  | .datetime => "map"
  | .array _ => "sequence"
  | .table _ _ => "map"
  | .tables _ => "sequence"

end Value

namespace Entries

/-- Replaces the value of a key where it stands, or adds the key at the end. -/
def set (es : Entries) (k : String) (v : Value) : Entries :=
  match es with
  | [] => [(k, v)]
  | e :: rest => if e.1 = k then (k, v) :: rest else e :: set rest k v

def erase (es : Entries) (k : String) : Entries := es.filter (·.1 != k)

end Entries

end Toml

end BraceScopes
