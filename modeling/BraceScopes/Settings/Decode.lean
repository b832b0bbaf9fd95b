import BraceScopes.Toml.Value
/-!
Turning the values of a document into typed data. The first value that does not fit, in the order of
the document, decides the error.
-/
namespace BraceScopes

inductive DecodeError where
  /-- A table has a key that is not among its fields. -/
  | unknownField (key : String) (fields : List String)
  /-- A value is not of the expected type. -/
  | invalidType (found : Toml.Value) (expected : String)
  /-- A value is of the expected type and still not possible. -/
  | invalidValue (found : Toml.Value) (expected : String)

namespace DecodeError

/-- The fields that a table may have, as a phrase. -/
def choice (fields : List String) : String :=
  let quoted := fields.map fun f => s!"`{f}`"
  match quoted with
  | [a, b] => s!"{a} or {b}"
  | _ => "one of " ++ ", ".intercalate quoted

def message : DecodeError → String
  | .unknownField key fields => s!"unknown field `{key}`, expected {choice fields}"
  | .invalidType found expected => s!"invalid type: {found.describe}, expected {expected}"
  | .invalidValue found expected => s!"invalid value: {found.describe}, expected {expected}"

end DecodeError

namespace Decode

abbrev Decoder (α : Type) := Toml.Value → Except DecodeError α

variable {α σ : Type}

def string : Decoder String
  | .string s => .ok s
  | v => .error (.invalidType v "a string")

def boolean : Decoder Bool
  | .boolean b => .ok b
  | v => .error (.invalidType v "a boolean")

/-- A character is a string of length one. -/
def char : Decoder Char
  | .string s =>
    match s.toList with
    | [c] => .ok c
    | _ => .error (.invalidValue (.string s) "a character")
  | v => .error (.invalidType v "a character")

def list (item : Decoder α) : Decoder (List α)
  | .array vs => vs.mapM item
  | .tables rows => rows.mapM fun row => item (.table .header row)
  | v => .error (.invalidType v "a sequence")

/-- A field of a structure: its key, and how its value is stored. -/
structure Field (σ : Type) where
  key : String
  store : σ → Decoder σ

def storeKey (fields : List (Field σ)) (s : σ) (key : String) (v : Toml.Value) : Except DecodeError σ :=
  match fields.find? (·.key == key) with
  | some field => field.store s v
  | none => .error (.unknownField key (fields.map (·.key)))

/-- Stores values by position; values without a field are left over. -/
def storeList : List (Field σ) → σ → List Toml.Value → Except DecodeError σ
  | field :: fields, s, v :: vs => field.store s v >>= fun s => storeList fields s vs
  | _, s, _ => .ok s

/-- The key under which a date appears when it is read as a table. -/
def dateKey : String := "$__toml_private_datetime"

/-- A structure is a table of its fields, or an array of their values. Fields that are missing keep the
value they have in `start`. -/
def record (name : String) (fields : List (Field σ)) (start : σ) : Decoder σ
  | .table _ entries => entries.foldlM (fun s (key, v) => storeKey fields s key v) start
  | .array vs => storeList fields start vs
  | .tables rows => storeList fields start (rows.map (.table .header))
  | .datetime => storeKey fields start dateKey .datetime
  | v => .error (.invalidType v s!"struct {name}")

end Decode

end BraceScopes
