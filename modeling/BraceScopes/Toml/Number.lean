import BraceScopes.Toml.Text
import BraceScopes.Toml.Value
/-!
Numbers, dates and times of a TOML document.
-/
namespace BraceScopes

namespace Toml

/-- Splits off digits, where an underscore may stand before a digit. -/
def moreDigits (isDigit : Char → Bool) : List Char → List Char × List Char
  | '_' :: c :: cs =>
    if isDigit c then let (ds, rest) := moreDigits isDigit cs; (c :: ds, rest) else ([], '_' :: c :: cs)
  | c :: cs =>
    if isDigit c then let (ds, rest) := moreDigits isDigit cs; (c :: ds, rest) else ([], c :: cs)
  | [] => ([], [])

def digits? (isDigit : Char → Bool) : List Char → Option (List Char × List Char)
  | c :: cs =>
    if isDigit c then let (ds, rest) := moreDigits isDigit cs; some (c :: ds, rest) else none
  | [] => none

def ofDigits (base : Nat) (ds : List Char) : Nat :=
  ds.foldl (fun n c => base * n + (hexDigit? c).getD 0) 0

/-- Reads a sign; the result says whether it was a minus. -/
def sign : List Char → Bool × List Char
  | '-' :: cs => (true, cs)
  | '+' :: cs => (false, cs)
  | cs => (false, cs)

/-- Reads a sign and decimal digits that begin with a zero only if it is the only one. -/
def decimal? (cs : List Char) : Option (Bool × List Char × List Char) :=
  let (negative, cs) := sign cs
  match cs with
  | '0' :: rest => some (negative, ['0'], rest)
  | _ => (digits? Char.isDigit cs).map fun (ds, rest) => (negative, ds, rest)

def based? (base : Nat) (cs : List Char) : Option (Nat × List Char) :=
  (digits? (fun c => (hexDigit? c).any (· < base)) cs).map fun (ds, rest) => (ofDigits base ds, rest)

/-- Reads an integer, which has to fit in 64 bits. -/
def integer? (cs : List Char) : Option (Value × List Char) := do
  let (n, rest) ← match cs with
    | '0' :: 'x' :: rest => (based? 16 rest).map fun (n, rest) => ((n : Int), rest)
    | '0' :: 'o' :: rest => (based? 8 rest).map fun (n, rest) => ((n : Int), rest)
    | '0' :: 'b' :: rest => (based? 2 rest).map fun (n, rest) => ((n : Int), rest)
    | _ => (decimal? cs).map fun (negative, ds, rest) =>
      (if negative then -(ofDigits 10 ds : Int) else (ofDigits 10 ds : Int), rest)
  if -0x8000000000000000 ≤ n ∧ n ≤ 0x7FFFFFFFFFFFFFFF then some (.integer n, rest) else none

def fraction? : List Char → Option (List Char × List Char)
  | '.' :: cs => digits? Char.isDigit cs
  | _ => none

def exponent? : List Char → Option (Int × List Char)
  | c :: cs =>
    if c = 'e' ∨ c = 'E' then
      let (negative, cs) := sign cs
      (digits? Char.isDigit cs).map fun (ds, rest) =>
        (if negative then -(ofDigits 10 ds : Int) else (ofDigits 10 ds : Int), rest)
    else none
  | [] => none

/-- Reads an infinity or what is not a number. -/
def special? (cs : List Char) : Option (Value × List Char) :=
  let (negative, cs) := sign cs
  match cs with
  | 'i' :: 'n' :: 'f' :: rest => some (.float (.infinite negative), rest)
  | 'n' :: 'a' :: 'n' :: rest => some (.float .nan, rest)
  | _ => none

/-- Reads a number with a fraction, an exponent or both. A number too great is refused. -/
def decimalFloat? (cs : List Char) : Option (Value × List Char) := do
  let (negative, ds, rest) ← decimal? cs
  let (fs, e, rest) ← match fraction? rest with
    | some (fs, rest) =>
      match exponent? rest with
      | some (e, rest) => some (fs, e, rest)
      | none => some (fs, 0, rest)
    | none => (exponent? rest).map fun (e, rest) => ([], e, rest)
  let x := Binary64.ofDecimal negative (ofDigits 10 (ds ++ fs)) (e - fs.length)
  if x = .infinite false then none else some (.float x, rest)

/-- Reads a number of exactly `n` digits between two bounds. -/
def fixedDigits? (n low high : Nat) (cs : List Char) : Option (Nat × List Char) :=
  let ds := cs.take n
  if ds.length = n ∧ ds.all Char.isDigit ∧ low ≤ ofDigits 10 ds ∧ ofDigits 10 ds ≤ high then
    some (ofDigits 10 ds, cs.drop n)
  else none

def char? (c : Char) : List Char → Option (List Char)
  | d :: cs => if d = c then some cs else none
  | [] => none

def isLeapYear (y : Nat) : Bool := y % 4 == 0 && (y % 100 != 0 || y % 400 == 0)

def daysIn (year month : Nat) : Nat :=
  if month = 2 then if isLeapYear year then 29 else 28
  else if [4, 6, 9, 11].contains month then 30
  else 31

def date? (cs : List Char) : Option (List Char) := do
  let (year, cs) ← fixedDigits? 4 0 9999 cs
  let cs ← char? '-' cs
  let (month, cs) ← fixedDigits? 2 1 12 cs
  let cs ← char? '-' cs
  let (_, cs) ← fixedDigits? 2 1 (daysIn year month) cs
  return cs

def time? (cs : List Char) : Option (List Char) := do
  let (_, cs) ← fixedDigits? 2 0 23 cs
  let cs ← char? ':' cs
  let (_, cs) ← fixedDigits? 2 0 59 cs
  let cs ← char? ':' cs
  let (_, cs) ← fixedDigits? 2 0 60 cs
  match cs with
  | '.' :: d :: rest => return if d.isDigit then rest.dropWhile Char.isDigit else cs
  | _ => return cs

def offset? : List Char → Option (List Char)
  | 'Z' :: cs => some cs
  | 'z' :: cs => some cs
  | c :: cs => do
    guard (c = '+' ∨ c = '-')
    let (_, cs) ← fixedDigits? 2 0 23 cs
    let cs ← char? ':' cs
    let (_, cs) ← fixedDigits? 2 0 59 cs
    return cs
  | [] => none

/-- Reads a date with or without a time and an offset, or a time alone. -/
def datetime? (cs : List Char) : Option (Value × List Char) :=
  match date? cs with
  | none => (time? cs).map fun rest => (.datetime, rest)
  | some rest =>
    let clock := match rest with
      | c :: cs => if c = 'T' ∨ c = 't' ∨ c = ' ' then time? cs else none
      | [] => none
    match clock with
    | some rest => some (.datetime, (offset? rest).getD rest)
    | none => some (.datetime, rest)

def number? (cs : List Char) : Option (Value × List Char) :=
  datetime? cs <|> decimalFloat? cs <|> special? cs <|> integer? cs

end Toml

end BraceScopes
