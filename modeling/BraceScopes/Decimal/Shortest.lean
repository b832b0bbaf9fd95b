import BraceScopes.Decimal.Binary64
/-!
The shortest decimal of a floating-point number: of all decimals that are nearer to it than to its
neighbours, one with the fewest digits, and of those the nearest.
-/
namespace BraceScopes

namespace Decimal

/-- A positive number as a fraction of quarters of its last binary place, with the ends of the interval
that rounds to it. -/
structure Rounding where
  low : Nat
  value : Nat
  high : Nat
  /-- Whether the ends round to the number too. -/
  closed : Bool
  /-- The binary exponent of a quarter. -/
  exponent : Int

/-- The interval that rounds to a mantissa times a power of two. Below a power of two the numbers lie
twice as close. -/
def Rounding.ofFinite (mantissa : Nat) (exponent : Int) : Rounding where
  low := if mantissa = Binary64.leastNormal ∧ -1074 < exponent then 4 * mantissa - 1 else 4 * mantissa - 2
  value := 4 * mantissa
  high := 4 * mantissa + 2
  closed := mantissa % 2 == 0
  exponent := exponent - 2

/-- Numerator and denominator of `n` quarters against a decimal place, so that dividing counts places. -/
def Rounding.ratio (r : Rounding) (n : Nat) (place : Int) : Nat × Nat :=
  ((n * Nat.pow 10 (-place).toNat) <<< r.exponent.toNat, Nat.pow 10 place.toNat <<< (-r.exponent).toNat)

/-- Whether `d * 10 ^ place` rounds to the number. -/
def Rounding.admits (r : Rounding) (d : Nat) (place : Int) : Bool :=
  let (low, den) := r.ratio r.low place
  let (high, _) := r.ratio r.high place
  if r.closed then low ≤ d * den && d * den ≤ high else low < d * den && d * den < high

/-- The decimal on the given place that rounds to the number, the nearer one when two do. -/
def Rounding.onPlace? (r : Rounding) (place : Int) : Option Nat :=
  let (num, den) := r.ratio r.value place
  let below := num / den
  match r.admits below place, r.admits (below + 1) place with
  | true, true => some (if 2 * (num % den) < den then below else below + 1)
  | true, false => some below
  | false, true => some (below + 1)
  | false, false => none

/-- The place of the first digit of a positive fraction. -/
def firstPlace (num den : Nat) : Int :=
  if den ≤ num then (digitCount (num / den) : Int) - 1
  else -(digitCount ((den + num - 1) / num - 1) : Int)

/-- Tries one digit more at a time, at most `n` times. Only a power of ten one place above the number
can end in a zero. -/
def Rounding.shortestFrom (r : Rounding) (place : Int) : Nat → Nat × Int
  | 0 => (r.value, place)
  | n + 1 =>
    match r.onPlace? place with
    | some d => if d % 10 = 0 then (d / 10, place + 1) else (d, place)
    | none => r.shortestFrom (place - 1) n

/-- Digits and place of the shortest decimal. Seventeen digits tell all numbers apart. -/
def shortest (mantissa : Nat) (exponent : Int) : Nat × Int :=
  if mantissa = 0 then (0, 0)
  else
    let r := Rounding.ofFinite mantissa exponent
    let (num, den) := r.ratio r.value 0
    r.shortestFrom (firstPlace num den) 18

/-- A decimal written without exponent and with at least one digit after the point. -/
def positional (digits : Nat) (place : Int) : String :=
  if 0 ≤ place then toString digits ++ String.join (List.replicate place.toNat "0") ++ ".0"
  else
    let after := (-place).toNat
    let ds := Nat.toDigits 10 digits
    let padded := List.replicate (after + 1 - ds.length) '0' ++ ds
    String.ofList (padded.take (padded.length - after)) ++ "."
      ++ String.ofList (padded.drop (padded.length - after))

end Decimal

namespace Binary64

/-- A number as text: the shortest decimal, without exponent. -/
def toString : Binary64 → String
  | .finite negative m e =>
    let (digits, place) := Decimal.shortest m e
    (if negative then "-" else "") ++ Decimal.positional digits place
  | .infinite negative => if negative then "-inf" else "inf"
  | .nan => "NaN"

end Binary64

end BraceScopes
