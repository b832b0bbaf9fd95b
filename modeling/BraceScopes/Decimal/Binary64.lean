/-!
Floating-point numbers of 64 bits, as exact numbers, and the one nearest to a decimal.
-/
namespace BraceScopes

/-- A floating-point number: a mantissa times a power of two, or no finite number. -/
inductive Binary64 where
  | finite (negative : Bool) (mantissa : Nat) (exponent : Int)
  | infinite (negative : Bool)
  | nan
deriving DecidableEq

namespace Decimal

/-- A quotient rounded to the nearest whole number, where a half goes to the even one. -/
def roundDiv (num den : Nat) : Nat :=
  let q := num / den
  let r := num % den
  if den < 2 * r || (2 * r == den && q % 2 == 1) then q + 1 else q

def digitCount (n : Nat) : Nat := (Nat.toDigits 10 n).length

/-- The greatest power of two that is not above `num / den`. -/
def binaryExponent (num den : Nat) : Int :=
  let k : Int := (Nat.log2 num : Int) - Nat.log2 den
  if num <<< (-k).toNat < den <<< k.toNat then k - 1 else k

end Decimal

namespace Binary64

/-- The least mantissa of 53 bits. -/
def leastNormal : Nat := 0x10000000000000

/-- The number nearest to a positive fraction. -/
def ofRatio (negative : Bool) (num den : Nat) : Binary64 :=
  let q := max (Decimal.binaryExponent num den - 52) (-1074)
  let m := Decimal.roundDiv (num <<< (-q).toNat) (den <<< q.toNat)
  let (m, q) := if m = 2 * leastNormal then (leastNormal, q + 1) else (m, q)
  if 971 < q then .infinite negative else .finite negative m q

/-- The number nearest to `digits * 10 ^ exponent`. -/
def ofDecimal (negative : Bool) (digits : Nat) (exponent : Int) : Binary64 :=
  let magnitude := Decimal.digitCount digits + exponent
  if digits = 0 ∨ magnitude < -330 then .finite negative 0 0
  else if 310 < magnitude then .infinite negative
  else .ofRatio negative (digits * Nat.pow 10 exponent.toNat) (Nat.pow 10 (-exponent).toNat)

end Binary64

end BraceScopes
