/-!
# Numbers

A number is a binary64 word: one sign bit, eleven exponent bits, fifty-two fraction bits. The word
is kept, not a rational or the machine type, because both zeros and every pattern of a NaN can occur
in data, and because everything the library decides about a number (its class, its equality, its
integer value, its digits) is exact arithmetic on the two fields `significand` and `exponent`:
a finite number is `significand * 2 ^ exponent` up to sign.

Numeric equality (`Number.equal`) is not equality of words: a NaN equals nothing and the two zeros
are equal. `Number.same` differs from it in one point, that any two NaNs are the same.
-/

namespace Schemata

/-- A binary64 number. -/
structure Number where
  bits : UInt64
deriving DecidableEq

namespace Number

/-! ## Fields of the word -/

/-- The sign bit. -/
def isNegative (n : Number) : Bool := Nat.pow 2 63 ≤ n.bits.toNat

/-- The exponent bits, between 0 and 2047. -/
def exponentField (n : Number) : Nat := n.bits.toNat / Nat.pow 2 52 % Nat.pow 2 11

/-- The fraction bits. -/
def fractionField (n : Number) : Nat := n.bits.toNat % Nat.pow 2 52

/-- The integer factor of a finite number's magnitude: the fraction bits, below a leading one
unless the number is subnormal. -/
def significand (n : Number) : Nat :=
  if n.exponentField = 0 then n.fractionField else Nat.pow 2 52 + n.fractionField

/-- The power of two that scales `significand`. -/
def exponent (n : Number) : Int :=
  if n.exponentField = 0 then -1074 else n.exponentField - 1075

/-! ## Classes -/

def isFinite (n : Number) : Bool := n.exponentField != 2047

def isNaN (n : Number) : Bool := n.exponentField == 2047 && n.fractionField != 0

def isInfinite (n : Number) : Bool := n.exponentField == 2047 && n.fractionField == 0

/-- Both zeros are zero. -/
def isZero (n : Number) : Bool := n.exponentField == 0 && n.fractionField == 0

/-- The NaN without sign or payload. -/
def nan : Number := ⟨0x7ff8000000000000⟩

/-! ## Equality of values -/

/-- Numeric equality: no NaN equals anything, the zeros are equal, otherwise the words decide. -/
def equal (a b : Number) : Bool :=
  !a.isNaN && !b.isNaN && (a == b || (a.isZero && b.isZero))

/-- Numeric equality, except that all NaNs are the same. -/
def same (a b : Number) : Bool := a.equal b || (a.isNaN && b.isNaN)

/-! ## Integers -/

/-- `a / b` rounded to the nearest integer, a half to the even one. -/
def roundHalfEven (a b : Nat) : Nat :=
  let q := a / b
  let twice := 2 * (a % b)
  if twice < b then q else if b < twice then q + 1 else q + q % 2

/-- The word of the number nearest to a magnitude, a half going to the even significand. A
significand that rounds up to `2 ^ 53` carries into the exponent bits, and a magnitude too large
for the format becomes infinity. -/
def wordOfMagnitude (m : Nat) : Nat :=
  if m = 0 then 0 else
    let e := m.log2
    let s := if e ≤ 52 then m * Nat.pow 2 (52 - e) else roundHalfEven m (Nat.pow 2 (e - 52))
    min ((e + 1022) * Nat.pow 2 52 + s) (2047 * Nat.pow 2 52)

/-- The number nearest to an integer, a half going to the even significand. -/
def ofInt (i : Int) : Number :=
  ⟨UInt64.ofNat (wordOfMagnitude i.natAbs + if i < 0 then Nat.pow 2 63 else 0)⟩

/-- The magnitude, if the number is a whole one. -/
def wholeMagnitude? (n : Number) : Option Nat :=
  if !n.isFinite then none
  else if 0 ≤ n.exponent then some (n.significand * Nat.pow 2 n.exponent.toNat)
  else
    let d := Nat.pow 2 (-n.exponent).toNat
    if n.significand % d = 0 then some (n.significand / d) else none

/-- The integer value, if the number is a whole one. Both zeros give 0. -/
def toInt? (n : Number) : Option Int :=
  n.wholeMagnitude?.map fun m ↦ if n.isNegative then -m else m

end Number

end Schemata
