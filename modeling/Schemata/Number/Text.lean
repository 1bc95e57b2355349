import Schemata.Number.Shortest

/-!
# Number texts

Two texts of a number are in use. In JSON a number is its shortest digits, positional for moderate
exponents and with an exponent otherwise, and always has the look of a fraction or of an exponent.
In messages and names a number is written without an exponent at any size: whole numbers below
`10 ^ 21` with all their digits, other numbers with their shortest digits.

`Layout` holds the choices in which texts made of shortest digits can differ.
-/

namespace Schemata

namespace Number

/-- How shortest digits become a text. -/
structure Layout where
  /-- Which of two equally near decimals is written. -/
  tie : Tie
  /-- Whether a number with this leading exponent is written without an exponent. -/
  positional : Int → Bool
  /-- What follows a whole number that is written without an exponent. -/
  wholeEnding : String

/-- The digits of a natural number. -/
def digitsOf (m : Nat) : List Char := Nat.toDigits 10 m

/-- Without the zeros at the end. -/
def dropTrailingZeros (ds : List Char) : List Char := (ds.reverse.dropWhile (· == '0')).reverse

def zeros (count : Nat) : List Char := List.replicate count '0'

/-- The digits `d.ddd` times `10 ^ e` without an exponent. -/
def Layout.plain (l : Layout) (ds : List Char) (e : Int) : String :=
  if e < 0 then "0." ++ String.ofList (zeros (-e - 1).toNat ++ ds)
  else
    let point := e.toNat + 1
    if ds.length ≤ point then String.ofList (ds ++ zeros (point - ds.length)) ++ l.wholeEnding
    else String.ofList (ds.take point) ++ "." ++ String.ofList (ds.drop point)

/-- The digits `d.ddd` times `10 ^ e` with an exponent, whose sign is always written. -/
def scientific (ds : List Char) (e : Int) : String :=
  let fraction := ds.drop 1
  String.ofList (ds.take 1) ++ (if fraction.isEmpty then "" else "." ++ String.ofList fraction)
    ++ (if e < 0 then "e-" else "e+") ++ String.ofList (digitsOf e.natAbs)

/-- The text of the magnitude of a finite number. -/
def Layout.magnitude (l : Layout) (n : Number) : String :=
  if n.isZero then "0" ++ l.wholeEnding
  else
    let d := n.shortest l.tie
    let ds := digitsOf d.digits
    let e := d.exponent + ds.length - 1
    let ds := dropTrailingZeros ds
    if l.positional e then l.plain ds e else scientific ds e

def signText (n : Number) : String := if n.isNegative then "-" else ""

/-! ## JSON -/

/-- JSON numbers have no exponent from `10 ^ -5` up to `10 ^ 16`, a whole one ends in `.0`, and a
tie goes to the even digit. -/
def jsonLayout : Layout := ⟨.even, fun e ↦ -5 ≤ e && e ≤ 15, ".0"⟩

/-- The text of a finite number in JSON; the sign of zero is written. -/
def jsonText (n : Number) : String := n.signText ++ jsonLayout.magnitude n

/-! ## Messages and names -/

/-- Displayed numbers have no exponent, a whole one ends with its digits, and a tie goes up. -/
def displayLayout : Layout := ⟨.up, fun _ ↦ true, ""⟩

/-- The text of a number in messages and names. Both zeros are `0`. -/
def displayText (n : Number) : String :=
  if n.isNaN then "NaN"
  else if n.isInfinite then n.signText ++ "Infinity"
  else if n.isZero then "0"
  else n.signText ++
    match n.wholeMagnitude? with
    | some m => if m < Nat.pow 10 21 then String.ofList (digitsOf m) else displayLayout.magnitude n
    | none => displayLayout.magnitude n

end Number

end Schemata
