import Schemata.Number.Basic

/-!
# Shortest decimals

The decimal that stands for a number in a text is the one with the fewest digits among those that
read back as the number, and among these the one nearest to it.

Reading a decimal rounds to the nearest number, so the decimals that read back as a positive number
`m * 2 ^ q` fill an interval around it, up to half the distance to either neighbour; its ends belong
to it when `m` is even, because a half goes to the even significand. The distance to the neighbour
below a power of two is half the usual one. In units of `2 ^ (q - 2)` the number is `4 * m` and both
ends are whole, and comparing a multiple of a power of ten with a multiple of a power of two is a
comparison of natural numbers (`Grid`), so nothing here is approximate.

On each decimal grid only the two points next to the number need a test: if any point of the grid
lies in the interval, so does one of these. Seventeen digits always suffice.
-/

namespace Schemata

namespace Number

/-- Which of two equally near decimals is taken. -/
inductive Tie where
  /-- The larger one. -/
  | up
  /-- The one whose last digit is even. -/
  | even
deriving DecidableEq

/-- The decimal `digits * 10 ^ exponent`. -/
structure Decimal where
  digits : Nat
  exponent : Int
deriving DecidableEq, Repr

/-- The decimals that read back as a positive number, in units of `2 ^ scale`: they lie between
`low` and `high` around `value`. -/
structure Interval where
  low : Nat
  value : Nat
  high : Nat
  scale : Int
  /-- Whether the ends belong to the interval. -/
  closed : Bool

/-- The interval of a finite number that is not zero; the sign plays no part. -/
def interval (n : Number) : Interval where
  low := 4 * n.significand - if n.fractionField = 0 ∧ 1 < n.exponentField then 1 else 2
  value := 4 * n.significand
  high := 4 * n.significand + 2
  scale := n.exponent - 2
  closed := n.significand % 2 == 0

/-- The multiples of `10 ^ exponent` beside an interval with unit `2 ^ scale`, on common integer
terms: a point `c` of the grid and a bound `x` compare as `c * step` and `x * unit` do. -/
structure Grid where
  step : Nat
  unit : Nat

/-- The grid of the multiples of `10 ^ exponent`. -/
def Interval.grid (i : Interval) (exponent : Int) : Grid where
  step := Nat.pow 10 exponent.toNat * Nat.pow 2 (-i.scale).toNat
  unit := Nat.pow 10 (-exponent).toNat * Nat.pow 2 i.scale.toNat

/-- Whether point `c` of grid `g` lies in the interval. -/
def Interval.holds (i : Interval) (g : Grid) (c : Nat) : Bool :=
  if i.closed then i.low * g.unit ≤ c * g.step && c * g.step ≤ i.high * g.unit
  else i.low * g.unit < c * g.step && c * g.step < i.high * g.unit

/-- The point of the grid of `10 ^ exponent` that lies in the interval and is nearest to the value,
if the grid has a point there. -/
def Interval.nearest? (i : Interval) (tie : Tie) (exponent : Int) : Option Nat :=
  let g := i.grid exponent
  let c := i.value * g.unit / g.step
  match i.holds g c, i.holds g (c + 1) with
  | false, false => none
  | true, false => some c
  | false, true => some (c + 1)
  | true, true =>
    match compare (2 * (i.value * g.unit)) ((2 * c + 1) * g.step) with
    | .lt => some c
    | .gt => some (c + 1)
    | .eq =>
      match tie with
      | .up => some (c + 1)
      | .even => some (c + c % 2)

/-- How many decimal digits a natural number has. -/
def digitCount (m : Nat) : Nat := (Nat.toDigits 10 m).length

/-- The exponent of the leading decimal digit of the value: the `e` with
`10 ^ e ≤ value < 10 ^ (e + 1)`. The digit counts of numerator and denominator leave two
candidates. -/
def Interval.leadingExponent (i : Interval) : Int :=
  let num := i.value * Nat.pow 2 i.scale.toNat
  let den := Nat.pow 2 (-i.scale).toNat
  let e : Int := digitCount num - digitCount den
  if den * Nat.pow 10 e.toNat ≤ num * Nat.pow 10 (-e).toNat then e else e - 1

/-- The first hit on the grids that give `count`, `count + 1`, … digits to a value with leading
exponent `e`, trying `more` grids. -/
def Interval.search (i : Interval) (tie : Tie) (e : Int) : (count more : Nat) → Option Decimal
  | _, 0 => none
  | count, more + 1 =>
    let exponent := e + 1 - count
    match i.nearest? tie exponent with
    | some c => some ⟨c, exponent⟩
    | none => i.search tie e (count + 1) more

/-- The shortest decimal that reads back as the magnitude of a finite number other than zero, and
of several the nearest. -/
def shortest (tie : Tie) (n : Number) : Decimal :=
  let i := n.interval
  (i.search tie i.leadingExponent 1 17).getD ⟨0, 0⟩

end Number

end Schemata
