import Shading.Binary32
import Shading.Text.Number

/-!
# Shortest decimal text

A number is written with the fewest digits that read back as the same
pattern. Every real between the midpoints to the two neighbouring
patterns reads back, and so does a midpoint if the pattern is even. On
each grid of decimals, coarsest first, only the two grid points around
the value can be the nearest ones, so the first grid with such a point
in the interval gives the digits.
-/

namespace Shading.Binary32

/-- **The reals that read back as one positive pattern**, in units of
half a quantum. -/
structure ReadingInterval where
  low : Nat
  value : Nat
  high : Nat
  /-- Whether the ends belong to the interval. -/
  closed : Bool

/-- The reading interval of a positive finite number. Just below a power
of two the patterns are twice as dense. -/
def readingInterval (w : Word) : ReadingInterval :=
  let scale := exponentField w - 1
  let value := 2 * quanta w
  let below := if fractionField w = 0 ∧ 1 < exponentField w then 2 ^ (scale - 1) else 2 ^ scale
  ⟨value - below, value, value + 2 ^ scale, fractionField w % 2 = 0⟩

/-- A number of the form `digits` times ten to the power `exponent`. -/
structure Decimal where
  digits : Nat
  exponent : Int
deriving DecidableEq

namespace Decimal

/-- A decimal as a quotient of half quanta. -/
def quotient (d : Decimal) : Nat × Nat :=
  match d.exponent with
  | .ofNat n => (d.digits * 10 ^ n * 2 ^ 150, 1)
  | .negSucc n => (d.digits * 2 ^ 150, 10 ^ (n + 1))

/-- Whether a decimal reads back as the pattern of an interval. -/
def readsBack (d : Decimal) (r : ReadingInterval) : Bool :=
  let (num, den) := d.quotient
  if r.closed then r.low * den ≤ num && num ≤ r.high * den
  else r.low * den < num && num < r.high * den

end Decimal

/-- The greatest power of ten that is not above a positive number of half
quanta. All powers from -46 on are tried. -/
def decimalExponent (value : Nat) : Int :=
  let fits (k : Nat) : Bool :=
    let (num, den) := (Decimal.mk 1 ((k : Int) - 46)).quotient
    num ≤ value * den
  (((List.range 86).filter fits).length : Int) - 47

/-- The multiple of a power of ten at or just below a number of half
quanta. -/
def gridFloor (value : Nat) (exponent : Int) : Decimal :=
  match exponent with
  | .ofNat n => ⟨value / (10 ^ n * 2 ^ 150), exponent⟩
  | .negSucc n => ⟨value * 10 ^ (n + 1) / 2 ^ 150, exponent⟩

/-- Whether the grid point above a value is at least as near as the one
below it. -/
def upperNearer (value : Nat) (below : Decimal) : Bool :=
  let (low, den) := below.quotient
  let (high, _) := (Decimal.mk (below.digits + 1) below.exponent).quotient
  high - value * den ≤ value * den - low

/-- The point of a grid that reads back, the nearer one if both
neighbours of the value do; a tie goes up. -/
def gridPoint? (r : ReadingInterval) (exponent : Int) : Option Decimal :=
  let below := gridFloor r.value exponent
  let above : Decimal := ⟨below.digits + 1, exponent⟩
  match below.readsBack r, above.readsBack r with
  | true, true => some (if upperNearer r.value below then above else below)
  | true, false => some below
  | false, true => some above
  | false, false => none

/-- Removes zeros from the end of a decimal's digits, at most as many as
`budget` says. -/
def Decimal.trim : (budget : Nat) → Decimal → Decimal
  | 0, d => d
  | budget + 1, d =>
    if d.digits ≠ 0 ∧ d.digits % 10 = 0 then Decimal.trim budget ⟨d.digits / 10, d.exponent + 1⟩
    else d

/-- **The shortest decimal that reads back** as a positive finite
pattern, and of several the nearest. Nine digits always suffice. -/
def shortest (w : Word) : Decimal :=
  let r := readingInterval w
  let top := decimalExponent r.value
  match (List.range 9).findSome? (fun (n : Nat) => gridPoint? r (top - (n : Int))) with
  | some d => d.trim 10
  | none => ⟨0, 0⟩

/-! ## Layout of the digits -/

/-- **Which patterns are written without an exponent**: those of
magnitude at least `low` and below `high`, and zero. -/
structure PositionalRange where
  low : Nat
  high : Nat

/-- Listings write numbers from 0.0001 up to 10¹⁶ without an
exponent. -/
def listingRange : PositionalRange := ⟨0x38D1B717, 0x5A0E1BCA⟩

/-- A decimal with its point in place, and at least one digit on either
side of it. -/
def Decimal.positional (d : Decimal) : List Char :=
  let ds := Text.decimal d.digits
  match d.exponent with
  | .ofNat n => ds ++ List.replicate n '0' ++ ['.', '0']
  | .negSucc n =>
    let places := n + 1
    if places < ds.length then
      ds.take (ds.length - places) ++ '.' :: ds.drop (ds.length - places)
    else ['0', '.'] ++ List.replicate (places - ds.length) '0' ++ ds

/-- A decimal with its point behind the first digit, which is left out
if no digit follows, and an exponent. -/
def Decimal.exponential (d : Decimal) : List Char :=
  let ds := Text.decimal d.digits
  let point := if ds.length = 1 then ds else ds.take 1 ++ '.' :: ds.drop 1
  point ++ 'e' :: Text.signedDecimal (d.exponent + (ds.length - 1 : Nat))

/-- **A number as text.** -/
def text (range : PositionalRange) (w : Word) : String :=
  let sign := if isNegative w then ['-'] else []
  if isNaN w then "NaN"
  else if isInfinite w then String.ofList (sign ++ "inf".toList)
  else if isZero w then String.ofList (sign ++ "0.0".toList)
  else
    let d := shortest (UInt32.ofNat (magnitudeBits w))
    String.ofList (sign ++
      if range.low ≤ magnitudeBits w ∧ magnitudeBits w < range.high then d.positional
      else d.exponential)

end Shading.Binary32
