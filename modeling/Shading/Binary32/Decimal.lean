import Shading.Binary32
import Shading.Text.Number

/-!
# Reading decimal numbers

A decimal text is an optional sign, digits around an optional point with
at least one digit, and an optional exponent; or one of the words for
infinity and for no number. It is read to the nearest pattern: the
digits and the power of ten are one exact quotient, which is rounded
once.
-/

namespace Shading

/-! ## Integers -/

/-- The value of decimal digits. -/
def digitsValue (cs : List Char) : Nat := cs.foldl (fun n c => 10 * n + (c.toNat - 48)) 0

/-- Splits off a sign. -/
def splitSign : List Char → Bool × List Char
  | '-' :: cs => (true, cs)
  | '+' :: cs => (false, cs)
  | cs => (false, cs)

/-- **The integer that a text writes**: an optional sign and at least one
digit. -/
def readInt? (cs : List Char) : Option Int :=
  let (negative, ds) := splitSign cs
  if ds.isEmpty || !ds.all Char.isDigit then none
  else some (if negative then -(digitsValue ds : Int) else digitsValue ds)

/-- The integer that a text writes, if it fits a word. -/
def readWordInt? (s : String) : Option Int :=
  (readInt? s.toList).filter (fun i => -(2 ^ 31) ≤ i && i < 2 ^ 31)

namespace Binary32

/-! ## Numbers -/

/-- Splits off the digits before and after an optional point. -/
def splitPoint (cs : List Char) : List Char × List Char × List Char :=
  let whole := cs.takeWhile Char.isDigit
  match cs.dropWhile Char.isDigit with
  | '.' :: cs => (whole, cs.takeWhile Char.isDigit, cs.dropWhile Char.isDigit)
  | cs => (whole, [], cs)

/-- The exponent that stands at the end of a number. -/
def exponent? : List Char → Option Int
  | [] => some 0
  | 'e' :: cs => readInt? cs
  | 'E' :: cs => readInt? cs
  | _ => none

/-- The pattern nearest to digits times a power of ten. Beyond sixty
places the result is infinity or zero whatever the digits are. -/
def ofScientific (negative : Bool) (digits : Nat) (length : Nat) (exponent : Int) : Word :=
  if digits = 0 then zero negative
  else if 60 < exponent then infinity negative
  else if exponent + length < -60 then zero negative
  else
    match exponent with
    | .ofNat n => ofQuotient negative (digits * 10 ^ n * 2 ^ 149) 1
    | .negSucc n => ofQuotient negative (digits * 2 ^ 149) (10 ^ (n + 1))

/-- **The pattern nearest to the number that a text writes.** -/
def ofDecimal? (s : String) : Option Word :=
  let (negative, cs) := splitSign s.toList
  let word := cs.map Char.toLower
  if word = "inf".toList ∨ word = "infinity".toList then some (infinity negative)
  else if word = "nan".toList then some (pack negative 0x7FC00000)
  else
    let (whole, fraction, rest) := splitPoint cs
    if whole.isEmpty && fraction.isEmpty then none
    else
      (exponent? rest).map (fun e =>
        ofScientific negative (digitsValue (whole ++ fraction)) (whole ++ fraction).length
          (e - fraction.length))

end Binary32

end Shading
