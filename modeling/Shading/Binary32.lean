import Shading.Arithmetic

/-!
# Single-precision numbers

A single-precision number is a pattern of 32 bits: a sign, eight bits of
exponent and 23 bits of fraction. Every finite number is a whole
multiple of the smallest positive one, which is 2⁻¹⁴⁹, so its magnitude
is a natural number of such *quanta*. Arithmetic is exact on quanta, and
one function rounds: `Binary32.ofQuotient` gives the nearest pattern to
a quotient of naturals, and of two nearest patterns the even one.
-/

namespace Shading

/-- **A word of 32 bits**: an integer in two's complement, or the
pattern of a single-precision number. -/
abbrev Word := UInt32

namespace Binary32

/-! ## Patterns -/

/-- Whether the sign bit is set. -/
def isNegative (w : Word) : Bool := w.toNat / 2 ^ 31 == 1

/-- The pattern without its sign. -/
def magnitudeBits (w : Word) : Nat := w.toNat % 2 ^ 31

/-- The exponent field. -/
def exponentField (w : Word) : Nat := magnitudeBits w / 2 ^ 23

/-- The fraction field. -/
def fractionField (w : Word) : Nat := w.toNat % 2 ^ 23

/-- The pattern of infinity, which bounds the finite patterns. -/
def infinityBits : Nat := 0x7F800000

/-- Not a number. -/
def isNaN (w : Word) : Bool := infinityBits < magnitudeBits w

/-- An infinity of either sign. -/
def isInfinite (w : Word) : Bool := magnitudeBits w == infinityBits

/-- A zero of either sign. -/
def isZero (w : Word) : Bool := magnitudeBits w == 0

/-- The pattern with a sign and a magnitude. -/
def pack (negative : Bool) (magnitude : Nat) : Word :=
  UInt32.ofNat ((if negative then 2 ^ 31 else 0) + magnitude)

/-- An infinity. -/
def infinity (negative : Bool) : Word := pack negative infinityBits

/-- A zero. -/
def zero (negative : Bool) : Word := pack negative 0

/-- The result of an operation that has none. -/
def invalid : Word := 0xFFC00000

/-- The quiet form of a pattern that is not a number. -/
def quiet (w : Word) : Word := w ||| 0x00400000

/-- The pattern with the other sign. -/
def opposite (w : Word) : Word := w ^^^ 0x80000000

/-- **The magnitude of a number in quanta.** Infinity has more than any
finite number, so quanta order all the numbers. -/
def quanta (w : Word) : Nat :=
  if exponentField w = 0 then fractionField w
  else (2 ^ 23 + fractionField w) * 2 ^ (exponentField w - 1)

/-- The value of a number in quanta. -/
def signedQuanta (w : Word) : Int :=
  if isNegative w then -(quanta w : Int) else quanta w

/-! ## Rounding -/

/-- The nearest natural to a quotient, a half going to the even one. -/
def roundHalfEven (num den : Nat) : Nat :=
  let q := num / den
  let r := num % den
  if 2 * r < den then q
  else if den < 2 * r then q + 1
  else q + q % 2

/-- **The magnitude nearest to a quotient of quanta.** The quotient is
scaled down by a power of two until its whole part has 24 bits, rounded
there, and placed above the exponents below it; a carry out of the 24
bits raises the exponent by itself, and what reaches the pattern of
infinity stops there. -/
def magnitudeOfQuotient (num den : Nat) : Nat :=
  let scale := Nat.log2 (num / den) - 23
  min infinityBits (scale * 2 ^ 23 + roundHalfEven num (den * 2 ^ scale))

/-- The number nearest to a quotient of quanta with a sign. -/
def ofQuotient (negative : Bool) (num den : Nat) : Word :=
  pack negative (magnitudeOfQuotient num den)

/-- The number nearest to a whole number of quanta, with the given sign
for zero. -/
def ofSignedQuanta (zeroNegative : Bool) (i : Int) : Word :=
  if i = 0 then zero zeroNegative else ofQuotient (i < 0) i.natAbs 1

/-! ## Arithmetic

An operand that is not a number is the result, made quiet; the first
such operand counts. -/

/-- Applies an operation to two operands that are numbers. -/
def numeric (f : Word → Word → Word) (a b : Word) : Word :=
  if isNaN a then quiet a else if isNaN b then quiet b else f a b

/-- The sum. -/
def add : Word → Word → Word :=
  numeric fun a b =>
    if isInfinite a then
      if isInfinite b && isNegative a != isNegative b then invalid else a
    else if isInfinite b then b
    else ofSignedQuanta (isNegative a && isNegative b) (signedQuanta a + signedQuanta b)

/-- The difference. -/
def sub : Word → Word → Word :=
  numeric fun a b => add a (opposite b)

/-- The product. -/
def mul : Word → Word → Word :=
  numeric fun a b =>
    let negative := isNegative a != isNegative b
    if isInfinite a || isInfinite b then
      if isZero a || isZero b then invalid else infinity negative
    else ofQuotient negative (quanta a * quanta b) (2 ^ 149)

/-- The quotient. -/
def div : Word → Word → Word :=
  numeric fun a b =>
    let negative := isNegative a != isNegative b
    if isInfinite a then
      if isInfinite b then invalid else infinity negative
    else if isInfinite b then zero negative
    else if isZero b then
      if isZero a then invalid else infinity negative
    else ofQuotient negative (quanta a * 2 ^ 149) (quanta b)

/-- The larger of two numbers. Where they do not compare, and for two
zeros, it is the second. -/
def max (a b : Word) : Word :=
  if isNaN a || isNaN b then b
  else if isZero a && isZero b then b
  else if signedQuanta b < signedQuanta a then a else b

/-! ### Roots -/

/-- Adds powers of two to a root, from the power `bits` down, as long as
its square stays within a bound. -/
def extendRoot (n : Nat) : (bits : Nat) → Nat → Nat
  | 0, root => root
  | bits + 1, root =>
    let next := root + 2 ^ bits
    extendRoot n bits (if next * next ≤ n then next else root)

/-- The whole part of a square root. -/
def natRoot (n : Nat) : Nat := extendRoot n (Nat.log2 n / 2 + 1) 0

/-- The square root. The root of the quanta has far more than 24 bits,
so it is rounded right when an inexact one counts as a half more. -/
def sqrt (w : Word) : Word :=
  if isNaN w then quiet w
  else if isZero w then w
  else if isNegative w then invalid
  else if isInfinite w then w
  else
    let n := quanta w * 2 ^ 149
    let root := natRoot n
    ofQuotient false (2 * root + (if root * root = n then 0 else 1)) 2

/-- The reciprocal of the square root, to the nearest number. A number
with an empty exponent field counts as zero. -/
def rsqrt (w : Word) : Word :=
  if isNaN w then quiet w
  else if exponentField w = 0 then infinity (isNegative w)
  else if isNegative w then invalid
  else if isInfinite w then zero false
  else
    let root := natRoot (2 ^ (149 * 3 + 512) / quanta w)
    ofQuotient false (2 * root + 1) (2 ^ 257)

/-! ### Comparison and conversion -/

/-- Whether two numbers compare, as all do but those that are not
numbers. -/
def ordered (a b : Word) : Bool := !isNaN a && !isNaN b

/-- Whether one number is below another. -/
def lt (a b : Word) : Bool := ordered a b && signedQuanta a < signedQuanta b

/-- Whether two numbers are equal, zeros of either sign included. -/
def eq (a b : Word) : Bool := ordered a b && signedQuanta a == signedQuanta b

/-- The signed value of an integer word. -/
def intOfWord (w : Word) : Int := Int.bmod w.toNat (2 ^ 32)

/-- The word of an integer. -/
def wordOfInt (i : Int) : Word := UInt32.ofNat (i % 2 ^ 32).toNat

/-- The number nearest to an integer word. -/
def ofInt (w : Word) : Word := ofSignedQuanta false (intOfWord w * 2 ^ 149)

/-- The integer word of a number without its fraction. A number that no
integer word holds gives the least one. -/
def truncate (w : Word) : Word :=
  if isNaN w || isInfinite w then 0x80000000
  else
    let whole : Nat := quanta w / 2 ^ 149
    let i : Int := if isNegative w then -(whole : Int) else whole
    if -(2 ^ 31) ≤ i ∧ i < 2 ^ 31 then wordOfInt i else 0x80000000

end Binary32

end Shading
