import Shading.Ty

/-!
# Which types go together

The parser consults these rules each time it joins two expressions.
Additive, multiplicative and scalar rules speak of the operands of an
arithmetic operation, `assignable` of a slot and the value stored into
it, and `arith` names the type of an arithmetic result.
-/

namespace Shading.Ty

/-- Operands of `+` and `-`: two scalars, or two of one vector type. -/
def addable (lhs rhs : Ty) : Bool :=
  if lhs.isVector && rhs.isVector then lhs == rhs
  else lhs.isScalar && rhs.isScalar

/-- Operands of `*`: two scalars, a vector and a scalar, two matrices of
one type, or a matrix and one of its rows. -/
def multipliable (lhs rhs : Ty) : Bool :=
  match lhs.tyClass, rhs.tyClass with
  | .vector, .vector => (lhs.isMatrix && lhs == rhs) || lhs.element? == some rhs
  | .vector, .scalar => lhs.element?.any isScalar
  | .scalar, .scalar => true
  | _, _ => false

/-- Operands of `==` and `!=`: two scalars, or two of one type. -/
def comparable (lhs rhs : Ty) : Bool :=
  (lhs.isScalar && rhs.isScalar) || lhs == rhs

/-- Operands of `<`, `<=`, `>`, `>=` and `/`: two scalars. -/
def scalarPair (lhs rhs : Ty) : Bool :=
  lhs.isScalar && rhs.isScalar

/-- Whether a value of the second type may be stored in a slot of the
first. Scalars convert into each other, and no other types do. -/
def assignable (slot value : Ty) : Bool :=
  match slot.tyClass, value.tyClass with
  | .vector, _ | _, .vector => slot == value
  | .scalar, .scalar | .boolean, .boolean => true
  | _, _ => false

/-- The type of an arithmetic result. A vector scaled by a number keeps
its type, a matrix applied to a row gives a row, and of two scalars a
`float` wins. -/
def arith (lhs rhs : Ty) : Ty :=
  if lhs.isVector then
    if rhs.isScalar then lhs
    else if lhs.isMatrix && !rhs.isMatrix then rhs
    else lhs
  else if lhs.isScalar && (lhs == float || rhs == float) then float
  else lhs

end Shading.Ty
