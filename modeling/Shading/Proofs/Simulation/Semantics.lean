import Shading.Lowering.Expression
import Shading.Object

/-!
# What a shader means

The meaning of a shader is given on its typed tree, without registers or
memory. A value is a sequence of words in the order of storage, so lane *c* of
row *r* of a matrix is word *4r + c*; the words that its type leaves unused do
not matter. A variable may hold words that nothing has been written to yet, as
the locals do at the start. Reading such a variable has no meaning, and neither
has a division without a quotient.

Every float operation rounds by itself and in the order of the tree, and
integers wrap around. The reciprocal square root is a parameter.

Floats that do not compare are taken as both below and equal, so among them
`<`, `<=` and `==` hold.
-/

namespace Shading

/-! ## Values -/

/-- **The words of a value.** -/
abbrev Content := Nat → Word

/-- The words of its storage that a type uses. -/
def Ty.hasWord : Ty → Nat → Bool
  | .void, _ | .function, _ => false
  | .bool, i | .int, i | .float, i => i == 0
  | .vec3, i => i < 3
  | .vec4, i => i < 4
  | .mat3x3, i => i < 12 && i % 4 < 3
  | .mat4x4, i => i < 16

/-- **Why something has no meaning.** -/
inductive Stuck where
  /-- A quotient of integers that is none. -/
  | division
  /-- A word that nothing has been written to is read. -/
  | unassigned
  /-- A form that is given no meaning. -/
  | form
deriving DecidableEq, Repr

namespace Content

/-- The value of one word. -/
def scalar (w : Word) : Content := fun _ => w

/-- The words of a value from a row of four on. -/
def row (v : Content) (r : Nat) : Content := fun c => v (4 * r + c)

/-- The element of a container with a number. -/
def element (container : Ty) (k : Nat) (v : Content) : Content :=
  fun i => v (k * container.stride / 4 + i)

/-- A number as a float. -/
def toFloat (t : Ty) (v : Content) : Word := if t = .int then Binary32.ofInt (v 0) else v 0

/-! ## Arithmetic -/

/-- The operation on floats. -/
def floatOperation : BinaryOp → Word → Word → Word
  | .add => Binary32.add
  | .subtract => Binary32.sub
  | .multiply => Binary32.mul
  | .divide => Binary32.div

/-- The sum of the products of three or four words, added in pairs. -/
def dot (count : Nat) (a b : Content) : Word :=
  Binary32.add (Binary32.add (Binary32.mul (a 0) (b 0)) (Binary32.mul (a 1) (b 1)))
    (Binary32.add (Binary32.mul (a 2) (b 2)) (if count = 3 then 0 else Binary32.mul (a 3) (b 3)))

/-- A matrix applied to a vector: a sum for each row. -/
def matrixVector (rows : Nat) (m v : Content) : Content := fun r => dot rows (m.row r) v

/-- The product of two matrices: the rows of the right one, weighted and added
up from zero. -/
def matrixProduct (rows : Nat) (l r : Content) : Content := fun i =>
  (List.range rows).foldl
    (fun sum j => Binary32.add sum (Binary32.mul (l (4 * (i / 4) + j)) (r (4 * j + i % 4)))) 0

/-- **The truncated quotient of two integers**, if it is one. -/
def quotient (a b : Word) : Except Stuck Word :=
  let q := (Binary32.intOfWord a).tdiv (Binary32.intOfWord b)
  if Binary32.intOfWord b ≠ 0 ∧ -(2 ^ 31) ≤ q ∧ q < 2 ^ 31 then .ok (Binary32.wordOfInt q)
  else .error .division

/-- Arithmetic on integers. -/
def integerOperation (op : BinaryOp) (a b : Word) : Except Stuck Word :=
  match op with
  | .add => .ok (a + b)
  | .subtract => .ok (a - b)
  | .multiply => .ok (a * b)
  | .divide => quotient a b

/-- **A binary operation** on operands of two types. -/
def arithmetic (op : BinaryOp) (lt rt : Ty) (l r : Content) : Except Stuck Content :=
  if op = .multiply ∧ lt.isMatrix ∧ rt.isMatrix then .ok (matrixProduct lt.elementCount l r)
  else if op = .multiply ∧ lt.isMatrix ∧ rt.isVector then .ok (matrixVector lt.elementCount l r)
  else if lt.isVector ∧ rt.isScalar then .ok fun i => Binary32.mul (l i) (toFloat rt r)
  else if lt.isVector then .ok fun i => floatOperation op (l i) (r i)
  else if lt.arith rt = .float then .ok (scalar (floatOperation op (toFloat lt l) (toFloat rt r)))
  else (integerOperation op (l 0) (r 0)).map scalar

/-- The negative of a value. -/
def negated (t : Ty) (v : Content) : Content :=
  fun i => if t.isIntegral then 0 - v i else Binary32.opposite (v i)

/-- The other truth value. -/
def inverted (v : Content) : Content := scalar (v 0 ^^^ 1)

/-! ## Comparisons -/

/-- A comparison of signed integers. -/
def comparesIntegers (op : RelationalOp) (a b : Word) : Bool :=
  let x := Binary32.intOfWord a
  let y := Binary32.intOfWord b
  match op with
  | .equals => x == y
  | .notEquals => x != y
  | .less => x < y
  | .lessEquals => x ≤ y
  | .greater => y < x
  | .greaterEquals => y ≤ x

/-- A comparison of floats that compare. -/
def comparesOrdered (op : RelationalOp) (a b : Word) : Bool :=
  match op with
  | .equals => Binary32.eq a b
  | .notEquals => !Binary32.eq a b
  | .less => Binary32.lt a b
  | .lessEquals => Binary32.lt a b || Binary32.eq a b
  | .greater => Binary32.lt b a
  | .greaterEquals => Binary32.lt b a || Binary32.eq a b

/-- A comparison that holds of floats that do not compare. -/
def holdsUnordered : RelationalOp → Bool
  | .less | .lessEquals | .equals => true
  | .greater | .greaterEquals | .notEquals => false

/-- **A comparison of floats.** Among those that do not compare, `<`, `<=` and
`==` hold, and the others do not. -/
def comparesFloats (op : RelationalOp) (a b : Word) : Bool :=
  if Binary32.ordered a b then comparesOrdered op a b else holdsUnordered op

/-- **A comparison** of two numbers or truth values. -/
def compares (op : RelationalOp) (lt rt : Ty) (l r : Content) : Bool :=
  if lt.isIntegral && rt.isIntegral then comparesIntegers op (l 0) (r 0)
  else comparesFloats op (toFloat lt l) (toFloat rt r)

/-! ## Functions of the stage -/

/-- A float between two bounds. -/
def clamped (x lo hi : Word) : Word :=
  let y := if comparesFloats .less x lo then lo else x
  if comparesFloats .greater y hi then hi else y

/-- **A function of the stage** on arguments with their types. -/
def intrinsic (rsqrt : Word → Word) (name : String) (args : List (Ty × Content)) : Content :=
  match name, args with
  | "normalize", [(_, v)] => fun i => Binary32.mul (v i) (rsqrt (dot 3 v v))
  | "length", [(_, v)] => scalar (Binary32.sqrt (dot 3 v v))
  | "dot3", [(_, a), (_, b)] => scalar (dot 3 a b)
  | "max", [(s, a), (t, b)] => scalar (Binary32.max (toFloat s a) (toFloat t b))
  | "clamp", [(s, x), (t, lo), (u, hi)] => scalar (clamped (toFloat s x) (toFloat t lo) (toFloat u hi))
  | _, _ => scalar 0

end Content

/-! ## Expressions -/

/-- **What the variables hold**, word by word. -/
abbrev Store := SymbolId → Nat → Option Word

namespace Store

/-- **The value of a type that stands from a word of a variable on**, if each of
its words has been written. -/
def read (σ : Store) (id : SymbolId) (start : Nat) (t : Ty) : Except Stuck Content :=
  if (List.range 16).all (fun i => !t.hasWord i || (σ id (start + i)).isSome) then
    .ok fun i => (σ id (start + i)).getD 0
  else .error .unassigned

end Store

/-- The word of a literal. -/
def Literal.word : Literal → Word
  | int value => Binary32.wordOfInt value
  | float bits => bits
  | bool value => if value then 1 else 0

namespace Expr

/-- The number of the element that a subscript names, if it is a literal. -/
def elementNumber (container : Ty) (index : Expr) : Except Stuck Nat :=
  (Lower.literalIndex? container index).elim (.error .form) .ok

mutual

/-- **The value of an expression** without assignments, comparisons and computed
indices. -/
def eval (rsqrt : Word → Word) (σ : Store) : Expr → Except Stuck Content
  | literal v _ _ => .ok (.scalar v.word)
  | name id ty _ => σ.read id 0 ty
  | binary op lhs rhs _ _ => do
    let l ← lhs.eval rsqrt σ
    let r ← rhs.eval rsqrt σ
    Content.arithmetic op lhs.ty rhs.ty l r
  | assign _ _ _ _ _ | relational _ _ _ _ _ => .error .form
  | negate operand ty _ => do return .negated ty (← operand.eval rsqrt σ)
  | not operand _ _ => do return .inverted (← operand.eval rsqrt σ)
  | subscript base index _ _ => do
    let v ← base.eval rsqrt σ
    let k ← elementNumber base.ty index
    return .element base.ty k v
  | call _ callee args _ _ => do return Content.intrinsic rsqrt callee (← evalAll rsqrt σ args)

/-- The values of arguments, from left to right. -/
def evalAll (rsqrt : Word → Word) (σ : Store) : List Expr → Except Stuck (List (Ty × Content))
  | [] => .ok []
  | e :: es => do
    let v ← e.eval rsqrt σ
    return (e.ty, v) :: (← evalAll rsqrt σ es)

end

end Expr

end Shading
