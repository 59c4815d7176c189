import Shading.Lowering.Move
import Shading.Ty.Rules

/-!
# Arithmetic and intrinsic functions

Each operation leaves its result in a place that the caller chose, which
is none of its operands. The operation computes in that place if it is a
register, and else in a scratch register.

| operands            | operation                                        |
|---------------------|--------------------------------------------------|
| vectors, matrices   | row by row, four lanes at a time                 |
| vector and scalar   | the scalar in all four lanes                     |
| matrix and vector   | a product per row, added up across the lanes     |
| matrices            | for each row, the rows of the right one weighted |
| scalars, one float  | the other one converted                          |
| integers            | 32-bit, division through `eax` and `edx`         |
-/

namespace Shading.Lower

/-! ## Vectors and matrices -/

/-- The number of 16-byte rows of a value that is moved in rows. -/
def rowCount (t : Ty) : Nat := if t.isMatrix then t.elementCount else 1

/-- Adds or subtracts vectors or matrices. -/
def packed (op : BinaryOp) (out : Location) (lhs rhs : Value) : Lower Unit := do
  let o : Opcode ← match op with
    | .add => pure .addps
    | .subtract => pure .subps
    | _ => malformed (.undefinedOperation op lhs.ty rhs.ty)
  forRows (rowCount lhs.ty) fun row => do
    let dest := out.offsetBy (row * 16)
    let l := lhs.location.offsetBy (row * 16)
    let r := rhs.location.offsetBy (row * 16)
    let (acc, lease) ← accumulator dest .simd [dest, l, r]
    transfer .packed acc l
    emit o acc r
    settle dest acc lease .packed

/-- Scales a vector. -/
def vectorScalar (out : Location) (lhs rhs : Value) : Lower Unit := do
  let scalar ← acquire .simd [out, lhs.location, rhs.location]
  storeWhole scalar.location .float rhs
  emit .shufps scalar.location scalar.location [0]
  let (acc, lease) ←
    accumulator out .simd [out, lhs.location, rhs.location, scalar.location]
  transfer .packed acc lhs.location
  emit .mulps acc scalar.location
  settle out acc lease .packed
  release scalar

/-- Leases so many SSE registers, each beside the locations to avoid and
the registers leased before it. -/
def acquireSimd : (count : Nat) → List Location → Lower (List Lease)
  | 0, _ => return []
  | count + 1, avoid => do
    let lease ← acquire .simd avoid
    return lease :: (← acquireSimd count (avoid ++ [lease.location]))

/-- Ends leases in order. -/
def releaseAll (leases : List Lease) : Lower Unit := leases.forM release

/-- Applies a matrix to a vector. Each row is multiplied by the vector,
and three horizontal sums bring the four sums into the four lanes. -/
def matrixVector (out : Location) (matrix vector : Value) : Lower Unit := do
  let rows := matrix.ty.elementCount
  let leases ← acquireSimd 4 [out, matrix.location, vector.location]
  match leases.map Lease.location with
  | [r0, r1, r2, r3] =>
    ([r0, r1, r2, r3].take rows).zipIdx.forM fun (r, row) => do
      transfer .packed r (matrix.location.offsetBy (row * 16))
      emit .mulps r vector.location
      if matrix.ty.element? = some .vec3 then
        emit .andps r (← constant (.vector xyzMask))
    if rows = 3 then emit .xorps r3 r3
    emit .haddps r0 r1
    emit .haddps r2 r3
    emit .haddps r0 r2
    transfer .packed out r0
  | _ => pure ()
  releaseAll leases.reverse

/-- Multiplies matrices of one type. Row *i* of the product is the sum of
the rows of the right one, weighted by the elements of row *i* of the
left one. -/
def matrixProduct (out : Location) (lhs rhs : Value) : Lower Unit := do
  let rows := lhs.ty.elementCount
  let acc ← acquire .simd [out, lhs.location, rhs.location]
  let term ← acquire .simd [out, lhs.location, rhs.location, acc.location]
  let a := acc.location
  let t := term.location
  forRows rows fun i => do
    emit .xorps a a
    forRows rows fun j => do
      emit .movssLoad t (lhs.location.offsetBy (i * 16 + j * 4))
      emit .shufps t t [0]
      emit .mulps t (rhs.location.offsetBy (j * 16))
      emit .addps a t
    transfer .packed (out.offsetBy (i * 16)) a
  release term
  release acc

/-! ## Scalars -/

/-- The opcode of an operation on floats. -/
def floatOpcode : BinaryOp → Opcode
  | .add => .addss
  | .subtract => .subss
  | .multiply => .mulss
  | .divide => .divss

/-- Computes with floats. -/
def scalarFloat (op : BinaryOp) (out : Location) (lhs rhs : Value) : Lower Unit := do
  let (acc, lease) ← accumulator out .simd [out, lhs.location, rhs.location]
  store acc .float lhs
  let (right, rightLease) ← floatOperand rhs [acc, out, lhs.location, rhs.location]
  emit (floatOpcode op) acc right
  releaseOption rightLease
  settle out acc lease .single

/-- Divides integers. `eax` and `edx` are saved around the division, and
the divisor is read from memory, so no third register is needed. A
dividend in `edx` is still there when it is read. -/
def integerDivision (out : Location) (lhs rhs : Value) : Lower Unit := do
  let slots ← divisionSlots
  let eax : Location := .register 0
  let edx : Location := .register 2
  emitStore .movStore slots.eax eax
  emitStore .movStore slots.edx edx
  let divisor ←
    if rhs.location.isRegister then do
      emitStore .movStore slots.divisor rhs.location
      pure slots.divisor
    else pure rhs.location
  transfer .dword eax lhs.location
  modifyAssembly fun a => a.write .cdq
  emitUnary .idiv divisor
  if out.isRegister then
    emitStore .movStore slots.divisor eax
    emit .movLoad eax slots.eax
    emit .movLoad edx slots.edx
    emit .movLoad out slots.divisor
  else
    emitStore .movStore out eax
    emit .movLoad eax slots.eax
    emit .movLoad edx slots.edx

/-- Computes with integers. -/
def scalarInt (op : BinaryOp) (out : Location) (lhs rhs : Value) : Lower Unit := do
  let compute (o : Opcode) : Lower Unit := do
    let (acc, lease) ← accumulator out .general [out, lhs.location, rhs.location]
    transfer .dword acc lhs.location
    emit o acc rhs.location
    settle out acc lease .dword
  match op with
  | .add => compute .add
  | .subtract => compute .sub
  | .multiply => compute .imul
  | .divide => integerDivision out lhs rhs

/-- **Computes a binary operation** of a result type into a place. -/
def binary (op : BinaryOp) (out : Location) (ty : Ty) (lhs rhs : Value) : Lower Unit :=
  if op = .multiply ∧ lhs.ty.isMatrix ∧ rhs.ty.isMatrix then matrixProduct out lhs rhs
  else if op = .multiply ∧ lhs.ty.isMatrix ∧ rhs.ty.isVector then matrixVector out lhs rhs
  else if lhs.ty.isVector ∧ rhs.ty.isScalar then vectorScalar out lhs rhs
  else if lhs.ty.isVector then packed op out lhs rhs
  else if ty = .float then scalarFloat op out lhs rhs
  else scalarInt op out lhs rhs

/-- **Negates a value into a place**: integers by subtraction, floats by
their sign bits. -/
def negate (out : Location) (v : Value) : Lower Unit := do
  if v.ty.isIntegral then
    let (acc, lease) ← accumulator out .general [out, v.location]
    transfer .dword acc v.location
    emitUnary .neg acc
    settle out acc lease .dword
  else
    let w : Width := .ofTy v.ty
    let mask ← constant (.vector signMask)
    forRows (rowCount v.ty) fun row => do
      let dest := out.offsetBy (row * 16)
      let src := v.location.offsetBy (row * 16)
      let (acc, lease) ← accumulator dest .simd [dest, src]
      transfer w acc src
      emit .xorps acc mask
      settle dest acc lease w

/-- **Inverts a truth value into a place.** -/
def invert (out : Location) (v : Value) : Lower Unit := do
  let (acc, lease) ← accumulator out .general [out, v.location]
  transfer .dword acc v.location
  emitUnary .xorImm8 acc [1]
  settle out acc lease .dword

/-! ## Intrinsic functions -/

/-- Leaves the dot product of the first three lanes of `a` and `b` in
every lane of a register; without `b` it is that of `a` with itself. -/
def dotProduct (acc : Location) (a : Location) (b : Option Location) : Lower Unit := do
  transfer .packed acc a
  emit .mulps acc (b.getD acc)
  emit .andps acc (← constant (.vector xyzMask))
  emit .haddps acc acc
  emit .haddps acc acc

/-- Scales a vector to length one. -/
def normalize (out : Location) (v : Value) : Lower Unit := do
  let vector ← acquire .simd [out, v.location]
  let scale ← acquire .simd [out, v.location, vector.location]
  let x := vector.location
  let s := scale.location
  transfer .packed x v.location
  dotProduct s x none
  emit .rsqrtps s s
  emit .mulps x s
  transfer .packed out x
  release scale
  release vector

/-- The length of a vector. -/
def vectorLength (out : Location) (v : Value) : Lower Unit := do
  let scratch ← acquire .simd [out, v.location]
  let s := scratch.location
  dotProduct s v.location none
  emit .sqrtss s s
  transfer .single out s
  release scratch

/-- The dot product of the first three lanes. -/
def dot3 (out : Location) (a b : Value) : Lower Unit := do
  let scratch ← acquire .simd [out, a.location, b.location]
  let s := scratch.location
  dotProduct s a.location (some b.location)
  transfer .single out s
  release scratch

/-- The larger of two floats. -/
def larger (out : Location) (a b : Value) : Lower Unit := do
  let (acc, lease) ← accumulator out .simd [out, a.location, b.location]
  store acc .float a
  let (right, rightLease) ← floatOperand b [acc, out, a.location, b.location]
  emit .maxss acc right
  releaseOption rightLease
  settle out acc lease .single

/-- A float, or the bound it is beyond. -/
def clamp (out : Location) (x lo hi : Value) : Lower Unit := do
  let avoid := [out, x.location, lo.location, hi.location]
  let (acc, lease) ← accumulator out .simd avoid
  store acc .float x
  let (low, lowLease) ← floatOperand lo (acc :: avoid)
  let (high, highLease) ← floatOperand hi (acc :: low :: avoid)
  emit .comiss acc low
  let aboveLow ← emitJump (.shortWhen .aboveEqual)
  emit .movssLoad acc low
  bindLabel aboveLow
  emit .comiss acc high
  let belowHigh ← emitJump (.shortWhen .belowEqual)
  emit .movssLoad acc high
  bindLabel belowHigh
  releaseOption highLease
  releaseOption lowLease
  settle out acc lease .single

/-- **Computes an intrinsic function** of the stage into a place. -/
def intrinsic (name : String) (out : Location) (args : List Value) : Lower Unit :=
  match name, args with
  | "normalize", [v] => normalize out v
  | "length", [v] => vectorLength out v
  | "dot3", [a, b] => dot3 out a b
  | "max", [a, b] => larger out a b
  | "clamp", [x, lo, hi] => clamp out x lo hi
  | "nop", [_] => pure ()
  | _, _ => fail (.unsupported (.intrinsic name))

end Shading.Lower
