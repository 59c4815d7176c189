import Shading.Lowering.Arithmetic

/-!
# Lowering expressions

A name is its own storage. Every operator places its result, in the scope
that it was given, before it opens a scope for its operands, so local
memory is released in the reverse order it was taken.

An expression is lowered for its value or, as the target of an
assignment, for its storage. The two differ in subscripts: as a value,
an element of a vector register is copied out of its lane.
-/

namespace Shading.Lower

/-- The value of a literal: floats are pooled, other literals are placed
and set. -/
def literalIn (scope : ScopeId) : Literal → Lower Value
  | .float bits => do
    return { location := ← constant (.float bits), ty := .float }
  | .int value => do
    let out ← placeIn scope .int
    emitUnary .movImm out (wordBytes (wordOfInt value))
    return { location := out, ty := .int }
  | .bool value => do
    let out ← placeIn scope .bool
    emitUnary .movImm out (wordBytes (if value then 1 else 0))
    return { location := out, ty := .bool }

/-- The storage of a variable. -/
def variableValue (id : SymbolId) : Lower Value := do
  match (← get).declarations.symbols.get? id with
  | none => malformed (.noStorage "")
  | some s =>
    if s.kind = .function ∨ s.location = .none then malformed (.noStorage s.name)
    else return { location := s.location, ty := s.ty }

/-- Computes an operation on two operands, each evaluated in the inner
scope, into a new place. -/
def binaryValueIn (scope : ScopeId) (op : BinaryOp) (ty : Ty) (lhs rhs : ScopeId → Lower Value) :
    Lower Value := do
  let out ← placeIn scope ty
  withScope fun inner => do
    let l ← lhs inner
    let r ← rhs inner
    binary op out ty l r
    finish r
    finish l
  return { location := out, ty }

/-- Computes an operation on one operand into a new place. -/
def unaryValueIn (scope : ScopeId) (compute : Location → Value → Lower Unit) (ty : Ty)
    (operand : ScopeId → Lower Value) : Lower Value := do
  let out ← placeIn scope ty
  withScope fun inner => do
    let v ← operand inner
    compute out v
    finish v
  return { location := out, ty }

/-- **Assigns a value to a target.** An assignment with an operator
combines the value with a copy of what the target holds. A vector that
was spilled to be indexed is loaded into its register again. -/
def assignValueIn (op : Option BinaryOp) (targetTy valueTy : Ty)
    (target : Lower Value) (value : ScopeId → Lower Value) : Lower Value := do
  let dest ← target
  withScope fun inner => do
    let source ← value inner
    match op with
    | none => store dest.location targetTy source
    | some op =>
      let current ← materializeIn inner { location := dest.location, ty := dest.ty }
      let ty := targetTy.arith valueTy
      let result ← placeIn inner ty
      binary op result ty current source
      store dest.location targetTy { location := result, ty }
    finish source
  match dest.writeBack with
  | some back => transfer .packed back.register back.spill
  | none => pure ()
  return { dest with writeBack := none }

/-- **Computes the address of an element** into a leased register: that
of the container and so many strides. -/
def indexMemory (container : Value) (stride : Nat) (element : Ty) (index : Lower Value) :
    Lower Value := do
  let i ← index
  let address ← acquire .general [i.location, container.location]
  let target := address.location
  transfer .dword target i.location
  emit .movsxd target target
  emit .imulImm64 target target (wordBytes stride)
  match container.location with
  | .indirectRegister base => emit .add64 target (.register base)
  | _ =>
    let base ← acquire .general [target, i.location, container.location]
    emit .lea base.location container.location
    emit .add64 target base.location
    release base
  finish i
  finish container
  return { location := .indirectRegister address.id, ty := element, lease := some address }

/-- The element of a container that a literal index names, if it is in
range. -/
def literalIndex? (container : Ty) : Expr → Option Nat
  | .literal (.int k) _ _ =>
    if 0 ≤ k ∧ k < container.elementCount then some k.toNat else none
  | _ => none

/-- **The storage of an element.** A literal index in range moves the
location or names a lane; any other index is computed, and a vector in a
register is spilled for it. -/
def subscriptValueIn (scope : ScopeId) (assignable : Bool) (container : Value) (indexExpr : Expr)
    (index : Lower Value) : Lower Value := do
  match container.ty.element? with
  | none => malformed (.subscripted container.ty)
  | some element =>
    let stride := container.ty.stride
    match container.location, literalIndex? container.ty indexExpr with
    | .simdRegister simd, some k =>
      return { location := .registerLane simd (k * 4), ty := element }
    | .simdRegister _, none =>
      let spill ← placeMemoryIn scope container.ty
      transfer .packed spill container.location
      let v ← indexMemory { location := spill, ty := container.ty } stride element index
      if assignable then
        return { v with writeBack := some ⟨container.location, spill⟩ }
      else return v
    | .globalMemory _, some k | .localMemory _, some k =>
      return { container with location := container.location.offsetBy (k * stride), ty := element }
    | .indirectRegister address, some k =>
      if 0 < k then emitUnary .addImm64 (.register address) (wordBytes (k * stride))
      return { container with ty := element }
    | .globalMemory _, none | .localMemory _, none | .indirectRegister _, none =>
      indexMemory container stride element index
    | other, _ => malformed (.subscriptedAt other)

/-- **Calls an intrinsic function** on arguments. -/
def callValueIn (scope : ScopeId) (function : FunctionId) (name : String) (ty : Ty)
    (args : ScopeId → Lower (List Value)) : Lower Value := do
  if ((← get).declarations.functions.get? function).any Function.intrinsic then
    let out ← if ty = .void then pure .none else placeIn scope ty
    withScope fun inner => do
      let values ← args inner
      intrinsic name out values
      values.reverse.forM finish
    return { location := out, ty }
  else fail (.unsupported .functionCall)

mutual

/-- **Lowers an expression**, for its storage if it is the target of an
assignment and else for its value. Its temporaries are those of a scope. -/
def expressionIn (scope : ScopeId) (asTarget : Bool) : Expr → Lower Value
  | .literal value _ _ => literalIn scope value
  | .name symbol _ _ => variableValue symbol
  | .binary op lhs rhs ty _ =>
    binaryValueIn scope op ty (expressionIn · false lhs) (expressionIn · false rhs)
  | .assign op target value _ _ => do
    materializeIn scope
      (← assignValueIn op target.ty value.ty (expressionIn scope true target)
        (expressionIn · false value))
  | .relational op _ _ _ _ => malformed (.relationalValue op)
  | .negate operand ty _ => unaryValueIn scope negate ty (expressionIn · false operand)
  | .not operand ty _ => unaryValueIn scope invert ty (expressionIn · false operand)
  | .subscript base index _ _ => do
    let container ← expressionIn scope asTarget base
    let element ←
      subscriptValueIn scope asTarget container index (expressionIn scope false index)
    if asTarget then return element else materializeIn scope element
  | .call function name args ty _ => callValueIn scope function name ty (argumentsIn · args)

/-- Lowers arguments from left to right. -/
def argumentsIn (scope : ScopeId) : List Expr → Lower (List Value)
  | [] => return []
  | e :: es => do
    let v ← expressionIn scope false e
    return v :: (← argumentsIn scope es)

end

/-- **Lowers an expression for its value.** -/
def valueIn (scope : ScopeId) (e : Expr) : Lower Value := expressionIn scope false e

end Shading.Lower
