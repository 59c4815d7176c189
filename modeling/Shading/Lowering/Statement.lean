import Shading.Lowering.Expression

/-!
# Lowering statements and functions

Each statement evaluates its expression in a scope of its own. A choice
jumps past its body when its condition fails, and over its other branch
behind the body. The code of a function starts with a call of the
trampoline, which the object holds, and ends with a return.
-/

namespace Shading.Lower

/-! ## Conditions -/

/-- The jump taken when a comparison of integers fails. -/
def signedFailure : RelationalOp → Condition
  | .less => .greaterEqual
  | .lessEquals => .greater
  | .greater => .lessEqual
  | .greaterEquals => .less
  | .equals => .notEqual
  | .notEquals => .equal

/-- The jump taken when a comparison of floats fails. -/
def floatFailure : RelationalOp → Condition
  | .less => .aboveEqual
  | .lessEquals => .above
  | .greater => .belowEqual
  | .greaterEquals => .below
  | .equals => .notEqual
  | .notEquals => .equal

/-- Compares integers; one of them has to be in a register. -/
def compareInts (lhs rhs : Value) : Lower Unit := do
  if lhs.location.isRegister then emit .cmpLoad lhs.location rhs.location
  else if rhs.location.isRegister then emitStore .cmpStore lhs.location rhs.location
  else
    let scratch ← acquire .general [lhs.location, rhs.location]
    transfer .dword scratch.location lhs.location
    emit .cmpLoad scratch.location rhs.location
    release scratch

/-- Compares numbers as floats; the left one has to be in a register. -/
def compareFloats (lhs rhs : Value) : Lower Unit := do
  let (left, leftLease) ←
    if lhs.ty = .float ∧ lhs.location.isRegister then pure (lhs.location, none)
    else do
      let scratch ← acquire .simd [lhs.location, rhs.location]
      store scratch.location .float lhs
      pure (scratch.location, some scratch)
  let (right, rightLease) ← floatOperand rhs [left, lhs.location, rhs.location]
  emit .comiss left right
  releaseOption rightLease
  releaseOption leftLease

/-- Compares two values, and gives the jump taken when the comparison
fails. -/
def compare (op : RelationalOp) (lhs rhs : Value) : Lower Condition := do
  if lhs.ty.isVector || rhs.ty.isVector then fail (.unsupported .vectorComparison)
  else if lhs.ty.isIntegral && rhs.ty.isIntegral then
    compareInts lhs rhs
    return signedFailure op
  else
    compareFloats lhs rhs
    return floatFailure op

/-- Evaluates a condition, and gives the jump taken when it fails. -/
def conditionJumpIn (scope : ScopeId) : Expr → Lower Condition
  | .relational op lhs rhs _ _ => do
    let l ← valueIn scope lhs
    let r ← valueIn scope rhs
    let jump ← compare op l r
    finish r
    finish l
    return jump
  | e => do
    let v ← valueIn scope e
    emitUnary .cmpImm8 v.location [0]
    finish v
    return .equal

/-- **Emits a jump that is taken when a condition fails**, and gives its
label. Reloads between the comparison and the jump leave the flags as
they are. -/
def condition (e : Expr) : Lower Nat :=
  withScope fun scope => do
    let jump ← conditionJumpIn scope e
    emitJump (.when jump)

/-! ## Statements -/

/-- Evaluates an expression and gives its value up. -/
def effect (e : Expr) : Lower Unit :=
  withScope fun scope => do
    let v ← valueIn scope e
    finish v

/-- Gives a local its first value. -/
def initialise (symbol : SymbolId) (e : Expr) : Lower Unit := do
  let s := ((← get).declarations.symbols.get? symbol)
  withScope fun scope => do
    let v ← valueIn scope e
    store ((s.map Symbol.location).getD .none) ((s.map Symbol.ty).getD .void) v
    finish v

mutual

/-- **Lowers a statement.** -/
def statement : Statement → Lower Unit
  | .localVariable _ none => pure ()
  | .localVariable symbol (some e) => initialise symbol e
  | .expression e => effect e
  | .branch s => choice s
  | .whileLoop _ _ => malformed .whileLoop
  | .forLoop _ _ _ _ => malformed .forLoop
  | .ret none => emitReturn
  | .ret (some e) => do
    effect e
    emitReturn

/-- Lowers a choice. -/
def choice : IfStatement → Lower Unit
  | .mk c body otherwise => do
    let skip ← condition c
    statements body
    branchOtherwise skip otherwise

/-- Lowers what stands behind the body of a choice, to which the jump of
its condition leads. -/
def branchOtherwise (skip : Nat) : ElseBranch → Lower Unit
  | .none => bindLabel skip
  | .chain s => do
    let stop ← emitJump .always
    bindLabel skip
    choice s
    bindLabel stop
  | .block body => do
    let stop ← emitJump .always
    bindLabel skip
    statements body
    bindLabel stop

/-- Lowers statements in order. -/
def statements : List Statement → Lower Unit
  | [] => pure ()
  | s :: ss => do
    statement s
    statements ss

end

/-! ## Functions -/

/-- Gives a symbol a place. -/
def setLocation (id : SymbolId) (location : Location) : Lower Unit :=
  modify fun s =>
    { s with declarations :=
        { s.declarations with symbols := s.declarations.symbols.place id location } }

/-- Places a parameter in the scope of its function. -/
def placeParameterIn (frame : ScopeId) (id : SymbolId) : Lower Unit := do
  let ty := (← get).declarations.symbolTy id
  setLocation id (← placeIn frame ty)

/-- Places a local in the scope of its function, as the policy says. -/
def placeLocalIn (frame : ScopeId) (id : SymbolId) : Lower Unit := do
  let s ← get
  let ty := s.declarations.symbolTy id
  let location ← match s.placement with
    | .memoryFirst => placeMemoryIn frame ty
    | .registerFirst => placeIn frame ty
  setLocation id location

/-- **Lowers a function** into empty code, and gives the offset of the
distance of its first call. -/
def function (id : FunctionId) (body : List Statement) : Lower Nat := do
  modify fun s =>
    { s with assembly := { keepListing := s.assembly.keepListing }, function := some id,
             transcript := [] }
  let f := (← get).declarations.functions.get? id
  let call ← withScope fun frame => do
    ((f.map Function.parameters).getD []).forM (placeParameterIn frame)
    ((f.map Function.locals).getD []).forM (placeLocalIn frame)
    let (call, assembly) := (← get).assembly.call "trampoline"
    modify fun s => { s with assembly }
    statements body
    emitReturn
    return call
  modify fun s => { s with function := none }
  return call

end Shading.Lower
