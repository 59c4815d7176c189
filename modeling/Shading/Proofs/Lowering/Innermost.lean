import Shading.Program
import Shading.Proofs.Outcome

/-!
# Lowering in the innermost scope

Each action that places temporaries is told the scope that they belong to.
Nothing forces this to be the innermost scope, in which alone memory can be
handed out and given back like a stack. `here` runs an action with the
innermost scope, and what is lowered like this has parts in which no scope has
a name any more. Most actions leave the scopes alone (`Unscoped`).
-/

namespace Shading.Lower

variable {α β : Type}

/-! ## The innermost scope -/

/-- The name of the innermost open scope. -/
def innermost : Lower ScopeId := return (← get).scopes.length - 1

/-- **Runs an action with the innermost scope.** -/
def here (action : ScopeId → Lower α) : Lower α := do action (← innermost)

/-- Runs an action that needs no name in a scope of its own. -/
def inScope (action : Lower α) : Lower α := withScope fun _ => action

/-- Places a temporary in the innermost scope. -/
def place (ty : Ty) : Lower Location := here (placeIn · ty)

/-- Places a temporary in local memory until the innermost scope closes. -/
def placeInMemory (ty : Ty) : Lower Location := here (placeMemoryIn · ty)

/-- Copies a lane of a register into a scalar place. -/
def materialize (v : Value) : Lower Value := here (materializeIn · v)

/-- The value of a literal. -/
def literal (l : Literal) : Lower Value := here (literalIn · l)

/-- **Lowers an expression in the innermost scope.** -/
def expression (asTarget : Bool) (e : Expr) : Lower Value := here (expressionIn · asTarget e)

/-- Lowers arguments in the innermost scope. -/
def arguments (es : List Expr) : Lower (List Value) := here (argumentsIn · es)

/-- Lowers an expression for its value. -/
def value (e : Expr) : Lower Value := expression false e

/-- Evaluates a condition. -/
def conditionJump (e : Expr) : Lower Condition := here (conditionJumpIn · e)

/-- Places a parameter. -/
def placeParameter (id : SymbolId) : Lower Unit := here (placeParameterIn · id)

/-- Places a local. -/
def placeLocal (id : SymbolId) : Lower Unit := here (placeLocalIn · id)

/-! ### Parts of expressions

The operands of these are lowered in the scope that is innermost then. -/

/-- Computes an operation on two operands into a new place. -/
def binaryValue (op : BinaryOp) (ty : Ty) (lhs rhs : Lower Value) : Lower Value := do
  let out ← place ty
  inScope do
    let l ← lhs
    let r ← rhs
    binary op out ty l r
    finish r
    finish l
  return { location := out, ty }

/-- Computes an operation on one operand into a new place. -/
def unaryValue (compute : Location → Value → Lower Unit) (ty : Ty) (operand : Lower Value) :
    Lower Value := do
  let out ← place ty
  inScope do
    let v ← operand
    compute out v
    finish v
  return { location := out, ty }

/-- Assigns a value to a target. -/
def assignValue (op : Option BinaryOp) (targetTy valueTy : Ty) (target value : Lower Value) :
    Lower Value := do
  let dest ← target
  inScope do
    let source ← value
    match op with
    | none => store dest.location targetTy source
    | some op =>
      let current ← materialize { location := dest.location, ty := dest.ty }
      let ty := targetTy.arith valueTy
      let result ← place ty
      binary op result ty current source
      store dest.location targetTy { location := result, ty }
    finish source
  match dest.writeBack with
  | some back => transfer .packed back.register back.spill
  | none => pure ()
  return { dest with writeBack := none }

/-- The storage of an element. -/
def subscriptValue (assignable : Bool) (container : Value) (indexExpr : Expr)
    (index : Lower Value) : Lower Value := do
  match container.ty.element? with
  | none => malformed (.subscripted container.ty)
  | some element =>
    let stride := container.ty.stride
    match container.location, literalIndex? container.ty indexExpr with
    | .simdRegister simd, some k =>
      return { location := .registerLane simd (k * 4), ty := element }
    | .simdRegister _, none =>
      let spill ← placeInMemory container.ty
      transfer .packed spill container.location
      let v ← indexMemory { location := spill, ty := container.ty } stride element index
      if assignable then
        return { v with writeBack := some ⟨container.location, spill⟩ }
      else return v
    | .globalMemory _, some k | .localMemory _, some k =>
      return { container with location := container.location.offsetBy (k * stride), ty := element }
    | .indirectRegister address, some k =>
      if 0 < k then emitUnary .addImm64 (.register address) (wordBytes (k * stride))
      return { container with ty := element }
    | .globalMemory _, none | .localMemory _, none | .indirectRegister _, none =>
      indexMemory container stride element index
    | other, _ => malformed (.subscriptedAt other)

/-- Calls an intrinsic function on arguments. -/
def callValue (function : FunctionId) (name : String) (ty : Ty) (args : Lower (List Value)) :
    Lower Value := do
  if ((← get).declarations.functions.get? function).any Function.intrinsic then
    let out ← if ty = .void then pure .none else place ty
    inScope do
      let values ← args
      intrinsic name out values
      values.reverse.forM finish
    return { location := out, ty }
  else fail (.unsupported .functionCall)

/-! ## Actions that leave the scopes alone -/

/-- **An action leaves the open scopes as they are.** -/
def Unscoped (x : Lower α) : Prop := ∀ s, Results x s fun _ t => t.scopes = s.scopes

namespace Unscoped

variable {x : Lower α} {k : α → Lower β} {k' : LoweringState → Lower α}

theorem pure (a : α) : Unscoped (Pure.pure a : Lower α) := fun _ => .pure rfl

theorem bind (hx : Unscoped x) (hk : ∀ a, Unscoped (k a)) : Unscoped (x >>= k) := fun s =>
  (hx s).bind fun a t h => (hk a t).mono fun _ _ h' => h'.trans h

theorem get (hk : ∀ s, Unscoped (k' s)) : Unscoped (MonadState.get >>= k' : Lower α) := fun s => .bindGet (hk s s)

theorem fail (e : Error) : Unscoped (Lower.fail e : Lower α) := by rintro s a t ⟨⟩

theorem lift (r : Except Error α) : Unscoped (liftM r : Lower α) := by
  cases r with
  | error e => rintro s a t ⟨⟩
  | ok a => exact fun s => .intro rfl rfl

theorem keeping {f : LoweringState → LoweringState} (same : ∀ s, (f s).scopes = s.scopes) :
    Unscoped (modify f : Lower Unit) := fun s => .modify (same s)

theorem ite {p : Prop} [Decidable p] {y : Lower α} (hx : Unscoped x) (hy : Unscoped y) :
    Unscoped (if p then x else y) := by
  split
  · exact hx
  · exact hy

/-- An action is taken or not, and the next one follows. -/
theorem optional {p : Prop} [Decidable p] {x : Lower Unit} {k : Unit → Lower α} (hx : Unscoped x)
    (hk : Unscoped (k ())) : Unscoped (if p then x >>= k else k ()) :=
  ite (hx.bind fun _ => hk) hk

theorem forM {γ : Type} {action : γ → Lower Unit} (each : ∀ x, Unscoped (action x)) :
    ∀ xs : List γ, Unscoped (xs.forM action)
  | [] => pure ()
  | x :: xs => bind (each x) fun _ => forM each xs

theorem record (e : LoweringEvent) : Unscoped (Lower.record e) := keeping fun _ => rfl

theorem allocateGlobal (size : Nat) : Unscoped (Lower.allocateGlobal size) :=
  get fun _ => bind (keeping fun _ => rfl) fun _ => pure _

theorem divisionSlots : Unscoped Lower.divisionSlots := get fun s => by
  cases s.divisionSlots with
  | some slots => exact pure slots
  | none =>
    exact bind (allocateGlobal 4) fun _ => bind (allocateGlobal 4) fun _ => bind (allocateGlobal 4) fun _ =>
      bind (keeping fun _ => rfl) fun _ => pure _

theorem constant (c : Constant) : Unscoped (Lower.constant c) := get fun s => by
  cases s.constants.offset? c with
  | some offset => exact pure _
  | none => exact bind (allocateGlobal _) fun _ => bind (keeping fun _ => rfl) fun _ => pure _

theorem emitWith (i : Instruction Nat) (named : List Location) : Unscoped (Lower.emitWith i named) :=
  get fun _ => bind (record _) fun _ => keeping fun _ => rfl

theorem emit (o : Opcode) (reg rm : Location) (immediate : List UInt8) : Unscoped (Lower.emit o reg rm immediate) :=
  bind (lift _) fun _ => bind (lift _) fun _ => emitWith _ _

theorem emitStore (o : Opcode) (rm reg : Location) : Unscoped (Lower.emitStore o rm reg) :=
  bind (lift _) fun _ => bind (lift _) fun _ => emitWith _ _

theorem emitUnary (o : Opcode) (rm : Location) (immediate : List UInt8) : Unscoped (Lower.emitUnary o rm immediate) :=
  bind (lift _) fun _ => emitWith _ _

theorem emitJump (form : JumpForm) : Unscoped (Lower.emitJump form) :=
  get fun _ => bind (keeping fun _ => rfl) fun _ => pure _

theorem bindLabel (l : Nat) : Unscoped (Lower.bindLabel l) :=
  get fun _ => bind (lift _) fun _ => keeping fun _ => rfl

theorem acquire (c : RegisterClass) (avoid : List Location) : Unscoped (Lower.acquire c avoid) :=
  get fun _ => bind (lift _) fun leased => bind (keeping fun _ => rfl) fun _ => bind (record _) fun _ => by
    cases leased.1.spill with
    | some slot => exact bind (emitStore _ _ _) fun _ => pure _
    | none => exact bind (pure ()) fun _ => pure _

theorem release (x : Lease) : Unscoped (Lower.release x) := by
  unfold Lower.release
  cases x.spill with
  | some slot => exact bind (emit _ _ _ _) fun _ => bind (keeping fun _ => rfl) fun _ => record _
  | none => exact bind (keeping fun _ => rfl) fun _ => record _

theorem releaseOption : ∀ x : Option Lease, Unscoped (Lower.releaseOption x)
  | some x => release x
  | none => pure ()

theorem finish (v : Value) : Unscoped (Lower.finish v) := releaseOption v.lease

theorem transfer (w : Width) (dest src : Location) : Unscoped (Lower.transfer w dest src) :=
  ite (pure ()) (ite (emit _ _ _ _) (ite (emitStore _ _ _)
    (bind (acquire _ _) fun _ => bind (emit _ _ _ _) fun _ => bind (emitStore _ _ _) fun _ => release _)))

theorem accumulator (out : Location) (c : RegisterClass) (avoid : List Location) :
    Unscoped (Lower.accumulator out c avoid) :=
  ite (pure _) (bind (acquire _ _) fun _ => pure _)

theorem settle (out acc : Location) (x : Option Lease) (w : Width) : Unscoped (Lower.settle out acc x w) := by
  cases x with
  | some x => exact bind (transfer _ _ _) fun _ => release x
  | none => exact pure ()

theorem storeWhole (dest : Location) (ty : Ty) (v : Value) : Unscoped (Lower.storeWhole dest ty v) := by
  unfold Lower.storeWhole
  split
  · exact bind (accumulator _ _ _) fun _ => bind (emit _ _ _ _) fun _ => settle _ _ _ _
  · exact bind (accumulator _ _ _) fun _ => bind (emit _ _ _ _) fun _ => settle _ _ _ _
  · exact ite (forM (fun _ => transfer _ _ _) _) (transfer _ _ _)

theorem writeLane (simd shift : Nat) (v : Value) : Unscoped (Lower.writeLane simd shift v) :=
  bind (acquire _ _) fun _ => bind (storeWhole _ _ _) fun _ => bind (constant _) fun _ =>
    bind (emit _ _ _ _) fun _ => optional (emitUnary _ _ _) <| bind (constant _) fun _ =>
      bind (emit _ _ _ _) fun _ => bind (emit _ _ _ _) fun _ => release _

theorem store (dest : Location) (ty : Ty) (v : Value) : Unscoped (Lower.store dest ty v) := by
  unfold Lower.store
  split
  · exact writeLane _ _ _
  · exact storeWhole _ _ _

theorem floatOperand (v : Value) (avoid : List Location) : Unscoped (Lower.floatOperand v avoid) :=
  ite (pure _) (bind (acquire _ _) fun _ => bind (emit _ _ _ _) fun _ => pure _)

/-! ### Operations -/

theorem packed (op : BinaryOp) (out : Location) (lhs rhs : Value) : Unscoped (Lower.packed op out lhs rhs) := by
  have rows (o : Opcode) : Unscoped (forRows (rowCount lhs.ty) fun row => do
      let dest := out.offsetBy (row * 16)
      let l := lhs.location.offsetBy (row * 16)
      let r := rhs.location.offsetBy (row * 16)
      let acc ← Lower.accumulator dest .simd [dest, l, r]
      Lower.transfer .packed acc.1 l
      Lower.emit o acc.1 r
      Lower.settle dest acc.1 acc.2 .packed) :=
    forM (fun _ => bind (accumulator _ _ _) fun _ => bind (transfer _ _ _) fun _ =>
      bind (emit _ _ _ _) fun _ => settle _ _ _ _) _
  unfold Lower.packed
  cases op with
  | add => exact bind (pure _) rows
  | subtract => exact bind (pure _) rows
  | multiply => exact bind (fail _) rows
  | divide => exact bind (fail _) rows

theorem vectorScalar (out : Location) (lhs rhs : Value) : Unscoped (Lower.vectorScalar out lhs rhs) :=
  bind (acquire _ _) fun _ => bind (storeWhole _ _ _) fun _ => bind (emit _ _ _ _) fun _ =>
    bind (accumulator _ _ _) fun _ => bind (transfer _ _ _) fun _ => bind (emit _ _ _ _) fun _ =>
      bind (settle _ _ _ _) fun _ => release _

theorem acquireSimd : ∀ (count : Nat) (avoid : List Location), Unscoped (Lower.acquireSimd count avoid)
  | 0, _ => pure _
  | count + 1, _ => bind (acquire _ _) fun _ => bind (acquireSimd count _) fun _ => pure _

theorem releaseAll (leases : List Lease) : Unscoped (Lower.releaseAll leases) := forM release leases

theorem matrixVector (out : Location) (matrix vector : Value) :
    Unscoped (Lower.matrixVector out matrix vector) := by
  refine bind (acquireSimd _ _) fun leases => ?_
  dsimp only
  split
  · refine bind (forM (fun _ => ?_) _) fun _ => ?_
    · exact bind (transfer _ _ _) fun _ => bind (emit _ _ _ _) fun _ =>
        ite (bind (constant _) fun _ => emit _ _ _ _) (pure _)
    · exact optional (emit _ _ _ _) <| bind (emit _ _ _ _) fun _ => bind (emit _ _ _ _) fun _ =>
        bind (emit _ _ _ _) fun _ => bind (transfer _ _ _) fun _ => releaseAll _
  · exact releaseAll _

theorem matrixProduct (out : Location) (lhs rhs : Value) : Unscoped (Lower.matrixProduct out lhs rhs) :=
  bind (acquire _ _) fun _ => bind (acquire _ _) fun _ =>
    bind (forM (fun _ => bind (emit _ _ _ _) fun _ => bind (forM (fun _ => bind (emit _ _ _ _) fun _ =>
      bind (emit _ _ _ _) fun _ => bind (emit _ _ _ _) fun _ => emit _ _ _ _) _) fun _ =>
        transfer _ _ _) _) fun _ => bind (release _) fun _ => release _

theorem scalarFloat (op : BinaryOp) (out : Location) (lhs rhs : Value) :
    Unscoped (Lower.scalarFloat op out lhs rhs) :=
  bind (accumulator _ _ _) fun _ => bind (store _ _ _) fun _ => bind (floatOperand _ _) fun _ =>
    bind (emit _ _ _ _) fun _ => bind (releaseOption _) fun _ => settle _ _ _ _

theorem integerDivision (out : Location) (lhs rhs : Value) : Unscoped (Lower.integerDivision out lhs rhs) := by
  refine bind divisionSlots fun slots => bind (emitStore _ _ _) fun _ => bind (emitStore _ _ _) fun _ => ?_
  have rest (divisor : Location) : Unscoped (do
      Lower.transfer .dword (.register 0) lhs.location
      modifyAssembly fun a => a.write .cdq
      Lower.emitUnary .idiv divisor
      if out.isRegister then
        Lower.emitStore .movStore slots.divisor (.register 0)
        Lower.emit .movLoad (.register 0) slots.eax
        Lower.emit .movLoad (.register 2) slots.edx
        Lower.emit .movLoad out slots.divisor
      else
        Lower.emitStore .movStore out (.register 0)
        Lower.emit .movLoad (.register 0) slots.eax
        Lower.emit .movLoad (.register 2) slots.edx) :=
    bind (transfer _ _ _) fun _ => bind (keeping fun _ => rfl) fun _ => bind (emitUnary _ _ _) fun _ =>
      ite (bind (emitStore _ _ _) fun _ => bind (emit _ _ _ _) fun _ => bind (emit _ _ _ _) fun _ => emit _ _ _ _)
        (bind (emitStore _ _ _) fun _ => bind (emit _ _ _ _) fun _ => emit _ _ _ _)
  exact ite (bind (emitStore _ _ _) fun _ => bind (pure _) rest) (bind (pure _) rest)

theorem scalarInt (op : BinaryOp) (out : Location) (lhs rhs : Value) : Unscoped (Lower.scalarInt op out lhs rhs) := by
  have compute (o : Opcode) : Unscoped (do
      let acc ← Lower.accumulator out .general [out, lhs.location, rhs.location]
      Lower.transfer .dword acc.1 lhs.location
      Lower.emit o acc.1 rhs.location
      Lower.settle out acc.1 acc.2 .dword) :=
    bind (accumulator _ _ _) fun _ => bind (transfer _ _ _) fun _ => bind (emit _ _ _ _) fun _ => settle _ _ _ _
  cases op with
  | add => exact compute _
  | subtract => exact compute _
  | multiply => exact compute _
  | divide => exact integerDivision _ _ _

theorem binary (op : BinaryOp) (out : Location) (ty : Ty) (lhs rhs : Value) :
    Unscoped (Lower.binary op out ty lhs rhs) :=
  ite (matrixProduct _ _ _) <| ite (matrixVector _ _ _) <| ite (vectorScalar _ _ _) <|
    ite (packed _ _ _ _) <| ite (scalarFloat _ _ _ _) (scalarInt _ _ _ _)

theorem negate (out : Location) (v : Value) : Unscoped (Lower.negate out v) :=
  ite (bind (accumulator _ _ _) fun _ => bind (transfer _ _ _) fun _ => bind (emitUnary _ _ _) fun _ =>
    settle _ _ _ _) <| bind (constant _) fun _ => forM (fun _ => bind (accumulator _ _ _) fun _ =>
      bind (transfer _ _ _) fun _ => bind (emit _ _ _ _) fun _ => settle _ _ _ _) _

theorem invert (out : Location) (v : Value) : Unscoped (Lower.invert out v) :=
  bind (accumulator _ _ _) fun _ => bind (transfer _ _ _) fun _ => bind (emitUnary _ _ _) fun _ => settle _ _ _ _

theorem dotProduct (acc a : Location) (b : Option Location) : Unscoped (Lower.dotProduct acc a b) :=
  bind (transfer _ _ _) fun _ => bind (emit _ _ _ _) fun _ => bind (constant _) fun _ =>
    bind (emit _ _ _ _) fun _ => bind (emit _ _ _ _) fun _ => emit _ _ _ _

theorem intrinsic (name : String) (out : Location) (args : List Value) : Unscoped (Lower.intrinsic name out args) := by
  unfold Lower.intrinsic
  split
  · exact bind (acquire _ _) fun _ => bind (acquire _ _) fun _ => bind (transfer _ _ _) fun _ =>
      bind (dotProduct _ _ _) fun _ => bind (emit _ _ _ _) fun _ => bind (emit _ _ _ _) fun _ =>
        bind (transfer _ _ _) fun _ => bind (release _) fun _ => release _
  · exact bind (acquire _ _) fun _ => bind (dotProduct _ _ _) fun _ => bind (emit _ _ _ _) fun _ =>
      bind (transfer _ _ _) fun _ => release _
  · exact bind (acquire _ _) fun _ => bind (dotProduct _ _ _) fun _ => bind (transfer _ _ _) fun _ => release _
  · exact bind (accumulator _ _ _) fun _ => bind (store _ _ _) fun _ => bind (floatOperand _ _) fun _ =>
      bind (emit _ _ _ _) fun _ => bind (releaseOption _) fun _ => settle _ _ _ _
  · refine bind (accumulator _ _ _) fun _ => bind (store _ _ _) fun _ => bind (floatOperand _ _) fun _ =>
      bind (floatOperand _ _) fun _ => ?_
    refine bind (emit _ _ _ _) fun _ => bind (emitJump _) fun _ => bind (emit _ _ _ _) fun _ => bind (bindLabel _) fun _ => ?_
    refine bind (emit _ _ _ _) fun _ => bind (emitJump _) fun _ => bind (emit _ _ _ _) fun _ => bind (bindLabel _) fun _ => ?_
    exact bind (releaseOption _) fun _ => bind (releaseOption _) fun _ => settle _ _ _ _
  · exact pure ()
  · exact fail _

theorem compareInts (lhs rhs : Value) : Unscoped (Lower.compareInts lhs rhs) :=
  ite (emit _ _ _ _) (ite (emitStore _ _ _) (bind (acquire _ _) fun _ => bind (transfer _ _ _) fun _ =>
    bind (emit _ _ _ _) fun _ => release _))

theorem compareFloats (lhs rhs : Value) : Unscoped (Lower.compareFloats lhs rhs) := by
  have rest (left : Location × Option Lease) : Unscoped (do
      let right ← Lower.floatOperand rhs [left.1, lhs.location, rhs.location]
      Lower.emit .comiss left.1 right.1
      Lower.releaseOption right.2
      Lower.releaseOption left.2) :=
    bind (floatOperand _ _) fun _ => bind (emit _ _ _ _) fun _ => bind (releaseOption _) fun _ => releaseOption _
  exact ite (bind (pure _) rest) (bind (acquire _ _) fun _ => bind (store _ _ _) fun _ => bind (pure _) rest)

theorem compare (op : RelationalOp) (lhs rhs : Value) : Unscoped (Lower.compare op lhs rhs) :=
  ite (fail _) (ite (bind (compareInts _ _) fun _ => pure _) (bind (compareFloats _ _) fun _ => pure _))

theorem variableValue (id : SymbolId) : Unscoped (Lower.variableValue id) := get fun s => by
  split
  · exact fail _
  · exact ite (fail _) (pure _)

theorem setLocation (id : SymbolId) (l : Location) : Unscoped (Lower.setLocation id l) := keeping fun _ => rfl

end Unscoped

end Shading.Lower
