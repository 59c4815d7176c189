import Shading.Proofs.Lowering.Innermost

/-!
# The scope that is told is the innermost one

A scope is left before its name is used again by those it was opened in, so
whenever an expression is lowered the scope that it is told is the innermost
one (`Agrees`). What is lowered with the innermost scope is made of parts that
are lowered like this (`expression_binary` and the equations beside it).
Statements and functions name the scopes that they open themselves, and are
made of such parts, too (`effect_eq`, `function_eq`). So all that a lowering
does is told without the names of scopes.
-/

namespace Shading.Lower

variable {α β : Type}

/-! ## Scopes and places -/

/-- A state in which a scope has just been opened. -/
def opened (s : LoweringState) : LoweringState :=
  { s with scopes := s.layout.openScope :: s.scopes,
           transcript := .opened s.scopes.length s.layout.openScope :: s.transcript }

theorem enterScope_eq (s : LoweringState) : enterScope s = .ok (s.scopes.length, opened s) := rfl

/-- The scope that was opened last is the innermost one. -/
theorem leaveScope_eq {s : LoweringState} {scope : TemporaryScope} {scopes : List TemporaryScope}
    (open_ : s.scopes = scope :: scopes) : leaveScope scopes.length s = .ok (.unit,
      { s with scopes, layout := s.layout.closeScope scope, transcript := .closed scopes.length scope :: s.transcript }) := by
  have at_ : s.scopes.reverse[scopes.length]? = some scope := by simp [open_]
  unfold leaveScope
  simp only [bind, StateT.bind, get, getThe, MonadStateOf.get, StateT.get, pure, Except.pure, Except.bind, at_]
  have rest : (s.scopes.reverse.eraseIdx scopes.length).reverse = scopes := by
    rw [open_, List.reverse_cons, ← List.length_reverse, List.eraseIdx_append_of_length_le (Nat.le_refl _)]
    simp
  exact congrArg (fun left => Except.ok (PUnit.unit, { s with
    scopes := left, layout := s.layout.closeScope scope,
    transcript := .closed scopes.length scope :: s.transcript })) rest

/-- **A temporary in the innermost scope.** -/
theorem place_def (ty : Ty) : place ty = (do
    let s ← get
    let (location, scopes, layout) ←
      match s.scopes with
      | [] => do
        let (location, layout) ← s.layout.place ty .local
        pure (location, [], layout)
      | scope :: scopes => do
        let (location, scope, layout) ← s.layout.placeIn scope ty
        pure (location, scope :: scopes, layout)
    modify fun s => { s with scopes, layout }
    record (.placed (s.scopes.length - 1) ty location)
    return location) := by
  funext s
  unfold place here innermost placeIn
  have last : (StateT.pure (s.scopes.length - 1) : Lower ScopeId) s = .ok (s.scopes.length - 1, s) := rfl
  simp only [bind, StateT.bind, get, getThe, MonadStateOf.get, StateT.get, pure, Except.pure, Except.bind, last]
  cases open_ : s.scopes with
  | nil =>
    simp only [List.reverse_nil, List.getElem?_nil]
  | cons scope scopes =>
    have at_ : (scope :: scopes).reverse[(scope :: scopes).length - 1]? = some scope := by simp
    have set (x : TemporaryScope) : ((scope :: scopes).reverse.set ((scope :: scopes).length - 1) x).reverse =
        x :: scopes := by simp
    simp only [at_, set]

/-- A temporary in local memory. -/
theorem placeInMemory_def (ty : Ty) : placeInMemory ty = (do
    let s ← get
    let (location, layout) ← s.layout.placeInMemory ty .local
    modify fun s => { s with layout }
    record (.placed (s.scopes.length - 1) ty location)
    return location) := rfl

/-! ## Actions that agree where a scope is innermost -/

/-- **Two actions are the same** where a scope is the innermost one. -/
def Same (id : ScopeId) (x y : Lower α) : Prop := ∀ s : LoweringState, s.scopes.length - 1 = id → x s = y s

/-- **Two actions agree**: they are the same where a scope is the innermost
one, which it is after them as well. -/
structure Agrees (id : ScopeId) (x y : Lower α) : Prop where
  same : Same id x y
  steady : ∀ s : LoweringState, s.scopes.length - 1 = id →
    Results x s fun _ t => t.scopes.length = s.scopes.length

theorem bind_congr_of_results {x : Lower α} {f g : α → Lower β} {s : LoweringState} {Q : α → LoweringState → Prop}
    (results : Results x s Q) (same : ∀ a t, Q a t → f a t = g a t) : (x >>= f) s = (x >>= g) s := by
  change (StateT.bind x f) s = (StateT.bind x g) s
  simp only [StateT.bind, bind, Except.bind]
  cases run : x s with
  | error e => rfl
  | ok v => exact same v.1 v.2 (results v.1 v.2 run)

theorem Same.bind {id : ScopeId} {x y : Lower α} {f g : α → Lower β} (h : Agrees id x y)
    (hk : ∀ a, Same id (f a) (g a)) : Same id (x >>= f) (y >>= g) := fun s inner => by
  have first : (x >>= g) s = (y >>= g) s := by
    change (StateT.bind x g) s = (StateT.bind y g) s
    simp only [StateT.bind, h.same s inner]
  refine (bind_congr_of_results (h.steady s inner) fun a t steady => ?_).trans first
  exact hk a t (by rw [steady, inner])

namespace Agrees

variable {id : ScopeId} {x y : Lower α} {f g : α → Lower β}

theorem refl (h : Unscoped x) : Agrees id x x :=
  ⟨fun _ _ => rfl, fun s _ => (h s).mono fun _ _ same => by rw [same]⟩

theorem bind (h : Agrees id x y) (hk : ∀ a, Agrees id (f a) (g a)) : Agrees id (x >>= f) (y >>= g) where
  same := Same.bind h fun a => (hk a).same
  steady := fun s inner => (h.steady s inner).bind fun a t steady =>
    ((hk a).steady t (by rw [steady, inner])).mono fun _ _ steady' => steady'.trans steady

/-- What looks at the state first. -/
theorem get {k k' : LoweringState → Lower α} (hk : ∀ s, Agrees id (k s) (k' s)) :
    Agrees id (MonadState.get >>= k) (MonadState.get >>= k') :=
  (refl (Unscoped.get fun _ => .pure _ : Unscoped (MonadState.get >>= Pure.pure))).bind hk

theorem ite {p : Prop} [Decidable p] {x' y' : Lower α} (h : Agrees id x y) (h' : Agrees id x' y') :
    Agrees id (if p then x else x') (if p then y else y') := by
  split
  · exact h
  · exact h'

theorem forM {γ : Type} {action action' : γ → Lower Unit} (each : ∀ c, Agrees id (action c) (action' c)) :
    ∀ cs : List γ, Agrees id (cs.forM action) (cs.forM action')
  | [] => refl (.pure ())
  | c :: cs => (each c).bind fun _ => forM each cs

/-- An action that is told a scope is the same with the innermost one. -/
theorem toHere (action : ScopeId → Lower α) (h : Agrees id (action id) y) : Agrees id (action id) (here action) where
  same := fun s inner => by
    subst inner
    rfl
  steady := h.steady

end Agrees

/-- An action in a scope of its own need not be told the name of that
scope. -/
theorem withScope_eq {action : ScopeId → Lower α} {y : Lower α} (h : ∀ inner, Same inner (action inner) y) :
    withScope action = inScope y := by
  funext s
  have inner : action s.scopes.length (opened s) = y (opened s) := h _ _ (by simp [opened])
  unfold inScope withScope
  simp only [bind, StateT.bind, enterScope_eq, Except.bind, inner]

namespace Agrees

variable {id : ScopeId} {x y : Lower α} {f g : α → Lower β}

/-- **An action in a scope of its own** may be told the name of that
scope. -/
theorem withScope {action : ScopeId → Lower α} (h : ∀ inner, Agrees inner (action inner) y) :
    Agrees id (Lower.withScope action) (inScope y) where
  same := fun s _ => by rw [withScope_eq fun inner => (h inner).same]
  steady := fun s _ => by
    unfold Lower.withScope
    refine Results.bind (.intro (enterScope_eq s) ⟨rfl, rfl⟩ : Results enterScope s fun id t =>
      id = s.scopes.length ∧ t = opened s) ?_
    rintro _ _ ⟨rfl, rfl⟩
    refine ((h _).steady (opened s) (by simp [opened])).bind fun a t steady => ?_
    cases open_ : t.scopes with
    | nil => simp [open_, opened] at steady
    | cons scope scopes =>
      have length : scopes.length = s.scopes.length := by simpa [open_, opened] using steady
      rw [← length]
      refine Results.bind (.intro (leaveScope_eq open_) rfl : Results _ t fun _ u => u.scopes = scopes) fun _ u same => ?_
      exact .pure (by rw [same])

end Agrees

/-- The innermost scope is told apart from no other one. -/
theorem here_eq {action : ScopeId → Lower α} {y : Lower α} (h : ∀ id, Same id (action id) y) : here action = y := by
  funext s
  exact h _ s rfl

/-! ## Places and values -/

theorem placeIn_steady (id : ScopeId) (ty : Ty) (s : LoweringState) :
    Results (placeIn id ty) s fun _ t => t.scopes.length = s.scopes.length := by
  have rest (placed : Location × List TemporaryScope × Layout) (same : placed.2.1.length = s.scopes.length) :
      Results (do
        modify fun s => { s with scopes := placed.2.1, layout := placed.2.2 }
        record (.placed id ty placed.1)
        return placed.1) s fun _ t => t.scopes.length = s.scopes.length :=
    .intro rfl same
  have lift {γ : Type} (r : Except Error γ) : Results (liftM r : Lower γ) s fun _ t => t = s := by
    cases r with
    | error e => rintro a t ⟨⟩
    | ok a => exact .intro rfl rfl
  unfold placeIn
  refine .bindGet ?_
  dsimp only
  split
  · refine (lift _).bind ?_
    rintro placed _ rfl
    exact rest (placed.1, _, placed.2) rfl
  · refine (lift _).bind ?_
    rintro placed _ rfl
    exact rest (placed.1, _, placed.2.2) (by simp)

theorem placeIn_agrees (id : ScopeId) (ty : Ty) : Agrees id (placeIn id ty) (place ty) where
  same := fun s inner => by
    subst inner
    rfl
  steady := fun s _ => placeIn_steady id ty s

theorem placeMemoryIn_agrees (id : ScopeId) (ty : Ty) : Agrees id (placeMemoryIn id ty) (placeInMemory ty) :=
  .toHere (placeMemoryIn · ty) <| .refl <| .get fun _ => .bind (.lift _) fun _ =>
    .bind (.keeping fun _ => rfl) fun _ => .bind (.record _) fun _ => .pure _

/-- Copying a lane into a place. -/
theorem materializeIn_same (id : ScopeId) (v : Value) : Agrees id (materializeIn id v) (do
    match v.location with
    | .registerLane simd shift =>
      let out ← place .float
      let (acc, lease) ← accumulator out .simd [out, v.location]
      emit .movupsLoad acc (.simdRegister simd)
      if 0 < shift then emitUnary .psrldq acc [UInt8.ofNat shift]
      emit .andps acc (← constant (.vector lane0Mask))
      settle out acc lease .single
      finish v
      return { location := out, ty := .float }
    | _ => return v) := by
  unfold materializeIn
  cases v.location with
  | registerLane simd shift =>
    have masked (acc : Location × Option Lease) (out : Location) : Unscoped (do
        emit .andps acc.1 (← constant (.vector lane0Mask))
        settle out acc.1 acc.2 .single
        finish v
        return ({ location := out, ty := .float } : Value)) :=
      .bind (.constant _) fun _ => .bind (.emit _ _ _ _) fun _ => .bind (.settle _ _ _ _) fun _ =>
        .bind (.finish _) fun _ => .pure _
    exact (placeIn_agrees id _).bind fun out => .refl <| .bind (.accumulator _ _ _) fun acc =>
      .bind (.emit _ _ _ _) fun _ => .ite (.bind (.emitUnary _ _ _) fun _ => masked acc out) (masked acc out)
  | _ => exact .refl (.pure _)

theorem materializeIn_agrees (id : ScopeId) (v : Value) : Agrees id (materializeIn id v) (materialize v) :=
  (materializeIn_same id v).toHere (materializeIn · v)

theorem literalIn_same (id : ScopeId) (l : Literal) : Agrees id (literalIn id l) (match l with
    | .float bits => do
      return { location := ← constant (.float bits), ty := .float }
    | .int value => do
      let out ← place .int
      emitUnary .movImm out (wordBytes (wordOfInt value))
      return { location := out, ty := .int }
    | .bool value => do
      let out ← place .bool
      emitUnary .movImm out (wordBytes (if value then 1 else 0))
      return { location := out, ty := .bool }) := by
  cases l with
  | float bits => exact .refl (.bind (.constant _) fun _ => .pure _)
  | int value => exact (placeIn_agrees id _).bind fun _ => .refl (.bind (.emitUnary _ _ _) fun _ => .pure _)
  | bool value => exact (placeIn_agrees id _).bind fun _ => .refl (.bind (.emitUnary _ _ _) fun _ => .pure _)

theorem binaryValueIn_agrees (id : ScopeId) (op : BinaryOp) (ty : Ty) {lhs rhs : ScopeId → Lower Value} {l r : Lower Value}
    (hl : ∀ inner, Agrees inner (lhs inner) l) (hr : ∀ inner, Agrees inner (rhs inner) r) :
    Agrees id (binaryValueIn id op ty lhs rhs) (binaryValue op ty l r) :=
  (placeIn_agrees id ty).bind fun _ => Agrees.bind (.withScope fun inner => (hl inner).bind fun _ =>
    (hr inner).bind fun _ => .refl (.bind (.binary _ _ _ _ _) fun _ => .bind (.finish _) fun _ => .finish _))
    fun _ => .refl (.pure _)

theorem unaryValueIn_agrees (id : ScopeId) {compute : Location → Value → Lower Unit} (ty : Ty)
    {operand : ScopeId → Lower Value} {x : Lower Value} (unscoped : ∀ out v, Unscoped (compute out v))
    (h : ∀ inner, Agrees inner (operand inner) x) :
    Agrees id (unaryValueIn id compute ty operand) (unaryValue compute ty x) :=
  (placeIn_agrees id ty).bind fun _ => Agrees.bind (.withScope fun inner => (h inner).bind fun _ =>
    .refl (.bind (unscoped _ _) fun _ => .finish _)) fun _ => .refl (.pure _)

theorem assignValueIn_agrees (id : ScopeId) (op : Option BinaryOp) (targetTy valueTy : Ty) {target t v : Lower Value}
    {value : ScopeId → Lower Value} (ht : Agrees id target t) (hv : ∀ inner, Agrees inner (value inner) v) :
    Agrees id (assignValueIn op targetTy valueTy target value) (assignValue op targetTy valueTy t v) := by
  refine ht.bind fun dest => Agrees.bind (.withScope fun inner => (hv inner).bind fun source => ?_) fun _ => .refl ?_
  · cases op with
    | none => exact .refl (.bind (.store _ _ _) fun _ => .finish _)
    | some op =>
      exact (materializeIn_agrees inner _).bind fun _ => (placeIn_agrees inner _).bind fun _ =>
        .refl (.bind (.binary _ _ _ _ _) fun _ => .bind (.store _ _ _) fun _ => .finish _)
  · cases dest.writeBack with
    | none => exact .pure _
    | some back => exact .bind (.transfer _ _ _) fun _ => .pure _

theorem indexMemory_agrees (id : ScopeId) (container : Value) (stride : Nat) (element : Ty) {x y : Lower Value}
    (h : Agrees id x y) : Agrees id (indexMemory container stride element x) (indexMemory container stride element y) := by
  refine h.bind fun i => .refl <| .bind (.acquire _ _) fun address => .bind (.transfer _ _ _) fun _ =>
    .bind (.emit _ _ _ _) fun _ => .bind (.emit _ _ _ _) fun _ => ?_
  have rest : Unscoped (do
      finish i
      finish container
      return ({ location := .indirectRegister address.id, ty := element, lease := some address } : Value)) :=
    .bind (.finish _) fun _ => .bind (.finish _) fun _ => .pure _
  cases container.location with
  | indirectRegister base => exact .bind (.emit _ _ _ _) fun _ => rest
  | _ => exact .bind (.acquire _ _) fun _ => .bind (.emit _ _ _ _) fun _ => .bind (.emit _ _ _ _) fun _ =>
      .bind (.release _) fun _ => rest

theorem subscriptValueIn_agrees (id : ScopeId) (assignable : Bool) (container : Value) (indexExpr : Expr) {x y : Lower Value}
    (h : Agrees id x y) : Agrees id (subscriptValueIn id assignable container indexExpr x)
      (subscriptValue assignable container indexExpr y) := by
  unfold subscriptValueIn subscriptValue
  cases container.ty.element? with
  | none => exact .refl (.fail _)
  | some element =>
    cases container.location <;> cases literalIndex? container.ty indexExpr
    case simdRegister.none simd =>
      exact (placeMemoryIn_agrees id _).bind fun spill => Agrees.bind (.refl (.transfer _ _ _)) fun _ =>
        (indexMemory_agrees id _ _ _ h).bind fun _ => .refl (.ite (.pure _) (.pure _))
    case simdRegister.some => exact .refl (.pure _)
    case globalMemory.none => exact indexMemory_agrees id _ _ _ h
    case globalMemory.some => exact .refl (.pure _)
    case localMemory.none => exact indexMemory_agrees id _ _ _ h
    case localMemory.some => exact .refl (.pure _)
    case indirectRegister.none => exact indexMemory_agrees id _ _ _ h
    case indirectRegister.some => exact .refl (.optional (.emitUnary _ _ _) (.pure _))
    all_goals exact .refl (.fail _)

theorem callValueIn_agrees (id : ScopeId) (function : FunctionId) (name : String) (ty : Ty)
    {args : ScopeId → Lower (List Value)} {x : Lower (List Value)} (h : ∀ inner, Agrees inner (args inner) x) :
    Agrees id (callValueIn id function name ty args) (callValue function name ty x) := by
  refine .get fun s => .ite ?_ (.refl (.fail _))
  have inside (out : Location) : Agrees id (do
      withScope fun inner => do
        let values ← args inner
        intrinsic name out values
        values.reverse.forM finish
      return ({ location := out, ty } : Value)) (do
      inScope do
        let values ← x
        intrinsic name out values
        values.reverse.forM finish
      return ({ location := out, ty } : Value)) :=
    Agrees.bind (.withScope fun inner => (h inner).bind fun _ =>
      .refl (.bind (.intrinsic _ _ _) fun _ => .forM .finish _)) fun _ => .refl (.pure _)
  exact .ite (Agrees.bind (.refl (.pure _)) inside) ((placeIn_agrees id ty).bind inside)

/-! ## Expressions -/

mutual

/-- **An expression is lowered in the innermost scope**, if it is told that
one. -/
theorem expressionIn_agrees (id : ScopeId) (asTarget : Bool) :
    (e : Expr) → Agrees id (expressionIn id asTarget e) (expression asTarget e)
  | .literal l ty p => .toHere (expressionIn · asTarget (.literal l ty p)) (literalIn_same id l)
  | .name symbol ty p => .toHere (expressionIn · asTarget (.name symbol ty p)) (.refl (.variableValue symbol))
  | .binary op lhs rhs ty p => .toHere (expressionIn · asTarget (.binary op lhs rhs ty p)) <|
    binaryValueIn_agrees id op ty (fun inner => expressionIn_agrees inner false lhs)
      fun inner => expressionIn_agrees inner false rhs
  | .assign op target value ty p => .toHere (expressionIn · asTarget (.assign op target value ty p)) <|
    (assignValueIn_agrees id op target.ty value.ty (expressionIn_agrees id true target)
      fun inner => expressionIn_agrees inner false value).bind fun v => materializeIn_agrees id v
  | .relational op lhs rhs ty p => .toHere (expressionIn · asTarget (.relational op lhs rhs ty p)) (.refl (.fail _))
  | .negate operand ty p => .toHere (expressionIn · asTarget (.negate operand ty p)) <|
    unaryValueIn_agrees id ty .negate fun inner => expressionIn_agrees inner false operand
  | .not operand ty p => .toHere (expressionIn · asTarget (.not operand ty p)) <|
    unaryValueIn_agrees id ty .invert fun inner => expressionIn_agrees inner false operand
  | .subscript base index ty p => .toHere (expressionIn · asTarget (.subscript base index ty p)) <|
    (expressionIn_agrees id asTarget base).bind fun container =>
      (subscriptValueIn_agrees id asTarget container index (expressionIn_agrees id false index)).bind fun element =>
        .ite (.refl (.pure _)) (materializeIn_agrees id element)
  | .call function name args ty p => .toHere (expressionIn · asTarget (.call function name args ty p)) <|
    callValueIn_agrees id function name ty fun inner => argumentsIn_agrees inner args

theorem argumentsIn_agrees (id : ScopeId) : (es : List Expr) → Agrees id (argumentsIn id es) (arguments es)
  | [] => .toHere (argumentsIn · []) (.refl (.pure _))
  | e :: es => .toHere (argumentsIn · (e :: es)) <|
    (expressionIn_agrees id false e).bind fun _ => (argumentsIn_agrees id es).bind fun _ => .refl (.pure _)

end

section Equations

variable (asTarget : Bool) (ty : Ty) (p : Position)

theorem materialize_def (v : Value) : materialize v = (do
    match v.location with
    | .registerLane simd shift =>
      let out ← place .float
      let (acc, lease) ← accumulator out .simd [out, v.location]
      emit .movupsLoad acc (.simdRegister simd)
      if 0 < shift then emitUnary .psrldq acc [UInt8.ofNat shift]
      emit .andps acc (← constant (.vector lane0Mask))
      settle out acc lease .single
      finish v
      return { location := out, ty := .float }
    | _ => return v) := here_eq fun id => (materializeIn_same id v).same

theorem literal_ofFloat (bits : Word) : literal (.float bits) = (do
    return { location := ← constant (.float bits), ty := .float }) :=
  here_eq fun id => (literalIn_same id (.float bits)).same

theorem literal_ofInt (value : Int) : literal (.int value) = (do
    let out ← place .int
    emitUnary .movImm out (wordBytes (wordOfInt value))
    return { location := out, ty := .int }) := here_eq fun id => (literalIn_same id (.int value)).same

theorem literal_ofBool (value : Bool) : literal (.bool value) = (do
    let out ← place .bool
    emitUnary .movImm out (wordBytes (if value then 1 else 0))
    return { location := out, ty := .bool }) := here_eq fun id => (literalIn_same id (.bool value)).same

theorem expression_literal (l : Literal) : expression asTarget (.literal l ty p) = literal l := rfl

theorem expression_name (symbol : SymbolId) : expression asTarget (.name symbol ty p) = variableValue symbol := rfl

theorem expression_binary (op : BinaryOp) (lhs rhs : Expr) : expression asTarget (.binary op lhs rhs ty p) =
    binaryValue op ty (expression false lhs) (expression false rhs) :=
  here_eq fun id => (binaryValueIn_agrees id op ty (fun inner => expressionIn_agrees inner false lhs)
    fun inner => expressionIn_agrees inner false rhs).same

theorem expression_assign (op : Option BinaryOp) (target value : Expr) :
    expression asTarget (.assign op target value ty p) = (do
      materialize (← assignValue op target.ty value.ty (expression true target) (expression false value))) :=
  here_eq fun id => ((assignValueIn_agrees id op target.ty value.ty (expressionIn_agrees id true target)
    fun inner => expressionIn_agrees inner false value).bind fun v => materializeIn_agrees id v).same

theorem expression_relational (op : RelationalOp) (lhs rhs : Expr) :
    expression asTarget (.relational op lhs rhs ty p) = malformed (.relationalValue op) := rfl

theorem expression_negate (operand : Expr) : expression asTarget (.negate operand ty p) =
    unaryValue negate ty (expression false operand) :=
  here_eq fun id => (unaryValueIn_agrees id ty .negate fun inner => expressionIn_agrees inner false operand).same

theorem expression_not (operand : Expr) : expression asTarget (.not operand ty p) =
    unaryValue invert ty (expression false operand) :=
  here_eq fun id => (unaryValueIn_agrees id ty .invert fun inner => expressionIn_agrees inner false operand).same

theorem expression_subscript (base index : Expr) : expression asTarget (.subscript base index ty p) = (do
    let container ← expression asTarget base
    let element ← subscriptValue asTarget container index (expression false index)
    if asTarget then return element else materialize element) :=
  here_eq fun id => ((expressionIn_agrees id asTarget base).bind fun container =>
    (subscriptValueIn_agrees id asTarget container index (expressionIn_agrees id false index)).bind fun element =>
      .ite (.refl (.pure _)) (materializeIn_agrees id element)).same

theorem expression_call (function : FunctionId) (name : String) (args : List Expr) :
    expression asTarget (.call function name args ty p) = callValue function name ty (arguments args) :=
  here_eq fun id => (callValueIn_agrees id function name ty fun inner => argumentsIn_agrees inner args).same

theorem arguments_nil : arguments [] = return [] := rfl

theorem arguments_cons (e : Expr) (es : List Expr) : arguments (e :: es) = (do
    let v ← expression false e
    return v :: (← arguments es)) :=
  here_eq fun id => ((expressionIn_agrees id false e).bind fun _ =>
    (argumentsIn_agrees id es).bind fun _ => .refl (.pure _)).same

end Equations

/-! ## Statements and functions -/

theorem conditionJumpIn_same (id : ScopeId) (e : Expr) : Agrees id (conditionJumpIn id e) (match e with
    | .relational op lhs rhs _ _ => do
      let l ← value lhs
      let r ← value rhs
      let jump ← compare op l r
      finish r
      finish l
      return jump
    | e => do
      let v ← value e
      emitUnary .cmpImm8 v.location [0]
      finish v
      return .equal) := by
  have test (e : Expr) : Agrees id (do
      let v ← valueIn id e
      emitUnary .cmpImm8 v.location [0]
      finish v
      return Condition.equal) (do
      let v ← value e
      emitUnary .cmpImm8 v.location [0]
      finish v
      return Condition.equal) :=
    (expressionIn_agrees id false e).bind fun _ =>
      .refl (.bind (.emitUnary _ _ _) fun _ => .bind (.finish _) fun _ => .pure _)
  cases e with
  | relational op lhs rhs ty p =>
    exact (expressionIn_agrees id false lhs).bind fun _ => (expressionIn_agrees id false rhs).bind fun _ =>
      .refl (.bind (.compare _ _ _) fun _ => .bind (.finish _) fun _ => .bind (.finish _) fun _ => .pure _)
  | _ => exact test _

theorem conditionJump_def (e : Expr) : conditionJump e = (match e with
    | .relational op lhs rhs _ _ => do
      let l ← value lhs
      let r ← value rhs
      let jump ← compare op l r
      finish r
      finish l
      return jump
    | e => do
      let v ← value e
      emitUnary .cmpImm8 v.location [0]
      finish v
      return .equal) := here_eq fun id => (conditionJumpIn_same id e).same

/-- A condition is evaluated in a scope of its own. -/
theorem condition_eq (e : Expr) : condition e = inScope (do
    let jump ← conditionJump e
    emitJump (.when jump)) :=
  withScope_eq fun id => Same.bind (.toHere (conditionJumpIn · e) (conditionJumpIn_same id e)) fun _ _ _ => rfl

/-- An expression statement is evaluated in a scope of its own. -/
theorem effect_eq (e : Expr) : effect e = inScope (do
    let v ← value e
    finish v) :=
  withScope_eq fun id => Same.bind (expressionIn_agrees id false e) fun _ _ _ => rfl

/-- The first value of a local is evaluated in a scope of its own. -/
theorem initialise_eq (symbol : SymbolId) (e : Expr) : initialise symbol e = (do
    let s := ((← get).declarations.symbols.get? symbol)
    inScope do
      let v ← value e
      store ((s.map Symbol.location).getD .none) ((s.map Symbol.ty).getD .void) v
      finish v) := by
  unfold initialise
  refine congrArg (get >>= ·) (funext fun s => ?_)
  exact withScope_eq fun id => Same.bind (expressionIn_agrees id false e) fun _ _ _ => rfl

theorem placeParameterIn_same (frame : ScopeId) (id : SymbolId) : Agrees frame (placeParameterIn frame id) (do
    let ty := (← get).declarations.symbolTy id
    setLocation id (← place ty)) :=
  .get fun _ => (placeIn_agrees frame _).bind fun _ => .refl (.setLocation _ _)

theorem placeParameter_def (id : SymbolId) : placeParameter id = (do
    let ty := (← get).declarations.symbolTy id
    setLocation id (← place ty)) := here_eq fun frame => (placeParameterIn_same frame id).same

theorem placeLocalIn_same (frame : ScopeId) (id : SymbolId) : Agrees frame (placeLocalIn frame id) (do
    let s ← get
    let ty := s.declarations.symbolTy id
    let location ← match s.placement with
      | .memoryFirst => placeInMemory ty
      | .registerFirst => place ty
    setLocation id location) := .get fun s => by
  cases s.placement with
  | memoryFirst => exact (placeMemoryIn_agrees frame _).bind fun _ => .refl (.setLocation _ _)
  | registerFirst => exact (placeIn_agrees frame _).bind fun _ => .refl (.setLocation _ _)

theorem placeLocal_def (id : SymbolId) : placeLocal id = (do
    let s ← get
    let ty := s.declarations.symbolTy id
    let location ← match s.placement with
      | .memoryFirst => placeInMemory ty
      | .registerFirst => place ty
    setLocation id location) := here_eq fun frame => (placeLocalIn_same frame id).same

/-- **A function is lowered in a scope of its own**, which its variables are
placed in. -/
theorem function_eq (id : FunctionId) (body : List Statement) : function id body = (do
    modify fun s =>
      { s with assembly := { keepListing := s.assembly.keepListing }, function := some id,
               transcript := [] }
    let f := (← get).declarations.functions.get? id
    let call ← inScope do
      ((f.map Function.parameters).getD []).forM placeParameter
      ((f.map Function.locals).getD []).forM placeLocal
      let (call, assembly) := (← get).assembly.call "trampoline"
      modify fun s => { s with assembly }
      statements body
      emitReturn
      return call
    modify fun s => { s with function := none }
    return call) := by
  unfold function
  refine congrArg _ (funext fun _ => congrArg _ (funext fun s => ?_))
  refine congrArg (· >>= _) (withScope_eq fun frame => ?_)
  refine Same.bind (.forM (fun p => .toHere (placeParameterIn · p) (placeParameterIn_same frame p)) _) fun _ => ?_
  exact Same.bind (.forM (fun l => .toHere (placeLocalIn · l) (placeLocalIn_same frame l)) _) fun _ _ _ => rfl

end Shading.Lower
