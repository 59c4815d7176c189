import Shading.Proofs.Lowering.Operations

/-!
# What the lowering of a body respects

The float literals of an expression join the pool in the order in which they
are evaluated (`Expr.floats`). So what an expression does to a state is told by
a relation for each list of literals: one for the empty list that the steps
respect which read masks, one for a literal that joins the pool or is known to
it, and all others by chaining (`Lower.Follows`). Expressions, statements and
bodies respect the relation of their own literals (`Lower.Follows.expression`,
`Lower.Follows.statements`).

A relation that does not ask for the literals is `Lower.Closed`.
-/

namespace Shading

/-! ## Literals -/

/-- The floats of a literal. -/
def Literal.floats : Literal → List Word
  | .float bits => [bits]
  | .int _ | .bool _ => []

namespace Expr

mutual

/-- **The float literals of an expression**, in the order in which they are
evaluated. -/
def floats : Expr → List Word
  | literal v _ _ => v.floats
  | name _ _ _ => []
  | binary _ lhs rhs _ _ | relational _ lhs rhs _ _ => lhs.floats ++ rhs.floats
  | assign _ target value _ _ => target.floats ++ value.floats
  | negate operand _ _ | not operand _ _ => operand.floats
  | subscript base index _ _ => base.floats ++ index.floats
  | call _ _ args _ _ => allFloats args

/-- The float literals of expressions. -/
def allFloats : List Expr → List Word
  | [] => []
  | e :: es => e.floats ++ allFloats es

end

end Expr

mutual

/-- **The float literals of a statement.** -/
def Statement.floats : Statement → List Word
  | .localVariable _ none => []
  | .localVariable _ (some e) => e.floats
  | .expression e => e.floats
  | .branch c => c.floats
  | .whileLoop c body => c.floats ++ Statement.allFloats body
  | .forLoop first c step body => first.floats ++ c.floats ++ step.floats ++ Statement.allFloats body
  | .ret none => []
  | .ret (some e) => e.floats

/-- The float literals of a choice. -/
def IfStatement.floats : IfStatement → List Word
  | .mk c body otherwise => c.floats ++ (Statement.allFloats body ++ otherwise.floats)

/-- The float literals of what a choice does otherwise. -/
def ElseBranch.floats : ElseBranch → List Word
  | .none => []
  | .chain c => c.floats
  | .block body => Statement.allFloats body

/-- The float literals of statements. -/
def Statement.allFloats : List Statement → List Word
  | [] => []
  | s :: ss => s.floats ++ Statement.allFloats ss

end

/-- The float literals of a declaration. -/
def Item.floats : Item → List Word
  | .global _ _ => []
  | .function _ _ _ body => Statement.allFloats body

namespace Lower

/-! ## Relations for literals -/

/-- **Relations that a lowering respects**, one for each list of literals. -/
structure Follows (R : List Word → LoweringState → LoweringState → Prop) : Prop extends Masking (R []) where
  chain {w v : List Word} {s t u : LoweringState} : R w s t → R v t u → R (w ++ v) s u
  known (s : LoweringState) {bits : Word} {offset : Nat} :
    s.constants.offset? (.float bits) = some offset → R [bits] s s
  joins (s : LoweringState) {bits : Word} (offset : Nat) : s.constants.offset? (.float bits) = none →
    R [bits] s { s with constants := s.constants.add (.float bits) offset }

namespace Follows

variable {R : List Word → LoweringState → LoweringState → Prop} {α β : Type} {w v : List Word}
  {x : Lower α} {k : α → Lower β} (follows : Follows R)

include follows

theorem seq (hx : Respects (R w) x) (hk : ∀ a, Respects (R v) (k a)) : Respects (R (w ++ v)) (x >>= k) := fun s =>
  (hx s).bind fun a t h => (hk a t).mono fun _ _ h' => follows.chain h h'

theorem before (hx : Respects (R []) x) (hk : ∀ a, Respects (R w) (k a)) : Respects (R w) (x >>= k) :=
  follows.seq hx hk

theorem behind (hx : Respects (R w) x) (hk : ∀ a, Respects (R []) (k a)) : Respects (R w) (x >>= k) :=
  List.append_nil w ▸ follows.seq hx hk

theorem ofGet {k : LoweringState → Lower α} (hk : ∀ s, Respects (R w) (k s)) :
    Respects (R w) (MonadState.get >>= k) := follows.before follows.toMasking.get hk

theorem inScope (hx : Respects (R w) x) : Respects (R w) (Lower.inScope x) :=
  follows.before follows.enterScope fun _ => follows.behind hx fun _ => follows.step (follows.leaveScope _) fun _ =>
    follows.pure _

/-! ## Expressions -/

/-- **A float literal** is looked up or joins the pool. -/
theorem constant (bits : Word) : Respects (R [bits]) (Lower.constant (.float bits)) := by
  intro s l t run
  obtain ⟨offset, rfl, -, ⟨known, rfl⟩ | ⟨absent, layout, rfl⟩⟩ := constant_eq_ok run
  · exact follows.known _ known
  · exact follows.chain (w := []) (v := [bits]) (follows.storage (t := { s with layout }) rfl rfl rfl)
      (follows.joins _ offset absent)

theorem literal (v : Literal) : Respects (R v.floats) (Lower.literal v) := by
  cases v with
  | float bits =>
    rw [Lower.literal_ofFloat]
    exact follows.behind (follows.constant bits) fun _ => follows.pure _
  | int value =>
    rw [Lower.literal_ofInt]
    exact follows.step (follows.place _) fun _ => follows.step (follows.emitUnary _ _ rfl) fun _ => follows.pure _
  | bool value =>
    rw [Lower.literal_ofBool]
    exact follows.step (follows.place _) fun _ => follows.step (follows.emitUnary _ _ rfl) fun _ => follows.pure _

theorem variableValue (id : SymbolId) : Respects (R []) (Lower.variableValue id) := by
  refine follows.ofGet fun s => ?_
  split
  · exact Plain.fail _
  · exact Plain.ite (Plain.fail _) (follows.pure _)

theorem binaryValue (op : BinaryOp) (ty : Ty) {lhs rhs : Lower Value} (hl : Respects (R w) lhs)
    (hr : Respects (R v) rhs) : Respects (R (w ++ v)) (Lower.binaryValue op ty lhs rhs) :=
  follows.before (follows.place ty) fun _ => follows.behind
    (follows.inScope <| follows.seq hl fun _ => follows.behind hr fun _ => follows.step (follows.binary _ _ _ _ _) fun _ =>
      follows.step (follows.finish _) fun _ => follows.finish _) fun _ => follows.pure _

theorem unaryValue {compute : Location → Value → Lower Unit} (computes : ∀ out v, Respects (R []) (compute out v))
    (ty : Ty) {operand : Lower Value} (ho : Respects (R w) operand) :
    Respects (R w) (Lower.unaryValue compute ty operand) :=
  follows.before (follows.place ty) fun _ => follows.behind (follows.inScope <| follows.behind ho fun _ =>
    follows.step (computes _ _) fun _ => follows.finish _) fun _ => follows.pure _

/-- What an assignment does with its target and its value. -/
theorem assign (op : Option BinaryOp) (targetTy valueTy : Ty) (dest : Value) {value : Lower Value}
    (hv : Respects (R w) value) : Respects (R w) (Lower.inScope do
      let source ← value
      match op with
      | none => Lower.store dest.location targetTy source
      | some op =>
        let current ← Lower.materialize { location := dest.location, ty := dest.ty }
        let ty := targetTy.arith valueTy
        let result ← Lower.place ty
        Lower.binary op result ty current source
        Lower.store dest.location targetTy { location := result, ty }
      Lower.finish source) := by
  refine follows.inScope (follows.behind hv fun source => ?_)
  cases op with
  | none => exact follows.step (follows.store _ _ _) fun _ => follows.finish _
  | some op =>
    exact follows.step (follows.materialize _) fun _ => follows.step (follows.place _) fun _ =>
      follows.step (follows.binary _ _ _ _ _) fun _ => follows.step (follows.store _ _ _) fun _ => follows.finish _

theorem assignValue (op : Option BinaryOp) (targetTy valueTy : Ty) {target value : Lower Value}
    (ht : Respects (R w) target) (hv : Respects (R v) value) :
    Respects (R (w ++ v)) (Lower.assignValue op targetTy valueTy target value) := by
  refine follows.seq ht fun dest => follows.behind (follows.assign op targetTy valueTy dest hv) fun _ => ?_
  cases dest.writeBack with
  | some back => exact follows.step (follows.transfer _ _ _) fun _ => follows.pure _
  | none => exact follows.step (follows.pure ()) fun _ => follows.pure _

/-- What is done with an index once it is in the register of an address. -/
theorem addressing (container i : Value) (stride : Nat) (element : Ty) (address : Lease) : Respects (R []) (do
    Lower.emit .movsxd address.location address.location
    Lower.emit .imulImm64 address.location address.location (wordBytes stride)
    match container.location with
    | .indirectRegister base => Lower.emit .add64 address.location (.register base)
    | _ =>
      let base ← Lower.acquire .general [address.location, i.location, container.location]
      Lower.emit .lea base.location container.location
      Lower.emit .add64 address.location base.location
      Lower.release base
    Lower.finish i
    Lower.finish container
    return { location := .indirectRegister address.id, ty := element, lease := some address } : Lower Value) := by
  refine follows.step (follows.emit _ _ [] rfl) fun _ => follows.step (follows.emit _ _ _ rfl) fun _ => ?_
  have rest : Respects (R []) (do
      Lower.finish i
      Lower.finish container
      return { location := .indirectRegister address.id, ty := element, lease := some address } : Lower Value) :=
    follows.step (follows.finish _) fun _ => follows.step (follows.finish _) fun _ => follows.pure _
  split
  · exact follows.step (follows.emit _ _ [] rfl) fun _ => rest
  · exact follows.step (follows.acquire _ _) fun _ => follows.step (follows.emit _ _ [] rfl) fun _ =>
      follows.step (follows.emit _ _ [] rfl) fun _ => follows.step (follows.release _) fun _ => rest

theorem indexMemory (container : Value) (stride : Nat) (element : Ty) {index : Lower Value}
    (hi : Respects (R w) index) : Respects (R w) (Lower.indexMemory container stride element index) :=
  follows.behind hi fun i => follows.step (follows.acquire _ _) fun address =>
    follows.step (follows.transfer _ _ _) fun _ => follows.addressing container i stride element address

/-- An index that names an element is not evaluated; it is no float. -/
theorem subscriptValue (assignable : Bool) (container : Value) (indexExpr : Expr) {index : Lower Value}
    (hi : Respects (R w) index) (named : literalIndex? container.ty indexExpr ≠ none → w = []) :
    Respects (R w) (Lower.subscriptValue assignable container indexExpr index) := by
  unfold Lower.subscriptValue
  split
  · exact Plain.fail _
  · dsimp only
    cases literal : literalIndex? container.ty indexExpr with
    | some k =>
      obtain rfl := named (by rw [literal]; nofun)
      split
      · exact follows.pure _
      · contradiction
      · exact follows.pure _
      · exact follows.pure _
      · exact follows.optional (follows.emitUnary _ _ rfl) (follows.pure _)
      · contradiction
      · contradiction
      · contradiction
      · exact Plain.fail _
    | none =>
      split
      · contradiction
      · exact follows.before (follows.placeInMemory _) fun _ => follows.before (follows.transfer _ _ _) fun _ =>
          follows.behind (follows.indexMemory _ _ _ hi) fun _ => Plain.ite (follows.pure _) (follows.pure _)
      · contradiction
      · contradiction
      · contradiction
      · exact follows.indexMemory _ _ _ hi
      · exact follows.indexMemory _ _ _ hi
      · exact follows.indexMemory _ _ _ hi
      · exact Plain.fail _

theorem callValue (function : FunctionId) (name : String) (ty : Ty) {args : Lower (List Value)}
    (ha : Respects (R w) args) : Respects (R w) (Lower.callValue function name ty args) := by
  refine follows.ofGet fun s => Plain.ite ?_ (Plain.fail _)
  have rest (out : Location) : Respects (R w) (do
      Lower.inScope do
        let values ← args
        Lower.intrinsic name out values
        values.reverse.forM Lower.finish
      return { location := out, ty } : Lower Value) :=
    follows.behind (follows.inScope <| follows.behind ha fun _ => follows.step (follows.intrinsic _ _ _) fun _ =>
      follows.forM follows.finish _) fun _ => follows.pure _
  exact Plain.ite (p := ty = .void) (follows.before (follows.pure _) rest) (follows.before (follows.place _) rest)

omit follows in
/-- A literal index holds no float. -/
theorem floats_of_literalIndex {container : Ty} {index : Expr} (named : literalIndex? container index ≠ none) :
    index.floats = [] := by
  unfold literalIndex? at named
  split at named
  · rfl
  · exact absurd rfl named

mutual

/-- **The lowering of an expression** respects the relation of its literals. -/
theorem expression (asTarget : Bool) : (e : Expr) → Respects (R e.floats) (Lower.expression asTarget e)
  | .literal v _ _ => by
    rw [Lower.expression_literal]
    exact follows.literal v
  | .name id _ _ => by
    rw [Lower.expression_name]
    exact follows.variableValue id
  | .binary op lhs rhs ty _ => by
    rw [Lower.expression_binary]
    exact follows.binaryValue op ty (expression false lhs) (expression false rhs)
  | .assign op target value _ _ => by
    rw [Lower.expression_assign]
    exact follows.behind (follows.assignValue op _ _ (expression true target) (expression false value)) fun _ =>
      follows.materialize _
  | .relational _ _ _ _ _ => by
    rw [Lower.expression_relational]
    exact Plain.fail _
  | .negate operand ty _ => by
    rw [Lower.expression_negate]
    exact follows.unaryValue follows.negate ty (expression false operand)
  | .not operand ty _ => by
    rw [Lower.expression_not]
    exact follows.unaryValue follows.invert ty (expression false operand)
  | .subscript base index _ _ => by
    rw [Lower.expression_subscript]
    exact follows.seq (expression asTarget base) fun _ => follows.behind
      (follows.subscriptValue asTarget _ index (expression false index) floats_of_literalIndex) fun _ =>
        Plain.ite (follows.pure _) (follows.materialize _)
  | .call function name args ty _ => by
    rw [Lower.expression_call]
    exact follows.callValue function name ty (arguments args)

theorem arguments : (es : List Expr) → Respects (R (Expr.allFloats es)) (Lower.arguments es)
  | [] => by
    rw [Lower.arguments_nil]
    exact follows.pure _
  | e :: es => by
    rw [Lower.arguments_cons]
    exact follows.seq (expression false e) fun _ => follows.behind (arguments es) fun _ => follows.pure _

end

theorem value (e : Expr) : Respects (R e.floats) (Lower.value e) := follows.expression false e

/-! ## Statements -/

theorem conditionJump (e : Expr) : Respects (R e.floats) (Lower.conditionJump e) := by
  rw [Lower.conditionJump_def]
  split
  · exact follows.seq (follows.value _) fun _ => follows.behind (follows.value _) fun _ =>
      follows.step (follows.compare _ _ _) fun _ => follows.step (follows.finish _) fun _ =>
        follows.step (follows.finish _) fun _ => follows.pure _
  · exact follows.behind (follows.value _) fun _ => follows.step (follows.emitUnary _ _ rfl) fun _ =>
      follows.step (follows.finish _) fun _ => follows.pure _

theorem condition (e : Expr) : Respects (R e.floats) (Lower.condition e) := by
  rw [Lower.condition_eq]
  exact follows.inScope (follows.behind (follows.conditionJump e) fun _ => follows.emitJump _)

theorem effect (e : Expr) : Respects (R e.floats) (Lower.effect e) := by
  rw [Lower.effect_eq]
  exact follows.inScope (follows.behind (follows.value e) fun _ => follows.finish _)

theorem initialise (symbol : SymbolId) (e : Expr) : Respects (R e.floats) (Lower.initialise symbol e) := by
  rw [Lower.initialise_eq]
  exact follows.ofGet fun _ => follows.inScope (follows.behind (follows.value e) fun _ =>
    follows.step (follows.store _ _ _) fun _ => follows.finish _)

mutual

/-- **The lowering of a statement** respects the relation of its literals. -/
theorem statement : (st : Statement) → Respects (R st.floats) (Lower.statement st)
  | .localVariable _ none => by
    unfold Lower.statement
    exact follows.pure ()
  | .localVariable symbol (some e) => by
    unfold Lower.statement
    exact follows.initialise symbol e
  | .expression e => by
    unfold Lower.statement
    exact follows.effect e
  | .branch c => by
    unfold Lower.statement
    exact choice c
  | .whileLoop _ _ | .forLoop _ _ _ _ => by
    unfold Lower.statement
    exact Plain.fail _
  | .ret none => by
    unfold Lower.statement
    exact follows.emitReturn
  | .ret (some e) => by
    unfold Lower.statement
    exact follows.behind (follows.effect e) fun _ => follows.emitReturn

theorem choice : (c : IfStatement) → Respects (R c.floats) (Lower.choice c)
  | .mk c body otherwise => by
    unfold Lower.choice
    exact follows.seq (follows.condition c) fun _ => follows.seq (statements body) fun _ =>
      branchOtherwise _ otherwise

theorem branchOtherwise (skip : Nat) :
    (branch : ElseBranch) → Respects (R branch.floats) (Lower.branchOtherwise skip branch)
  | .none => by
    unfold Lower.branchOtherwise
    exact follows.bindLabel skip
  | .chain c => by
    unfold Lower.branchOtherwise
    exact follows.before (follows.emitJump _) fun _ => follows.before (follows.bindLabel _) fun _ =>
      follows.behind (choice c) fun _ => follows.bindLabel _
  | .block body => by
    unfold Lower.branchOtherwise
    exact follows.before (follows.emitJump _) fun _ => follows.before (follows.bindLabel _) fun _ =>
      follows.behind (statements body) fun _ => follows.bindLabel _

theorem statements : (ss : List Statement) → Respects (R (Statement.allFloats ss)) (Lower.statements ss)
  | [] => by
    unfold Lower.statements
    exact follows.pure ()
  | st :: ss => by
    unfold Lower.statements
    exact follows.seq (statement st) fun _ => statements ss

end

end Follows

/-! ## Relations that do not ask for the literals -/

/-- **A relation that each step of a lowering respects.** -/
structure Closed (R : LoweringState → LoweringState → Prop) : Prop extends Masking R where
  joins (s : LoweringState) {bits : Word} (offset : Nat) : s.constants.offset? (.float bits) = none →
    R s { s with constants := s.constants.add (.float bits) offset }

variable {R : LoweringState → LoweringState → Prop}

/-- **The steps one by one**: where a mask joins the pool is a step of its own. -/
theorem Closed.ofSteps (plain : Plain R)
    (pool : ∀ (s : LoweringState) {c : Constant} (offset : Nat), s.constants.offset? c = none →
      R s { s with constants := s.constants.add c offset })
    (mask : ∀ (s : LoweringState) {i : Instruction Nat} (text : String), i.readsMask = true → s.Masks i →
      R s (Regime.passed s (.instruction i text) s.assembly.labels)) : Closed R :=
  { plain with
    mask
    joins := fun s _ offset absent => pool s offset absent
    first := fun {s t lanes i} offset text absent plainly reads calls place =>
      plain.trans (pool s offset absent) <| plain.trans (plainly R plain) <| mask t text reads
        ⟨lanes, offset, calls, place, by rw [plainly _ plain_constants]; exact ConstantPool.offset?_add_self s.constants (.vector lanes) offset⟩ }

namespace Closed

variable (closed : Closed R)

include closed

theorem follows : Follows fun _ => R :=
  { closed.toMasking with
    chain := closed.trans
    known := fun s _ _ _ => closed.refl s
    joins := closed.joins }

theorem expression (asTarget : Bool) (e : Expr) : Respects R (Lower.expression asTarget e) :=
  closed.follows.expression asTarget e

theorem arguments (es : List Expr) : Respects R (Lower.arguments es) := closed.follows.arguments es

theorem value (e : Expr) : Respects R (Lower.value e) := closed.follows.value e

theorem condition (e : Expr) : Respects R (Lower.condition e) := closed.follows.condition e

theorem statement (st : Statement) : Respects R (Lower.statement st) := closed.follows.statement st

theorem choice (c : IfStatement) : Respects R (Lower.choice c) := closed.follows.choice c

theorem branchOtherwise (skip : Nat) (branch : ElseBranch) : Respects R (Lower.branchOtherwise skip branch) :=
  closed.follows.branchOtherwise skip branch

theorem statements (ss : List Statement) : Respects R (Lower.statements ss) := closed.follows.statements ss

end Closed

/-- **The pool goes on from another one**: what was pooled before stays in
front. -/
def Grows (s t : LoweringState) : Prop := s.constants.slots <+: t.constants.slots

theorem closed_grows : Closed Grows :=
  .ofSteps
    { refl := fun _ => List.prefix_refl _
      trans := fun h h' => h.trans h'
      storage := fun _ constants _ => ⟨[], by rw [List.append_nil, constants]⟩
      entry := fun _ _ _ _ => List.prefix_refl _
      bind := fun _ _ _ _ => List.prefix_refl _ }
    (fun s c offset _ => by
      rw [Grows, ConstantPool.slots_add]
      exact List.prefix_append _ _)
    fun _ _ _ _ _ => List.prefix_refl _

end Lower

end Shading
