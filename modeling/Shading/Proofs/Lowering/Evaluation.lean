import Mathlib.Logic.Relation
import Shading.Proofs.Discipline.Allocation
import Shading.Proofs.Lowering.Literals

/-!
# Where expressions are evaluated

When the statements of a function are lowered, each expression in them is
lowered from some state of its own. `Lower.Operand` goes one step down: it
says from which state an operand is lowered when the expression around it is.
`Lower.Starts` says the same of the expressions that stand in statements and
conditions, and `Lower.Evaluates` of all expressions, at any depth.

What each step of a lowering respects holds between the start of a function
and the state in which any of its expressions is lowered, and from there to
the end (`Lower.Evaluates.between`).
-/

namespace Shading.Lower

/-! ## Operands -/

/-- **The state in which an index is evaluated**: a vector in a register is
spilled first. -/
inductive Readied (container : Value) : LoweringState → LoweringState → Prop
  | memory {s : LoweringState} (memory : ∀ r, container.location ≠ .simdRegister r) : Readied container s s
  | spilled {s s₁ s₂ : LoweringState} {r : Nat} {spill : Location} (register : container.location = .simdRegister r)
      (placed : placeInMemory container.ty s = .ok (spill, s₁))
      (saved : transfer .packed spill container.location s₁ = .ok ((), s₂)) : Readied container s s₂

/-- **An expression has an operand**, and when it is lowered from a state,
the operand is lowered from another one. Whether either is the target of an
assignment stands beside it. -/
inductive Operand : (Bool × Expr) × LoweringState → (Bool × Expr) × LoweringState → Prop
  | left {b : Bool} {op : BinaryOp} {l r : Expr} {ty : Ty} {p : Position} {out : Location} {s s₁ : LoweringState}
      (placed : place ty s = .ok (out, s₁)) : Operand ((b, .binary op l r ty p), s) ((false, l), opened s₁)
  | right {b : Bool} {op : BinaryOp} {l r : Expr} {ty : Ty} {p : Position} {out : Location} {v : Value}
      {s s₁ s₂ : LoweringState} (placed : place ty s = .ok (out, s₁))
      (before : expression false l (opened s₁) = .ok (v, s₂)) : Operand ((b, .binary op l r ty p), s) ((false, r), s₂)
  | target {b : Bool} {op : Option BinaryOp} {target value : Expr} {ty : Ty} {p : Position} {s : LoweringState} :
      Operand ((b, .assign op target value ty p), s) ((true, target), s)
  | assigned {b : Bool} {op : Option BinaryOp} {target value : Expr} {ty : Ty} {p : Position} {v : Value}
      {s s₁ : LoweringState} (found : expression true target s = .ok (v, s₁)) :
      Operand ((b, .assign op target value ty p), s) ((false, value), opened s₁)
  | negated {b : Bool} {e : Expr} {ty : Ty} {p : Position} {out : Location} {s s₁ : LoweringState}
      (placed : place ty s = .ok (out, s₁)) : Operand ((b, .negate e ty p), s) ((false, e), opened s₁)
  | inverted {b : Bool} {e : Expr} {ty : Ty} {p : Position} {out : Location} {s s₁ : LoweringState}
      (placed : place ty s = .ok (out, s₁)) : Operand ((b, .not e ty p), s) ((false, e), opened s₁)
  | base {b : Bool} {base index : Expr} {ty : Ty} {p : Position} {s : LoweringState} :
      Operand ((b, .subscript base index ty p), s) ((b, base), s)
  | index {b : Bool} {base index : Expr} {ty : Ty} {p : Position} {v : Value} {s s₁ s₂ : LoweringState}
      (container : expression b base s = .ok (v, s₁)) (computed : literalIndex? v.ty index = none)
      (readied : Readied v s₁ s₂) : Operand ((b, .subscript base index ty p), s) ((false, index), s₂)
  | argument {b : Bool} {id : FunctionId} {name : String} {front back : List Expr} {e : Expr} {ty : Ty} {p : Position}
      {vs : List Value} {s s₁ s₂ : LoweringState}
      (placed : ty = .void ∧ s₁ = s ∨ ty ≠ .void ∧ ∃ out, place ty s = .ok (out, s₁))
      (before : arguments front (opened s₁) = .ok (vs, s₂)) :
      Operand ((b, .call id name (front ++ e :: back) ty p), s) ((false, e), s₂)

variable {R : LoweringState → LoweringState → Prop} {α : Type} {s t u s' : LoweringState}

/-- An action in a scope, taken apart. -/
theorem exists_of_inScope {x : Lower α} {a : α} (run : inScope x s = .ok (a, s')) :
    ∃ t, x (opened s) = .ok (a, t) ∧ leaveScope s.scopes.length t = .ok ((), s') := by
  unfold inScope withScope at run
  obtain ⟨id, s₁, opens, run⟩ := bind_eq_ok.1 run
  obtain ⟨rfl, rfl⟩ := Prod.mk.inj (Except.ok.inj ((enterScope_eq s).symm.trans opens))
  obtain ⟨a', t, inner, run⟩ := bind_eq_ok.1 run
  obtain ⟨_, t', close, run⟩ := bind_eq_ok.1 run
  obtain ⟨rfl, rfl⟩ := pure_eq_ok.1 run
  exact ⟨t, inner, close⟩

/-- Two results of one run are the same. -/
theorem eq_of_runs {x : Lower α} {a b : α} (h : x s = .ok (a, t)) (h' : x s = .ok (b, u)) : a = b ∧ t = u := by
  rw [h] at h'
  cases h'
  exact ⟨rfl, rfl⟩

theorem closed_opened (closed : Closed R) (s : LoweringState) : R s (opened s) := closed.storage rfl rfl rfl

/-- **An expression is lowered between two states**: its lowering starts
behind the first one and ends in front of the second one. -/
def Between (R : LoweringState → LoweringState → Prop) (e : Bool × Expr) (s t s' : LoweringState) : Prop :=
  ∃ v u, expression e.1 e.2 t = .ok (v, u) ∧ R s t ∧ R u s'

/-- An action on the value of an expression, in a scope. -/
theorem scoped_between (closed : Closed R) {b : Bool} {e : Expr} {k : Value → Lower α} {a : α}
    (rest : ∀ v, Respects R (k v)) (run : inScope (expression b e >>= k) s = .ok (a, s')) :
    Between R (b, e) s (opened s) s' := by
  obtain ⟨t, inner, close⟩ := exists_of_inScope run
  obtain ⟨v, u, value, inner⟩ := bind_eq_ok.1 inner
  exact ⟨v, u, value, closed_opened closed s, closed.trans (rest v _ _ _ inner) (closed.leaveScope _ _ _ _ close)⟩

theorem Between.before {e : Bool × Expr} (closed : Closed R) (h : R s t) (between : Between R e t u s') :
    Between R e s u s' := by
  obtain ⟨v, w, run, first, last⟩ := between
  exact ⟨v, w, run, closed.trans h first, last⟩

theorem Between.behind {e : Bool × Expr} {w : LoweringState} (closed : Closed R) (between : Between R e s t u)
    (h : R u w) : Between R e s t w := by
  obtain ⟨v, x, run, first, last⟩ := between
  exact ⟨v, x, run, first, closed.trans last h⟩

/-- Both operands of an operation. -/
theorem binaryValue_between (closed : Closed R) {op : BinaryOp} {ty : Ty} {l r : Expr} {v : Value} {out : Location}
    {s₁ : LoweringState} (placed : place ty s = .ok (out, s₁))
    (run : binaryValue op ty (expression false l) (expression false r) s = .ok (v, s')) :
    Between R (false, l) s (opened s₁) s' ∧
      ∀ w s₂, expression false l (opened s₁) = .ok (w, s₂) → Between R (false, r) s s₂ s' := by
  unfold binaryValue at run
  obtain ⟨out', t, placed', run⟩ := bind_eq_ok.1 run
  obtain ⟨rfl, rfl⟩ := eq_of_runs placed placed'
  obtain ⟨_, t, inner, run⟩ := bind_eq_ok.1 run
  obtain ⟨rfl, rfl⟩ := pure_eq_ok.1 run
  have first := closed.place ty _ _ _ placed
  have computes (x y : Value) : Respects R (do binary op out ty x y; finish y; finish x : Lower Unit) :=
    closed.step (closed.binary op out ty x y) fun _ => closed.step (closed.finish y) fun _ => closed.finish x
  refine ⟨.before closed first (scoped_between closed (fun x => closed.step (closed.expression false r) (computes x)) inner),
    fun w s₂ left => ?_⟩
  obtain ⟨u, inner, close⟩ := exists_of_inScope inner
  obtain ⟨x, u₁, left', inner⟩ := bind_eq_ok.1 inner
  obtain ⟨rfl, rfl⟩ := eq_of_runs left left'
  obtain ⟨y, u₂, right, inner⟩ := bind_eq_ok.1 inner
  exact ⟨y, u₂, right, closed.trans first (closed.trans (closed_opened closed s₁) (closed.expression false l _ _ _ left)),
    closed.trans (computes w y _ _ _ inner) (closed.leaveScope _ _ _ _ close)⟩

/-- The operand of a unary operation. -/
theorem unaryValue_between (closed : Closed R) {compute : Location → Value → Lower Unit}
    (computes : ∀ out v, Respects R (compute out v)) {ty : Ty} {e : Expr} {v : Value} {out : Location}
    {s₁ : LoweringState} (placed : place ty s = .ok (out, s₁))
    (run : unaryValue compute ty (expression false e) s = .ok (v, s')) : Between R (false, e) s (opened s₁) s' := by
  unfold unaryValue at run
  obtain ⟨out', t, placed', run⟩ := bind_eq_ok.1 run
  obtain ⟨rfl, rfl⟩ := eq_of_runs placed placed'
  obtain ⟨_, t, inner, run⟩ := bind_eq_ok.1 run
  obtain ⟨rfl, rfl⟩ := pure_eq_ok.1 run
  exact .before closed (closed.place ty _ _ _ placed)
    (scoped_between closed (fun x => closed.step (computes out x) fun _ => closed.finish x) inner)

/-- The target and the value of an assignment. -/
theorem assignValue_between (closed : Closed R) {op : Option BinaryOp} {target value : Expr} {targetTy valueTy : Ty}
    {v : Value} (run : assignValue op targetTy valueTy (expression true target) (expression false value) s = .ok (v, s')) :
    Between R (true, target) s s s' ∧
      ∀ dest s₁, expression true target s = .ok (dest, s₁) → Between R (false, value) s (opened s₁) s' := by
  unfold assignValue at run
  obtain ⟨dest, s₁, found, run⟩ := bind_eq_ok.1 run
  obtain ⟨_, s₂, inner, run⟩ := bind_eq_ok.1 run
  have behind : R s₂ s' := by
    cases writeBack : dest.writeBack with
    | some back =>
      rw [writeBack] at run
      obtain ⟨_, s₃, loaded, run⟩ := bind_eq_ok.1 run
      obtain ⟨-, rfl⟩ := pure_eq_ok.1 run
      exact closed.transfer _ _ _ _ _ _ loaded
    | none =>
      rw [writeBack] at run
      obtain ⟨-, rfl⟩ := pure_eq_ok.1 run
      exact closed.refl _
  refine ⟨⟨dest, s₁, found, closed.refl s,
    closed.trans (closed.follows.assign (w := []) op targetTy valueTy dest (closed.expression false value) _ _ _ inner) behind⟩, ?_⟩
  intro dest' t found'
  obtain ⟨rfl, rfl⟩ := eq_of_runs found found'
  refine .before closed (closed.expression true target _ _ _ found) (.behind closed (scoped_between closed ?_ inner) behind)
  intro source
  cases op with
  | none => exact closed.step (closed.store _ _ _) fun _ => closed.finish _
  | some op =>
    exact closed.step (closed.materialize _) fun _ => closed.step (closed.place _) fun _ =>
      closed.step (closed.binary _ _ _ _ _) fun _ => closed.step (closed.store _ _ _) fun _ => closed.finish _

/-- The index of an element whose address is computed. What comes behind the
index is as if it had been evaluated before. -/
theorem indexMemory_between (closed : Closed R) {container : Value} {stride : Nat} {element : Ty} {index : Expr}
    {v : Value} (run : indexMemory container stride element (expression false index) s = .ok (v, s')) :
    Between R (false, index) s s s' := by
  obtain ⟨i, t, computed, rest⟩ := bind_eq_ok.1 run
  exact ⟨i, t, computed, closed.refl s,
    closed.follows.indexMemory (w := []) container stride element (closed.pure i) t _ _ rest⟩

theorem subscriptValue_between (closed : Closed R) {b : Bool} {container : Value} {index : Expr} {v : Value}
    {s₁ : LoweringState} (computed : literalIndex? container.ty index = none) (readied : Readied container s s₁)
    (run : subscriptValue b container index (expression false index) s = .ok (v, s')) :
    Between R (false, index) s s₁ s' := by
  unfold subscriptValue at run
  cases hasElements : container.ty.element? with
  | none =>
    rw [hasElements] at run
    cases run
  | some element =>
  rw [hasElements, computed] at run
  dsimp only at run
  -- A container in memory stays where it is; one in a register is spilled first, and
  -- the index is evaluated behind the spill.
  cases readied with
  | memory memory =>
    cases location : container.location with
    | simdRegister r => exact absurd location (memory r)
    | globalMemory o =>
      rw [location] at run
      exact indexMemory_between closed run
    | localMemory o =>
      rw [location] at run
      exact indexMemory_between closed run
    | indirectRegister r =>
      rw [location] at run
      exact indexMemory_between closed run
    | _ =>
      rw [location] at run
      cases run
  | spilled register placed saved =>
    rw [register] at run
    obtain ⟨spill', t', placed', run⟩ := bind_eq_ok.1 run
    obtain ⟨rfl, rfl⟩ := eq_of_runs placed placed'
    obtain ⟨_, u, saved', run⟩ := bind_eq_ok.1 run
    rw [register] at saved
    obtain ⟨-, rfl⟩ := eq_of_runs saved saved'
    obtain ⟨w, u', indexed, run⟩ := bind_eq_ok.1 run
    have last : s' = u' := by
      split at run
      · exact (pure_eq_ok.1 run).2.symm
      · exact (pure_eq_ok.1 run).2.symm
    rw [last]
    exact .before closed (closed.trans (closed.placeInMemory _ _ _ _ placed) (closed.transfer _ _ _ _ _ _ saved))
      (indexMemory_between closed indexed)

/-- The container and the index of an element. -/
theorem subscript_between (closed : Closed R) {b : Bool} {base index : Expr} {ty : Ty} {p : Position} {v : Value}
    (run : expression b (.subscript base index ty p) s = .ok (v, s')) :
    Between R (b, base) s s s' ∧ ∀ container s₁ s₂, expression b base s = .ok (container, s₁) →
      literalIndex? container.ty index = none → Readied container s₁ s₂ → Between R (false, index) s s₂ s' := by
  rw [expression_subscript] at run
  obtain ⟨container, t, found, run⟩ := bind_eq_ok.1 run
  obtain ⟨element, u, element', run⟩ := bind_eq_ok.1 run
  have behind : R u s' :=
    Plain.ite (p := b = true) (closed.pure element) (closed.materialize element) u _ _ run
  refine ⟨⟨container, t, found, closed.refl s, closed.trans (closed.follows.subscriptValue (w := []) b container
    index (closed.expression false index) (fun _ => rfl) _ _ _ element') behind⟩, ?_⟩
  intro container' t' s₂ found' computed readied
  obtain ⟨rfl, rfl⟩ := eq_of_runs found found'
  exact .before closed (closed.expression b base _ _ _ found)
    (.behind closed (subscriptValue_between closed computed readied element') behind)

/-- An argument among others. -/
theorem arguments_between (closed : Closed R) {e : Expr} {front back : List Expr} {ws vs : List Value}
    {s₁ : LoweringState} (run : arguments (front ++ e :: back) s = .ok (ws, s'))
    (before : arguments front s = .ok (vs, s₁)) : Between R (false, e) s s₁ s' := by
  induction front generalizing s ws vs with
  | nil =>
    rw [List.nil_append, arguments_cons] at run
    rw [arguments_nil] at before
    obtain ⟨-, rfl⟩ := pure_eq_ok.1 before
    obtain ⟨v, t, value, run⟩ := bind_eq_ok.1 run
    exact ⟨v, t, value, closed.refl s,
      closed.step (closed.arguments back) (fun _ => closed.pure _) t _ _ run⟩
  | cons x front ih =>
    rw [List.cons_append, arguments_cons] at run
    rw [arguments_cons] at before
    obtain ⟨v, t, value, run⟩ := bind_eq_ok.1 run
    obtain ⟨vs', u, more, run⟩ := bind_eq_ok.1 run
    obtain ⟨-, rfl⟩ := pure_eq_ok.1 run
    obtain ⟨v', t', value', before⟩ := bind_eq_ok.1 before
    obtain ⟨-, rfl⟩ := eq_of_runs value value'
    obtain ⟨ws', u', more', before⟩ := bind_eq_ok.1 before
    obtain ⟨-, rfl⟩ := pure_eq_ok.1 before
    exact .before closed (closed.expression false x _ _ _ value) (ih more more')

/-- An argument of a call, whose arguments are evaluated in a scope. -/
theorem called_between (closed : Closed R) {name : String} {out : Location} {front back : List Expr} {e : Expr}
    {u : Unit} {vs : List Value} {s₁ : LoweringState} (before : arguments front (opened s) = .ok (vs, s₁))
    (run : inScope (do
      let values ← arguments (front ++ e :: back)
      intrinsic name out values
      values.reverse.forM finish) s = .ok (u, s')) : Between R (false, e) s s₁ s' := by
  obtain ⟨t, inner, close⟩ := exists_of_inScope run
  obtain ⟨values, w, evaluated, inner⟩ := bind_eq_ok.1 inner
  have rest : R w s' := closed.trans
    (closed.step (closed.intrinsic name out values) (fun _ => closed.forM closed.finish values.reverse) w _ _ inner)
    (closed.leaveScope _ _ _ _ close)
  exact .before closed (closed_opened closed s) (.behind closed (arguments_between closed evaluated before) rest)

/-- An argument of a call, whose result is placed first. -/
theorem callValue_between (closed : Closed R) {id : FunctionId} {name : String} {front back : List Expr} {e : Expr}
    {ty : Ty} {v : Value} {vs : List Value} {s₁ s₂ : LoweringState}
    (placed : ty = .void ∧ s₁ = s ∨ ty ≠ .void ∧ ∃ out, place ty s = .ok (out, s₁))
    (before : arguments front (opened s₁) = .ok (vs, s₂))
    (run : callValue id name ty (arguments (front ++ e :: back)) s = .ok (v, s')) :
    Between R (false, e) s s₂ s' := by
  unfold callValue at run
  obtain ⟨d, s₀, looked, rest⟩ := bind_eq_ok.1 run
  obtain ⟨rfl, rfl⟩ := get_eq_ok.1 looked
  by_cases known : (s₀.declarations.functions.get? id).any Function.intrinsic = true
  · rw [if_pos known] at rest
    rcases placed with ⟨void, rfl⟩ | ⟨solid, out, placed⟩
    · rw [if_pos void] at rest
      obtain ⟨out, t, none, rest⟩ := bind_eq_ok.1 rest
      obtain ⟨-, rfl⟩ := pure_eq_ok.1 none
      obtain ⟨u, t, called, rest⟩ := bind_eq_ok.1 rest
      obtain ⟨-, rfl⟩ := pure_eq_ok.1 rest
      exact called_between closed before called
    · rw [if_neg solid] at rest
      obtain ⟨out', t, placed', rest⟩ := bind_eq_ok.1 rest
      obtain ⟨rfl, rfl⟩ := eq_of_runs placed placed'
      obtain ⟨u, t, called, rest⟩ := bind_eq_ok.1 rest
      obtain ⟨-, rfl⟩ := pure_eq_ok.1 rest
      exact .before closed (closed.place ty _ _ _ placed) (called_between closed before called)
  · rw [if_neg known] at rest
    cases rest

/-- **An operand is lowered between the state that its expression is lowered
in and the state that this ends in.** -/
theorem Operand.between (closed : Closed R) {e e' : Bool × Expr} {v : Value} (operand : Operand (e, s) (e', t))
    (run : expression e.1 e.2 s = .ok (v, s')) : Between R e' s t s' := by
  cases operand with
  | left placed =>
    rw [expression_binary] at run
    exact (binaryValue_between closed placed run).1
  | right placed before =>
    rw [expression_binary] at run
    exact (binaryValue_between closed placed run).2 _ _ before
  | target =>
    rw [expression_assign] at run
    obtain ⟨w, u, assigned, run⟩ := bind_eq_ok.1 run
    exact .behind closed (assignValue_between closed assigned).1 (closed.materialize w _ _ _ run)
  | assigned found =>
    rw [expression_assign] at run
    obtain ⟨w, u, assigned, run⟩ := bind_eq_ok.1 run
    exact .behind closed ((assignValue_between closed assigned).2 _ _ found) (closed.materialize w _ _ _ run)
  | negated placed =>
    rw [expression_negate] at run
    exact unaryValue_between closed closed.negate placed run
  | inverted placed =>
    rw [expression_not] at run
    exact unaryValue_between closed closed.invert placed run
  | base => exact (subscript_between closed run).1
  | index container computed readied => exact (subscript_between closed run).2 _ _ _ container computed readied
  | argument placed before =>
    rw [expression_call] at run
    exact callValue_between closed placed before run

/-- An expression at any depth. -/
theorem operands_between (closed : Closed R) {x y : (Bool × Expr) × LoweringState} {v : Value}
    (operands : Relation.ReflTransGen Operand x y) (run : expression x.1.1 x.1.2 x.2 = .ok (v, s')) :
    Between R y.1 x.2 y.2 s' := by
  induction operands with
  | refl => exact ⟨v, s', run, closed.refl _, closed.refl _⟩
  | tail _ operand ih =>
    obtain ⟨w, u, run, before, behind⟩ := ih
    exact .before closed before (.behind closed (operand.between closed run) behind)

/-! ## Statements -/

/-- **A choice comes to another one**: itself, or one that its other branch
chains on to. -/
inductive Chain : IfStatement × LoweringState → IfStatement × LoweringState → Prop
  | refl {c : IfStatement} {s : LoweringState} : Chain (c, s) (c, s)
  | next {e : Expr} {body : List Statement} {c : IfStatement} {y : IfStatement × LoweringState} {skip stop : Nat}
      {s s₁ s₂ s₃ s₄ : LoweringState} (condition : condition e s = .ok (skip, s₁))
      (passed : statements body s₁ = .ok ((), s₂)) (jump : emitJump .always s₂ = .ok (stop, s₃))
      (bind : bindLabel skip s₃ = .ok ((), s₄)) (rest : Chain (c, s₄) y) : Chain (.mk e body (.chain c), s) y

/-- **A condition evaluates an expression**: both sides of a comparison, and
itself if it is none. -/
inductive Consults : Expr × LoweringState → Expr × LoweringState → Prop
  | left {op : RelationalOp} {l r : Expr} {ty : Ty} {p : Position} {s : LoweringState} :
      Consults (.relational op l r ty p, s) (l, opened s)
  | right {op : RelationalOp} {l r : Expr} {ty : Ty} {p : Position} {v : Value} {s s₁ : LoweringState}
      (before : value l (opened s) = .ok (v, s₁)) : Consults (.relational op l r ty p, s) (r, s₁)
  | whole {e : Expr} {s : LoweringState} (truth : ∀ op l r ty p, e ≠ .relational op l r ty p) :
      Consults (e, s) (e, opened s)

/-- **A statement evaluates an expression.** -/
inductive Starts : Statement × LoweringState → Expr × LoweringState → Prop
  | effect {e : Expr} {s : LoweringState} : Starts (.expression e, s) (e, opened s)
  | initial {symbol : SymbolId} {e : Expr} {s : LoweringState} :
      Starts (.localVariable symbol (some e), s) (e, opened s)
  | result {e : Expr} {s : LoweringState} : Starts (.ret (some e), s) (e, opened s)
  | condition {c : IfStatement} {e : Expr} {body : List Statement} {otherwise : ElseBranch} {s t : LoweringState}
      {y : Expr × LoweringState} (chain : Chain (c, s) (.mk e body otherwise, t)) (consults : Consults (e, t) y) :
      Starts (.branch c, s) y

/-- **When statements are lowered from a state, an expression is lowered from
another one**: one in a statement that the lowering comes by, at any depth. -/
def Evaluates (ss : List Statement) (s : LoweringState) (e : Bool × Expr) (t : LoweringState) : Prop :=
  ∃ st x x' y, Visits st x x' ss s ∧ Starts (st, x) y ∧ Relation.ReflTransGen Operand ((false, y.1), y.2) (e, t)

theorem Consults.between (closed : Closed R) {e : Expr} {y : Expr × LoweringState} {label : Nat}
    (consults : Consults (e, s) y) (run : condition e s = .ok (label, s')) : Between R (false, y.1) s y.2 s' := by
  rw [condition_eq] at run
  obtain ⟨t, inner, close⟩ := exists_of_inScope run
  obtain ⟨jump, u, tested, jumped⟩ := bind_eq_ok.1 inner
  have rest := closed.trans (closed.emitJump _ _ _ _ jumped) (closed.leaveScope _ _ _ _ close)
  refine .before closed (closed_opened closed s) (.behind closed ?_ rest)
  have compares (l r : Value) (op : RelationalOp) : Respects R (do
      let jump ← compare op l r
      finish r
      finish l
      return jump : Lower Condition) :=
    closed.step (closed.compare op l r) fun _ => closed.step (closed.finish r) fun _ =>
      closed.step (closed.finish l) fun _ => closed.pure _
  cases consults with
  | left =>
    rw [conditionJump_def] at tested
    obtain ⟨l, t₁, left, tested⟩ := bind_eq_ok.1 tested
    exact ⟨l, t₁, left, closed.refl _,
      closed.step (closed.value _) (fun r => compares l r _) t₁ _ _ tested⟩
  | right before =>
    rw [conditionJump_def] at tested
    obtain ⟨l, t₁, left, tested⟩ := bind_eq_ok.1 tested
    obtain ⟨rfl, rfl⟩ := eq_of_runs before left
    obtain ⟨r, t₂, right, tested⟩ := bind_eq_ok.1 tested
    exact ⟨r, t₂, right, closed.value _ _ _ _ before, compares _ r _ t₂ _ _ tested⟩
  | whole truth =>
    have plain : conditionJump e = (do
        let v ← value e
        emitUnary .cmpImm8 v.location [0]
        finish v
        return .equal) := by
      rw [conditionJump_def]
      cases e with
      | relational op l r ty p => exact absurd rfl (truth op l r ty p)
      | _ => rfl
    rw [plain] at tested
    obtain ⟨v, t₁, evaluated, tested⟩ := bind_eq_ok.1 tested
    exact ⟨v, t₁, evaluated, closed.refl _, closed.step (closed.emitUnary _ _ rfl)
      (fun _ => closed.step (closed.finish v) fun _ => closed.pure _) t₁ _ _ tested⟩

/-- What the chain of a choice comes to is lowered in the course of it. -/
theorem Chain.between (closed : Closed R) {x y : IfStatement × LoweringState} (chain : Chain x y)
    (run : choice x.1 x.2 = .ok ((), s')) : ∃ u, choice y.1 y.2 = .ok ((), u) ∧ R x.2 y.2 ∧ R u s' := by
  induction chain generalizing s' with
  | refl => exact ⟨s', run, closed.refl _, closed.refl _⟩
  | next condition passed jump bind rest ih =>
    simp only [choice] at run
    obtain ⟨skip, t₁, condition', run⟩ := bind_eq_ok.1 run
    obtain ⟨rfl, rfl⟩ := eq_of_runs condition condition'
    obtain ⟨_, t₂, passed', run⟩ := bind_eq_ok.1 run
    obtain ⟨-, rfl⟩ := eq_of_runs passed passed'
    simp only [branchOtherwise] at run
    obtain ⟨stop, t₃, jump', run⟩ := bind_eq_ok.1 run
    obtain ⟨rfl, rfl⟩ := eq_of_runs jump jump'
    obtain ⟨_, t₄, bind', run⟩ := bind_eq_ok.1 run
    obtain ⟨-, rfl⟩ := eq_of_runs bind bind'
    obtain ⟨_, t₅, chosen, bound⟩ := bind_eq_ok.1 run
    obtain ⟨u, inner, before, behind⟩ := ih chosen
    exact ⟨u, inner, closed.trans (closed.condition _ _ _ _ condition) (closed.trans (closed.statements _ _ _ _ passed)
      (closed.trans (closed.emitJump _ _ _ _ jump) (closed.trans (closed.bindLabel _ _ _ _ bind) before))),
      closed.trans behind (closed.bindLabel _ _ _ _ bound)⟩

theorem Starts.between (closed : Closed R) {st : Statement} {y : Expr × LoweringState} (starts : Starts (st, s) y)
    (run : statement st s = .ok ((), s')) : Between R (false, y.1) s y.2 s' := by
  cases starts with
  | effect =>
    simp only [statement, effect_eq] at run
    exact scoped_between closed closed.finish run
  | initial =>
    simp only [statement, initialise_eq] at run
    obtain ⟨t, t', looked, rest⟩ := bind_eq_ok.1 run
    obtain ⟨rfl, rfl⟩ := get_eq_ok.1 looked
    exact scoped_between closed (fun v => closed.step (closed.store _ _ v) fun _ => closed.finish v) rest
  | result =>
    simp only [statement, effect_eq] at run
    obtain ⟨_, t, inner, returned⟩ := bind_eq_ok.1 run
    exact .behind closed (scoped_between closed closed.finish inner) (closed.emitReturn _ _ _ returned)
  | condition chain consults =>
    simp only [statement] at run
    obtain ⟨u, chosen, before, behind⟩ := chain.between closed run
    simp only [choice] at chosen
    obtain ⟨skip, t₁, condition, rest⟩ := bind_eq_ok.1 chosen
    have last : R t₁ u :=
      closed.step (closed.statements _) (fun _ => closed.branchOtherwise skip _) _ _ _ rest
    exact .before closed before (.behind closed (consults.between closed condition) (closed.trans last behind))

mutual

/-- What a lowering comes by is lowered in the course of it. -/
theorem Visits.between (closed : Closed R) {s s' t u : LoweringState} {st : Statement} {ss : List Statement} (visits : Visits st t u ss s)
    (run : statements ss s = .ok ((), s')) : statement st t = .ok ((), u) ∧ R s t ∧ R u s' := by
  cases visits with
  | here reached =>
    simp only [statements] at run
    obtain ⟨_, t₁, reached', rest⟩ := bind_eq_ok.1 run
    obtain ⟨-, rfl⟩ := eq_of_runs reached reached'
    exact ⟨reached, closed.refl _, closed.statements _ _ _ _ rest⟩
  | later passed visits =>
    simp only [statements] at run
    obtain ⟨_, t₁, passed', rest⟩ := bind_eq_ok.1 run
    obtain ⟨-, rfl⟩ := eq_of_runs passed passed'
    obtain ⟨reached, before, behind⟩ := Visits.between closed visits rest
    exact ⟨reached, closed.trans (closed.statement _ _ _ _ passed) before, behind⟩
  | inner visits =>
    simp only [statements, statement] at run
    obtain ⟨_, t₁, chosen, rest⟩ := bind_eq_ok.1 run
    obtain ⟨reached, before, behind⟩ := VisitsChoice.between closed visits chosen
    exact ⟨reached, before, closed.trans behind (closed.statements _ _ _ _ rest)⟩

theorem VisitsChoice.between (closed : Closed R) {s s' t u : LoweringState} {st : Statement} {c : IfStatement}
    (visits : VisitsChoice st t u c s)
    (run : choice c s = .ok ((), s')) : statement st t = .ok ((), u) ∧ R s t ∧ R u s' := by
  cases visits with
  | body tested visits =>
    simp only [choice] at run
    obtain ⟨skip, t₁, tested', run⟩ := bind_eq_ok.1 run
    obtain ⟨rfl, rfl⟩ := eq_of_runs tested tested'
    obtain ⟨_, t₂, inner, rest⟩ := bind_eq_ok.1 run
    obtain ⟨reached, before, behind⟩ := Visits.between closed visits inner
    exact ⟨reached, closed.trans (closed.condition _ _ _ _ tested) before,
      closed.trans behind (closed.branchOtherwise _ _ _ _ _ rest)⟩
  | chain tested passed jump bind visits =>
    obtain ⟨u', chosen, before, behind⟩ := (Chain.next tested passed jump bind .refl).between closed run
    obtain ⟨reached, before', behind'⟩ := VisitsChoice.between closed visits chosen
    exact ⟨reached, closed.trans before before', closed.trans behind' behind⟩
  | block tested passed jump bind visits =>
    simp only [choice] at run
    obtain ⟨skip, t₁, tested', run⟩ := bind_eq_ok.1 run
    obtain ⟨rfl, rfl⟩ := eq_of_runs tested tested'
    obtain ⟨_, t₂, passed', run⟩ := bind_eq_ok.1 run
    obtain ⟨-, rfl⟩ := eq_of_runs passed passed'
    simp only [branchOtherwise] at run
    obtain ⟨stop, t₃, jump', run⟩ := bind_eq_ok.1 run
    obtain ⟨rfl, rfl⟩ := eq_of_runs jump jump'
    obtain ⟨_, t₄, bind', run⟩ := bind_eq_ok.1 run
    obtain ⟨-, rfl⟩ := eq_of_runs bind bind'
    obtain ⟨_, t₅, inner, bound⟩ := bind_eq_ok.1 run
    obtain ⟨reached, before, behind⟩ := Visits.between closed visits inner
    exact ⟨reached, closed.trans (closed.condition _ _ _ _ tested) (closed.trans (closed.statements _ _ _ _ passed)
      (closed.trans (closed.emitJump _ _ _ _ jump) (closed.trans (closed.bindLabel _ _ _ _ bind) before))),
      closed.trans behind (closed.bindLabel _ _ _ _ bound)⟩

end

/-- **An expression in a statement, at any depth, is lowered between the state
in which the statements are lowered and the state that this ends in.** -/
theorem Evaluates.between (closed : Closed R) {ss : List Statement} {e : Bool × Expr} (evaluates : Evaluates ss s e t)
    (run : statements ss s = .ok ((), s')) : Between R e s t s' := by
  obtain ⟨st, x, x', y, visits, starts, operands⟩ := evaluates
  obtain ⟨reached, before, behind⟩ := visits.between closed run
  obtain ⟨v, u, lowered, first, last⟩ := starts.between closed reached
  exact .before closed (closed.trans before first)
    (.behind closed (operands_between closed operands lowered) (closed.trans last behind))

end Shading.Lower
