import Shading.Proofs.Frames.Occurrences
import Shading.Proofs.Simulation.Choice

/-!
# The calls of a program

A call that lowering an expression makes is made in the course of that lowering
(`Lower.Makes.comes`): its code stands between the code before it and the code
behind it. The statements of a function make the calls of their expressions,
store the first values of locals and compare the sides of conditions
(`Lower.Calls`).

In a program that compiles, each of these calls succeeds, its code is part of
the code of its function, and it spares what is live
(`Program.calls_spare_live`).
-/

namespace Shading

open LoweringState

namespace Lower

variable {d : Declarations} {f : Option FunctionId} {s s₁ s₂ s' t u : LoweringState} {b : Bool} {e : Expr} {v : Value}

/-! ## Calls in the course of a lowering -/

variable {R : LoweringState → LoweringState → Prop} {α : Type} {h : Helper}

/-- A call respects what its steps respect. -/
theorem respects_call (closed : Closed R) (h : Helper) : Respects R h.call := by
  have into {x : Lower Unit} (out : Location) (respects : Respects R x) : Respects R (into out x) :=
    closed.step respects fun _ => closed.pure out
  cases h with
  | packed => exact into _ (closed.packed _ _ _ _)
  | vectorScalar => exact into _ (closed.vectorScalar _ _ _)
  | matrixVector => exact into _ (closed.matrixVector _ _ _)
  | matrixProduct => exact into _ (closed.matrixProduct _ _ _)
  | scalarFloat => exact into _ (closed.scalarFloat _ _ _ _)
  | scalarInt => exact into _ (closed.scalarInt _ _ _ _)
  | negate => exact into _ (closed.negate _ _)
  | compare => exact into _ (closed.step (closed.compare _ _ _) fun _ => closed.pure _)
  | normalize => exact into _ (closed.normalize _ _)
  | vectorLength => exact into _ (closed.vectorLength _ _)
  | dot3 => exact into _ (closed.dot3 _ _ _)
  | larger => exact into _ (closed.larger _ _ _)
  | clamp => exact into _ (closed.clamp _ _ _ _)
  | store => exact into _ (closed.store _ _ _)
  | writeLane => exact into _ (closed.writeLane _ _ _)
  | transfer => exact into _ (closed.transfer _ _ _)
  | materialize => exact closed.step (closed.materialize _) fun _ => closed.pure _

/-- **A call is made between two states**: it starts behind the first one and
ends in front of the second one. -/
def Comes (R : LoweringState → LoweringState → Prop) (h : Helper) (s t s' : LoweringState) : Prop :=
  ∃ out u, h.call t = .ok (out, u) ∧ R s t ∧ R u s'

theorem Comes.within (closed : Closed R) (comes : Comes R h s t u) (before : R s₁ s) (behind : R u s₂) :
    Comes R h s₁ t s₂ := by
  obtain ⟨out, w, run, first, last⟩ := comes
  exact ⟨out, w, run, closed.trans before first, closed.trans last behind⟩

/-- A call in a scope. -/
theorem Comes.scoped (closed : Closed R) {x : Lower α} {a : α} (run : inScope x s = .ok (a, s'))
    (inner : ∀ u, x (opened s) = .ok (a, u) → Comes R h (opened s) t u) : Comes R h s t s' := by
  obtain ⟨u, action, close⟩ := exists_of_inScope run
  exact (inner u action).within closed (closed_opened closed s) (closed.leaveScope _ _ _ _ close)

/-- A call behind an action. -/
theorem Comes.after (closed : Closed R) {β : Type} {x : Lower α} {k : α → Lower β} {a : α} {c : β}
    (run : (x >>= k) s = .ok (c, s')) (known : x s = .ok (a, s₁)) (first : Respects R x)
    (rest : k a s₁ = .ok (c, s') → Comes R h s₁ t s') : Comes R h s t s' := by
  obtain ⟨a', s₁', ran, run⟩ := bind_eq_ok.1 run
  obtain ⟨rfl, rfl⟩ := eq_of_runs known ran
  exact (rest run).within closed (first _ _ _ known) (closed.refl _)

/-- A call that an action is, with more behind it. -/
theorem Comes.first {β : Type} {x : Lower α} {k : α → Lower β} {c : β} (run : (x >>= k) s = .ok (c, s'))
    (call : ∀ a u, x s = .ok (a, u) → ∃ out, h.call s = .ok (out, u)) (closed : Closed R) (rest : ∀ a, Respects R (k a)) :
    Comes R h s s s' := by
  obtain ⟨a, u, ran, run⟩ := bind_eq_ok.1 run
  obtain ⟨out, call⟩ := call a u ran
  exact ⟨out, u, call, closed.refl s, rest a _ _ _ run⟩

theorem call_of_materialize {w : Value} (run : materialize v s = .ok (w, t)) :
    (Helper.materialize v).call s = .ok (w.location, t) :=
  bind_eq_ok.2 ⟨w, t, run, rfl⟩

/-- What an assignment loads again, behind its call. -/
theorem respects_writeBack (closed : Closed R) (dest : Value) : Respects R (do
    match dest.writeBack with
    | some back => transfer .packed back.register back.spill
    | none => pure ()
    return { dest with writeBack := none } : Lower Value) := by
  cases dest.writeBack with
  | some back => exact closed.step (closed.transfer _ _ _) fun _ => closed.pure _
  | none => exact closed.step (closed.pure ()) fun _ => closed.pure _

/-- A call behind the target and the value of an assignment. -/
theorem assign_comes (closed : Closed R) {op : Option BinaryOp} {target value : Expr} {ty : Ty} {p : Position}
    {dest source : Value} (run : expression b (.assign op target value ty p) s = .ok (v, s'))
    (found : expression true target s = .ok (dest, s₁)) (evaluated : expression false value (opened s₁) = .ok (source, s₂))
    (rest : ∀ z, (do
      match op with
      | none => store dest.location target.ty source
      | some op =>
        let current ← materialize { location := dest.location, ty := dest.ty }
        let ty := target.ty.arith value.ty
        let result ← place ty
        binary op result ty current source
        store dest.location target.ty { location := result, ty }
      finish source : Lower Unit) s₂ = .ok ((), z) → Comes R h s₂ t z) : Comes R h s t s' := by
  rw [expression_assign] at run
  obtain ⟨w, u, run, given⟩ := bind_eq_ok.1 run
  unfold assignValue at run
  refine Comes.within closed ?_ (closed.refl _) (closed.materialize w _ _ _ given)
  refine .after closed run found (closed.expression true target) fun run => ?_
  obtain ⟨_, z, inner, behind⟩ := bind_eq_ok.1 run
  refine Comes.within closed (.scoped closed inner fun u run => ?_) (closed.refl _) (respects_writeBack closed dest _ _ _ behind)
  exact .after closed run evaluated (closed.expression false value) fun run => rest u run

/-- An index is moved to the register of its address. -/
theorem indexMemory_comes (closed : Closed R) {container i w : Value} {stride : Nat} {element : Ty} {index : Expr}
    {address : Lease} (run : indexMemory container stride element (expression false index) s = .ok (w, s'))
    (evaluated : expression false index s = .ok (i, s₁))
    (acquired : acquire .general [i.location, container.location] s₁ = .ok (address, s₂)) :
    Comes R (.transfer .dword address.location i.location) s s₂ s' := by
  unfold indexMemory at run
  refine .after closed run evaluated (closed.expression false index) fun run => ?_
  refine .after closed run acquired (closed.acquire _ _) fun run => ?_
  exact .first run (fun _ u ran => ⟨_, into_eq_ok _ ran⟩) closed fun _ =>
    closed.follows.addressing container i stride element address

/-- A call behind the container of an element whose number is computed. -/
theorem subscript_comes (closed : Closed R) {base index : Expr} {ty : Ty} {p : Position} {container : Value}
    (run : expression b (.subscript base index ty p) s = .ok (v, s')) (found : expression b base s = .ok (container, s₁))
    (computed : literalIndex? container.ty index = none)
    (inMemory : ∀ element w z, container.location.isInMemory = true →
      indexMemory container container.ty.stride element (expression false index) s₁ = .ok (w, z) → Comes R h s₁ t z)
    (inRegister : ∀ element w z r, container.location = .simdRegister r → (do
      let spill ← placeInMemory container.ty
      transfer .packed spill container.location
      let v ← indexMemory { location := spill, ty := container.ty } container.ty.stride element (expression false index)
      if b then
        return { v with writeBack := some ⟨container.location, spill⟩ }
      else return v : Lower Value) s₁ = .ok (w, z) → Comes R h s₁ t z) : Comes R h s t s' := by
  rw [expression_subscript] at run
  refine .after closed run found (closed.expression b base) fun run => ?_
  obtain ⟨w, z, run, rest⟩ := bind_eq_ok.1 run
  refine Comes.within closed ?_ (closed.refl _) (Plain.ite (p := b = true) (closed.pure w) (closed.materialize w) z _ _ rest)
  unfold subscriptValue at run
  cases has : container.ty.element? with
  | none =>
    rw [has] at run
    cases run
  | some element =>
    rw [has, computed] at run
    dsimp only at run
    cases location : container.location with
    | simdRegister r =>
      rw [location] at run
      exact inRegister element w z r location (location ▸ run)
    | globalMemory o | localMemory o | indirectRegister o =>
      rw [location] at run
      exact inMemory element w z (by rw [location]; rfl) run
    | none | register o | registerLane o shift =>
      rw [location] at run
      cases run

/-- A call on arguments that are evaluated in a scope. -/
theorem called_comes (closed : Closed R) {name : String} {out : Location} {args : List Expr} {w : Value} {vs : List Value}
    {ty : Ty} (evaluated : arguments args (opened s) = .ok (vs, t)) (call : Helper.ofIntrinsic name out vs = some h)
    (run : (do
      inScope do
        let values ← arguments args
        intrinsic name out values
        values.reverse.forM finish
      return { location := out, ty } : Lower Value) s = .ok (w, s')) : Comes R h s t s' := by
  obtain ⟨_, z, inner, run⟩ := bind_eq_ok.1 run
  obtain ⟨-, rfl⟩ := pure_eq_ok.1 run
  refine .scoped closed inner fun u run => ?_
  refine .after closed run evaluated (closed.arguments args) fun run => ?_
  exact .first run (fun _ u ran => ⟨_, Helper.call_of_intrinsic call ran⟩) closed fun _ => closed.forM closed.finish _

/-- **A call is made in the course of the lowering that makes it.** -/
theorem Makes.comes (closed : Closed R) {e : Bool × Expr} (makes : Makes (e, s) (h, t))
    (run : expression e.1 e.2 s = .ok (v, s')) : Comes R h s t s' := by
  -- The actions in front of the call are told apart by their results, which the
  -- constructor names; what comes behind it respects the relation.
  cases makes with
  | computed placed left right call =>
    rw [expression_binary] at run
    unfold binaryValue at run
    refine .after closed run placed (closed.place _) fun run => ?_
    obtain ⟨_, z, inner, run⟩ := bind_eq_ok.1 run
    obtain ⟨-, rfl⟩ := pure_eq_ok.1 run
    refine .scoped closed inner fun u run => ?_
    refine .after closed run left (closed.expression false _) fun run => ?_
    refine .after closed run right (closed.expression false _) fun run => ?_
    exact .first run (fun _ u ran => ⟨_, Helper.call_of_binary call ran⟩) closed fun _ =>
      closed.step (closed.finish _) fun _ => closed.finish _
  | negated placed operand =>
    rw [expression_negate] at run
    unfold unaryValue at run
    refine .after closed run placed (closed.place _) fun run => ?_
    obtain ⟨_, z, inner, run⟩ := bind_eq_ok.1 run
    obtain ⟨-, rfl⟩ := pure_eq_ok.1 run
    refine .scoped closed inner fun u run => ?_
    refine .after closed run operand (closed.expression false _) fun run => ?_
    exact .first run (fun _ u ran => ⟨_, into_eq_ok _ ran⟩) closed fun _ => closed.finish _
  | assigned found evaluated =>
    refine assign_comes closed run found evaluated fun z run => ?_
    exact .first run (fun _ u ran => ⟨_, into_eq_ok _ ran⟩) closed fun _ => closed.finish _
  | read found evaluated =>
    refine assign_comes closed run found evaluated fun z run => ?_
    exact .first run (fun _ u ran => ⟨_, call_of_materialize ran⟩) closed fun _ => closed.step (closed.place _) fun _ =>
      closed.step (closed.binary _ _ _ _ _) fun _ => closed.step (closed.store _ _ _) fun _ => closed.finish _
  | combined found evaluated copied placed call =>
    refine assign_comes closed run found evaluated fun z run => ?_
    refine .after closed run copied (closed.materialize _) fun run => ?_
    refine .after closed run placed (closed.place _) fun run => ?_
    exact .first run (fun _ u ran => ⟨_, Helper.call_of_binary call ran⟩) closed fun _ =>
      closed.step (closed.store _ _ _) fun _ => closed.finish _
  | written found evaluated copied placed computed =>
    refine assign_comes closed run found evaluated fun z run => ?_
    refine .after closed run copied (closed.materialize _) fun run => ?_
    refine .after closed run placed (closed.place _) fun run => ?_
    refine .after closed run computed (closed.binary _ _ _ _ _) fun run => ?_
    exact .first run (fun _ u ran => ⟨_, into_eq_ok _ ran⟩) closed fun _ => closed.finish _
  | restored found stored spilled =>
    rw [expression_assign] at run
    obtain ⟨w, u, run, given⟩ := bind_eq_ok.1 run
    refine Comes.within closed ?_ (closed.refl _) (closed.materialize w _ _ _ given)
    unfold assignValue at run
    refine .after closed run found (closed.expression true _) fun run => ?_
    refine .after closed run stored (closed.follows.assign (w := []) _ _ _ _ (closed.expression false _)) fun run => ?_
    rw [spilled] at run
    exact .first run (fun _ u ran => ⟨_, into_eq_ok _ ran⟩) closed fun _ => closed.pure _
  | given assigned =>
    rw [expression_assign] at run
    refine .after closed run assigned (closed.follows.assignValue (w := []) (v := []) _ _ _ (closed.expression true _)
      (closed.expression false _)) fun run => ?_
    exact ⟨_, _, call_of_materialize run, closed.refl _, closed.refl _⟩
  | copied found element =>
    rw [expression_subscript] at run
    refine .after closed run found (closed.expression false _) fun run => ?_
    refine .after closed run element (closed.follows.subscriptValue (w := []) false _ _ (closed.expression false _)
      fun _ => rfl) fun run => ?_
    exact ⟨_, _, call_of_materialize run, closed.refl _, closed.refl _⟩
  | spilled found computed register placed =>
    refine subscript_comes closed run found computed (fun _ _ _ memory _ => ?_) fun element w z r _ run => ?_
    · rw [register] at memory
      cases memory
    · refine .after closed run placed (closed.placeInMemory _) fun run => ?_
      exact .first run (fun _ u ran => ⟨_, into_eq_ok _ ran⟩) closed fun _ =>
        closed.step (closed.follows.indexMemory (w := []) _ _ _ (closed.expression false _)) fun _ =>
          Plain.ite (closed.pure _) (closed.pure _)
  | indexed found computed stowed evaluated acquired =>
    refine subscript_comes closed run found computed (fun element w z memory run => ?_) fun element w z r register run => ?_
    · cases stowed with
      | memory => exact indexMemory_comes closed run evaluated acquired
      | spilled register =>
        rw [register] at memory
        cases memory
    · cases stowed with
      | memory memory =>
        rw [register] at memory
        cases memory
      | spilled _ placed saved =>
        refine .after closed run placed (closed.placeInMemory _) fun run => ?_
        refine .after closed run saved (closed.transfer _ _ _) fun run => ?_
        obtain ⟨w', z', indexed, run⟩ := bind_eq_ok.1 run
        refine Comes.within closed (indexMemory_comes closed indexed evaluated acquired) (closed.refl _) ?_
        exact Plain.ite (closed.pure _) (closed.pure _) z' _ _ run
  | intrinsic known placed evaluated call =>
    rw [expression_call] at run
    unfold callValue at run
    obtain ⟨r, r', looked, rest⟩ := bind_eq_ok.1 run
    obtain ⟨rfl, rfl⟩ := get_eq_ok.1 looked
    rw [if_pos known] at rest
    rcases placed with ⟨void, none, rfl⟩ | ⟨solid, placed⟩
    · rw [if_pos void, ← none] at rest
      exact .after closed rest rfl (closed.pure _) fun run => called_comes closed evaluated call run
    · rw [if_neg solid] at rest
      exact .after closed rest placed (closed.place _) fun run => called_comes closed evaluated call run

/-! ## Calls in statements -/

/-- **Lowering a statement from a state makes a call in another one**: it stores
the first value of a local, and compares the sides of a condition. -/
inductive Orders : Statement × LoweringState → Helper × LoweringState → Prop
  | initial {id : SymbolId} {e : Expr} {v : Value} {s s₁ : LoweringState} (evaluated : value e (opened s) = .ok (v, s₁)) :
      Orders (.localVariable id (some e), s) (.store (s.placeOf id) (s.declarations.symbolTy id) v, s₁)
  | compared {c : IfStatement} {op : RelationalOp} {l r : Expr} {ty : Ty} {p : Position} {body : List Statement}
      {otherwise : ElseBranch} {v w : Value} {s t s₁ s₂ : LoweringState}
      (chain : Chain (c, s) (.mk (.relational op l r ty p) body otherwise, t)) (left : value l (opened t) = .ok (v, s₁))
      (right : value r s₁ = .ok (w, s₂)) : Orders (.branch c, s) (.compare op v w, s₂)

variable {g : FunctionId} {st : Statement}

/-- An expression in a condition is lowered from a state that is poised. -/
theorem Consults.poised (sound : d.Sound) {y : Expr × LoweringState} (consults : Consults (e, s) y) (typed : e.Typed d f)
    (poised : s.Poised d f) : y.1.Typed d f ∧ y.2.Poised d f := by
  cases consults with
  | left =>
    cases typed with
    | relational _ typedL _ _ => exact ⟨typedL, opened_poised poised⟩
  | right before =>
    cases typed with
    | relational _ typedL typedR _ =>
      exact ⟨typedR, (yields_of_run sound typedL (opened_poised poised) before).poised (opened_poised poised)⟩
  | whole => exact ⟨typed, opened_poised poised⟩

/-- **An expression in a statement is lowered from a state that is poised.** -/
theorem Starts.poised (sound : d.Sound) {y : Expr × LoweringState} (starts : Starts (st, s) y) (typed : st.Typed d g)
    (settled : s.Settled d (some g)) : y.1.Typed d (some g) ∧ y.2.Poised d (some g) := by
  cases starts with
  | effect =>
    simp only [Statement.Typed] at typed
    exact ⟨typed, opened_poised settled.toPoised⟩
  | initial =>
    simp only [Statement.Typed] at typed
    exact ⟨typed.2.1, opened_poised settled.toPoised⟩
  | result =>
    simp only [Statement.Typed] at typed
    exact ⟨typed.1, opened_poised settled.toPoised⟩
  | condition chain consults =>
    simp only [Statement.Typed] at typed
    obtain ⟨settled', typed'⟩ := chain.settled sound settled typed
    simp only [IfStatement.Typed] at typed'
    exact consults.poised sound typed'.1 settled'.toPoised

/-- **What lowering a statement calls is made in a state in good order, and is
passed what it is for.** -/
theorem Orders.passed (sound : d.Sound) (orders : Orders (st, s) (h, t)) (typed : st.Typed d g)
    (settled : s.Settled d (some g)) : t.Ok ∧ h.Passed t := by
  cases orders with
  | @initial id e v _ _ evaluated =>
    simp only [Statement.Typed] at typed
    obtain ⟨⟨sym, found, kind, scope, owner, -⟩, typedE, -⟩ := typed
    obtain ⟨l, known⟩ := settled.houses.symbols id sym found
    obtain ⟨home, fits, keeps⟩ := settled.houses.homes id _ ⟨sym, found, kind, .inr ⟨scope, owner, rfl⟩⟩ known
    have receives : s.Receives sym.ty l := ⟨fits, keeps, fun i same => by
      rw [show _ = _ from same] at home
      exact home.elim⟩
    have y := yields_of_run sound typedE (opened_poised settled.toPoised) evaluated
    obtain ⟨rs, leads⟩ := y.leads
    have place : s.placeOf id = l := by
      rw [placeOf, known]
      rfl
    refine ⟨leads.ok, ?_⟩
    rw [place, Declarations.symbolTy_of_get? known]
    exact receives.opened.leads leads
  | compared chain left right =>
    simp only [Statement.Typed] at typed
    obtain ⟨settled', typed'⟩ := chain.settled sound settled typed
    simp only [IfStatement.Typed] at typed'
    have inner := opened_poised settled'.toPoised
    cases typed'.1 with
    | relational _ typedL typedR _ =>
      have l := yields_of_run sound typedL inner left
      exact ⟨((yields_of_run sound typedR (l.poised inner) right).poised (l.poised inner)).ok, trivial⟩

theorem discard_eq_ok {x : Lower α} {a : α} (run : x s = .ok (a, t)) : discard x s = .ok ((), t) :=
  (bind_eq_ok.2 ⟨a, t, run, rfl⟩ : (x >>= fun _ => pure ()) s = .ok ((), t))

/-- A call is made in the course of the statement that makes it. -/
theorem Orders.comes (closed : Closed R) (orders : Orders (st, s) (h, t)) (run : statement st s = .ok ((), s')) :
    Comes R h s t s' := by
  cases orders with
  | initial evaluated =>
    simp only [statement, initialise_eq] at run
    obtain ⟨r, r', looked, rest⟩ := bind_eq_ok.1 run
    obtain ⟨rfl, rfl⟩ := get_eq_ok.1 looked
    refine .scoped closed rest fun u run => ?_
    refine .after closed run evaluated (closed.value _) fun run => ?_
    exact .first run (fun _ u ran => ⟨_, into_eq_ok _ ran⟩) closed fun _ => closed.finish _
  | compared chain left right =>
    simp only [statement] at run
    obtain ⟨u, chosen, before, behind⟩ := chain.between closed run
    simp only [choice, condition_eq] at chosen
    obtain ⟨skip, z, condition, rest⟩ := bind_eq_ok.1 chosen
    have last := closed.step (closed.statements _) (fun _ => closed.branchOtherwise skip _) _ _ _ rest
    refine Comes.within closed ?_ before (closed.trans last behind)
    refine .scoped closed condition fun x run => ?_
    obtain ⟨jump, x', tested, jumped⟩ := bind_eq_ok.1 run
    refine Comes.within closed ?_ (closed.refl _) (closed.emitJump _ _ _ _ jumped)
    rw [conditionJump_def] at tested
    refine .after closed tested left (closed.value _) fun run => ?_
    refine .after closed run right (closed.value _) fun run => ?_
    exact .first run (fun _ u ran => ⟨_, into_eq_ok _ (discard_eq_ok ran)⟩) closed fun _ =>
      closed.step (closed.finish _) fun _ => closed.step (closed.finish _) fun _ => closed.pure _

/-! ## Calls in functions -/

/-- **Lowering statements from a state makes a call in another one**, for one of
the statements or for an expression in one, at any depth. -/
def Calls (ss : List Statement) (s : LoweringState) (h : Helper) (t : LoweringState) : Prop :=
  (∃ e u, Evaluates ss s e u ∧ Makes (e, u) (h, t)) ∨ ∃ st x x', Visits st x x' ss s ∧ Orders (st, x) (h, t)

theorem Calls.comes (closed : Closed R) {ss : List Statement} (calls : Calls ss s h t)
    (run : statements ss s = .ok ((), s')) : Comes R h s t s' := by
  rcases calls with ⟨e, u, evaluates, makes⟩ | ⟨st, x, x', visits, orders⟩
  · obtain ⟨v, z, lowered, before, behind⟩ := evaluates.between closed run
    exact (makes.comes closed lowered).within closed before behind
  · obtain ⟨reached, before, behind⟩ := visits.between closed run
    exact (orders.comes closed reached).within closed before behind

/-- **The calls that a function makes** are made in states in good order, and are
passed what they are for. -/
theorem Calls.passed (sound : d.Sound) {globals staging : List Holding} {body : List Statement} {u w : LoweringState}
    {k : Function} (known : d.functions.get? g = some k) (standing : Standing globals staging d s)
    (runs : Runs s g k body u w s') (typed : Statement.AllTyped d g body) (calls : Calls body (bodyStart u) h t) :
    t.Ok ∧ h.Passed t := by
  rcases calls with ⟨e, x, ⟨st, y, y', z, visits, starts, operands⟩, makes⟩ | ⟨st, x, x', visits, orders⟩
  · have settled := visits.settled sound known standing runs typed
    obtain ⟨typedZ, poisedZ⟩ := starts.poised sound (visits.typed typed).1 settled
    obtain ⟨typedE, poisedE⟩ := poised_of_operands sound operands typedZ poisedZ
    exact makes.passed sound typedE poisedE
  · exact orders.passed sound (visits.typed typed).1 (visits.settled sound known standing runs typed)

end Lower

/-! ## Programs -/

/-- The code that is added is the code since then. -/
theorem LoweringState.Adds.eq_codeSince {s t : LoweringState} {es : List CodeEntry} (adds : s.Adds t es) :
    es = (t.codeSince s).map CodeEntry.unaimed := by
  rw [codeSince, List.map_drop, show _ = _ from adds, ← List.length_map CodeEntry.unaimed, List.drop_left]

/-- What a call of a function leaves as it was. -/
theorem Lower.Calls.leaves {d : Declarations} (sound : d.Sound) {globals staging : List Holding} {g : FunctionId}
    {body : List Statement} {s t u w x y : LoweringState} {k : Function} (known : d.functions.get? g = some k)
    (standing : Standing globals staging d s) (runs : Runs s g k body u w t) (typed : Statement.AllTyped d g body) {h : Helper}
    (calls : Calls body (bodyStart u) h x) {out : Location} (run : h.call x = .ok (out, y)) : h.Leaves x y out := by
  obtain ⟨ok, passed⟩ := calls.passed sound known standing runs typed
  cases h with
  | materialize v => exact Helper.leaves_materialize ok passed run
  | _ => exact Helper.leaves_given ok passed (fun _ => nofun) run

/-- **The calls of a program spare live registers.** In a program that compiles,
every call that the lowering of a function makes succeeds, its code is part of
the code of the function, and it leaves as they were the registers that are not
free and all memory but the place of its result. -/
theorem Program.calls_spare_live {o : Options} {source : String} {p : Program} (run : compile o source = .ok p)
    {f : CompiledFunction} (hf : f ∈ p.functions) :
    ∃ shader g k c body s u w t, Shader.parse o.stage source = .ok shader ∧
      .function g f.name c body ∈ shader.items ∧ shader.declarations.functions.get? g = some k ∧
      Lower.Runs s g k body u w t ∧ ∀ (h : Helper) (x : LoweringState), Lower.Calls body (Lower.bodyStart u) h x →
        ∃ out y front back, h.call x = .ok (out, y) ∧ h.Leaves x y out ∧
          f.assembly.entries.map CodeEntry.unaimed = front ++ (y.codeSince x).map CodeEntry.unaimed ++ back := by
  obtain ⟨shader, last, parsed, lowered⟩ := lowered_of_compile run
  obtain ⟨g, c, body, s, v, t, item, -, written, precedes⟩ := lowered.functions f hf
  obtain ⟨k, u, w, known, runs⟩ := written.runs
  refine ⟨shader, g, k, c, body, s, u, w, t, parsed, item, known, runs, fun h x calls => ?_⟩
  obtain ⟨out, y, called, ⟨es₁, before⟩, ⟨es₂, behind⟩⟩ := calls.comes Lower.closed_adds runs.body
  obtain ⟨ends, -⟩ := runs.ends
  refine ⟨out, y, x.assembly.entries.map CodeEntry.unaimed, es₂ ++ [.ret], called,
    calls.leaves lowered.typed.sound known written.standing runs written.typed called, ?_⟩
  rw [written.assembly, ← written.coded.assembly]
  obtain ⟨es, own⟩ := Lower.respects_call Lower.closed_adds h x _ _ called
  have adds := (own.eq_codeSince ▸ own).trans (behind.trans ends)
  rw [List.append_assoc]
  exact adds

end Shading
