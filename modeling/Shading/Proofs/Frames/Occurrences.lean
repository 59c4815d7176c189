import Shading.Proofs.Frames.Dispatch
import Shading.Proofs.Lowering.Evaluation

/-!
# The calls that expressions make

`Lower.Makes` lists the calls of operations that are made when an expression is
lowered. Calls for its operands are made when these are lowered
(`Lower.Operand`). Divisions of integers are none of these calls, nor is the
inversion of a truth value.

Each call is made in a state in good order and is passed what it is for
(`Lower.Makes.passed`): the place of its result still receives it, because what
was lowered since the place was given out has left it alone.
-/

namespace Shading

open LoweringState

namespace Lower

variable {d : Declarations} {f : Option FunctionId} {s s₁ s₂ s' t u : LoweringState} {b : Bool} {e : Expr} {v : Value}

/-! ## Calls in expressions -/

/-- **A container is in memory** when the address of an element is computed: in
its own place, or where its register is spilled. -/
inductive Stowed (container : Value) : LoweringState → Location → LoweringState → Prop
  | memory {s : LoweringState} (memory : container.location.isInMemory = true) : Stowed container s container.location s
  | spilled {s s₁ s₂ : LoweringState} {r : Nat} {spill : Location} (register : container.location = .simdRegister r)
      (placed : placeInMemory container.ty s = .ok (spill, s₁))
      (saved : transfer .packed spill container.location s₁ = .ok ((), s₂)) : Stowed container s spill s₂

theorem Stowed.readied {container : Value} {l : Location} (stowed : Stowed container s l t) : Readied container s t := by
  cases stowed with
  | memory memory =>
    refine .memory fun r same => ?_
    rw [same] at memory
    cases memory
  | spilled register placed saved => exact .spilled register placed saved

/-- **Lowering an expression from a state makes a call in another one.** Calls
for its operands are their own. -/
inductive Makes : (Bool × Expr) × LoweringState → Helper × LoweringState → Prop
  | computed {b : Bool} {op : BinaryOp} {l r : Expr} {ty : Ty} {p : Position} {out : Location} {v w : Value} {h : Helper}
      {s s₁ s₂ s₃ : LoweringState} (placed : place ty s = .ok (out, s₁))
      (left : expression false l (opened s₁) = .ok (v, s₂)) (right : expression false r s₂ = .ok (w, s₃))
      (call : Helper.ofBinary op out ty v w = some h) : Makes ((b, .binary op l r ty p), s) (h, s₃)
  | negated {b : Bool} {e : Expr} {ty : Ty} {p : Position} {out : Location} {v : Value} {s s₁ s₂ : LoweringState}
      (placed : place ty s = .ok (out, s₁)) (operand : expression false e (opened s₁) = .ok (v, s₂)) :
      Makes ((b, .negate e ty p), s) (.negate out v, s₂)
  | assigned {b : Bool} {target value : Expr} {ty : Ty} {p : Position} {dest source : Value} {s s₁ s₂ : LoweringState}
      (found : expression true target s = .ok (dest, s₁))
      (evaluated : expression false value (opened s₁) = .ok (source, s₂)) :
      Makes ((b, .assign none target value ty p), s) (.store dest.location target.ty source, s₂)
  | read {b : Bool} {op : BinaryOp} {target value : Expr} {ty : Ty} {p : Position} {dest source : Value}
      {s s₁ s₂ : LoweringState} (found : expression true target s = .ok (dest, s₁))
      (evaluated : expression false value (opened s₁) = .ok (source, s₂)) :
      Makes ((b, .assign (some op) target value ty p), s) (.materialize { location := dest.location, ty := dest.ty }, s₂)
  | combined {b : Bool} {op : BinaryOp} {target value : Expr} {ty : Ty} {p : Position} {dest source current : Value}
      {result : Location} {h : Helper} {s s₁ s₂ s₃ s₄ : LoweringState} (found : expression true target s = .ok (dest, s₁))
      (evaluated : expression false value (opened s₁) = .ok (source, s₂))
      (copied : materialize { location := dest.location, ty := dest.ty } s₂ = .ok (current, s₃))
      (placed : place (target.ty.arith value.ty) s₃ = .ok (result, s₄))
      (call : Helper.ofBinary op result (target.ty.arith value.ty) current source = some h) :
      Makes ((b, .assign (some op) target value ty p), s) (h, s₄)
  | written {b : Bool} {op : BinaryOp} {target value : Expr} {ty : Ty} {p : Position} {dest source current : Value}
      {result : Location} {s s₁ s₂ s₃ s₄ s₅ : LoweringState} (found : expression true target s = .ok (dest, s₁))
      (evaluated : expression false value (opened s₁) = .ok (source, s₂))
      (copied : materialize { location := dest.location, ty := dest.ty } s₂ = .ok (current, s₃))
      (placed : place (target.ty.arith value.ty) s₃ = .ok (result, s₄))
      (computed : binary op result (target.ty.arith value.ty) current source s₄ = .ok ((), s₅)) :
      Makes ((b, .assign (some op) target value ty p), s)
        (.store dest.location target.ty { location := result, ty := target.ty.arith value.ty }, s₅)
  | restored {b : Bool} {op : Option BinaryOp} {target value : Expr} {ty : Ty} {p : Position} {dest : Value}
      {back : WriteBack} {s s₁ s₂ : LoweringState} (found : expression true target s = .ok (dest, s₁))
      (stored : assigning op target.ty value.ty dest (expression false value) s₁ = .ok ((), s₂))
      (spilled : dest.writeBack = some back) :
      Makes ((b, .assign op target value ty p), s) (.transfer .packed back.register back.spill, s₂)
  | given {b : Bool} {op : Option BinaryOp} {target value : Expr} {ty : Ty} {p : Position} {w : Value}
      {s s₁ : LoweringState}
      (assigned : assignValue op target.ty value.ty (expression true target) (expression false value) s = .ok (w, s₁)) :
      Makes ((b, .assign op target value ty p), s) (.materialize w, s₁)
  | copied {base index : Expr} {ty : Ty} {p : Position} {container v : Value} {s s₁ s₂ : LoweringState}
      (found : expression false base s = .ok (container, s₁))
      (element : subscriptValue false container index (expression false index) s₁ = .ok (v, s₂)) :
      Makes ((false, .subscript base index ty p), s) (.materialize v, s₂)
  | spilled {b : Bool} {base index : Expr} {ty : Ty} {p : Position} {container : Value} {r : Nat} {spill : Location}
      {s s₁ s₂ : LoweringState} (found : expression b base s = .ok (container, s₁))
      (computed : literalIndex? container.ty index = none) (register : container.location = .simdRegister r)
      (placed : placeInMemory container.ty s₁ = .ok (spill, s₂)) :
      Makes ((b, .subscript base index ty p), s) (.transfer .packed spill container.location, s₂)
  | indexed {b : Bool} {base index : Expr} {ty : Ty} {p : Position} {container i : Value} {l : Location} {address : Lease}
      {s s₁ s₂ s₃ s₄ : LoweringState} (found : expression b base s = .ok (container, s₁))
      (computed : literalIndex? container.ty index = none) (stowed : Stowed container s₁ l s₂)
      (evaluated : expression false index s₂ = .ok (i, s₃)) (acquired : acquire .general [i.location, l] s₃ = .ok (address, s₄)) :
      Makes ((b, .subscript base index ty p), s) (.transfer .dword address.location i.location, s₄)
  | intrinsic {b : Bool} {id : FunctionId} {name : String} {args : List Expr} {ty : Ty} {p : Position} {out : Location}
      {vs : List Value} {h : Helper} {s s₁ s₂ : LoweringState}
      (known : (s.declarations.functions.get? id).any Function.intrinsic = true)
      (placed : ty = .void ∧ out = .none ∧ s₁ = s ∨ ty ≠ .void ∧ place ty s = .ok (out, s₁))
      (evaluated : arguments args (opened s₁) = .ok (vs, s₂)) (call : Helper.ofIntrinsic name out vs = some h) :
      Makes ((b, .call id name args ty p), s) (h, s₂)

/-! ### States in which calls are made -/

theorem yields_of_run (sound : d.Sound) (typed : e.Typed d f) (poised : s.Poised d f)
    (run : expression b e s = .ok (v, t)) : Yields s t b e v :=
  (expression_lowers (E := fun _ => True) sound b e typed (fun _ _ => trivial) (.inr trivial) s poised
    (Nat.le_refl _)).of_ok run

theorem Yields.poised (y : Yields s t b e v) (poised : s.Poised d f) : t.Poised d f := by
  obtain ⟨rs, leads⟩ := y.leads
  exact poised_leads [v] poised (by simpa [leasesOf] using leads) (by simpa using y.leased)

/-- What has no storage is not placed. -/
theorem storage_of_place {ty : Ty} {out : Location} (placed : place ty s = .ok (out, t)) : ty.size ≠ 0 := by
  intro zero
  have fails : s.layout.place ty .local = .error (.layout (.noStorage ty)) := if_pos zero
  rw [place_def] at placed
  obtain ⟨r, r', looked, rest⟩ := bind_eq_ok.1 placed
  obtain ⟨rfl, rfl⟩ := get_eq_ok.1 looked
  cases scopes : r'.scopes with
  | nil =>
    rw [scopes] at rest
    obtain ⟨_, _, given, -⟩ := bind_eq_ok.1 rest
    rw [fails] at given
    cases given
  | cons scope scopes' =>
    rw [scopes] at rest
    obtain ⟨_, _, given, -⟩ := bind_eq_ok.1 rest
    rw [Layout.placeIn, fails] at given
    cases given

theorem storage_of_placeInMemory {ty : Ty} {out : Location} (placed : placeInMemory ty s = .ok (out, t)) :
    ty.size ≠ 0 := by
  intro zero
  have fails : s.layout.placeInMemory ty .local = .error (.layout (.noStorage ty)) := if_pos zero
  rw [placeInMemory_def] at placed
  obtain ⟨_, _, looked, rest⟩ := bind_eq_ok.1 placed
  obtain ⟨rfl, rfl⟩ := get_eq_ok.1 looked
  obtain ⟨_, _, given, -⟩ := bind_eq_ok.1 rest
  rw [fails] at given
  cases given

theorem places_of_run {ty : Ty} {out : Location} (ok : s.Ok) (placed : place ty s = .ok (out, t)) :
    s.Leads t out.own [] ∧ Places s t ty out := by
  simpa using (place_ends (E := fun _ => True) (.refl ok) (storage_of_place placed)).of_ok placed

theorem poised_of_place {ty : Ty} {out : Location} (poised : s.Poised d f) (placed : place ty s = .ok (out, t)) :
    t.Poised d f := by
  obtain ⟨leads, -⟩ := places_of_run poised.ok placed
  exact poised_leads [] poised (by simpa [leasesOf] using leads) (by simp)

/-- A container that is brought to memory takes no register. -/
theorem Stowed.leads {container : Value} {l : Location} (stowed : Stowed container s l t) (ok : s.Ok) :
    s.Leads t [] [] := by
  cases stowed with
  | memory => exact .refl ok
  | spilled register placed saved =>
    obtain ⟨leads, -, offset, rfl⟩ := (placeInMemory_ends (E := fun _ => True) (.refl ok)
      (storage_of_placeInMemory placed)).of_ok placed
    have isRegister : container.location.isRegister = true := by
      rw [register]
      rfl
    have spill : (Location.localMemory offset).IsOperand := trivial
    exact ((transfer_steady (E := fun _ => True) leads.ok _ spill (Location.isOperand_of_isRegister isRegister)
      (.inr (.inl isRegister))).after leads).of_ok saved

/-- A container that an index is computed for is brought to memory. -/
theorem Readied.leads {container : Value} (readied : Readied container s t) (ok : s.Ok) : s.Leads t [] [] := by
  cases readied with
  | memory => exact .refl ok
  | spilled register placed saved => exact (Stowed.spilled register placed saved).leads ok

/-- Arguments are evaluated one after another. -/
theorem yields_of_arguments (sound : d.Sound) {es : List Expr} {vs : List Value} (typed : ∀ e ∈ es, e.Typed d f)
    (valued : ∀ e ∈ es, e.ty ≠ .void) (poised : s.Poised d f) (run : arguments es s = .ok (vs, t)) :
    (∃ rs, s.Leads t rs (leasesOf vs)) ∧ (∀ v ∈ vs, v.Leased) ∧
      List.Forall₂ (fun v e => v.ty = Expr.ty e ∧ v.Stands t ∧ v.location.IsOperand) vs es :=
  (arguments_lowers (E := fun _ => True) sound es typed valued (fun _ _ => trivial) (.inr trivial) s poised
    (Nat.le_refl _)).of_ok run

/-- Arguments that are evaluated have the types of their expressions. -/
theorem types_of_yields {vs : List Value} {es : List Expr}
    (yields : List.Forall₂ (fun v e => v.ty = Expr.ty e ∧ v.Stands t ∧ v.location.IsOperand) vs es) :
    vs.map Value.ty = es.map Expr.ty := by
  induction yields with
  | nil => rfl
  | cons yields _ ih => rw [List.map_cons, List.map_cons, yields.1, ih]

theorem poised_of_arguments (sound : d.Sound) {es : List Expr} {vs : List Value} (typed : ∀ e ∈ es, e.Typed d f)
    (valued : ∀ e ∈ es, e.ty ≠ .void) (poised : s.Poised d f) (run : arguments es s = .ok (vs, t)) : t.Poised d f := by
  obtain ⟨⟨rs, leads⟩, leased, -⟩ := yields_of_arguments sound typed valued poised run
  exact poised_leads vs poised leads leased

/-- **An operand is lowered from a state that is poised**, if the expression
around it is. -/
theorem Operand.poised (sound : d.Sound) {e e' : Bool × Expr} (operand : Operand (e, s) (e', t)) (typed : e.2.Typed d f)
    (poised : s.Poised d f) : e'.2.Typed d f ∧ t.Poised d f := by
  cases operand with
  | left placed =>
    cases typed with
    | binary _ typedL _ _ => exact ⟨typedL, opened_poised (poised_of_place poised placed)⟩
  | right placed before =>
    cases typed with
    | binary _ typedL typedR _ =>
      have inner := opened_poised (poised_of_place poised placed)
      exact ⟨typedR, (yields_of_run sound typedL inner before).poised inner⟩
  | target =>
    cases typed with
    | assign _ typedT _ _ _ => exact ⟨typedT, poised⟩
  | assigned found =>
    cases typed with
    | assign _ typedT typedV _ _ => exact ⟨typedV, opened_poised ((yields_of_run sound typedT poised found).poised poised)⟩
  | negated placed =>
    cases typed with
    | negate _ typedE _ => exact ⟨typedE, opened_poised (poised_of_place poised placed)⟩
  | inverted placed =>
    cases typed with
    | not _ typedE _ => exact ⟨typedE, opened_poised (poised_of_place poised placed)⟩
  | base =>
    cases typed with
    | subscript _ typedB _ _ _ => exact ⟨typedB, poised⟩
  | index container computed readied =>
    cases typed with
    | subscript _ typedB typedI _ _ =>
      have poised₁ := (yields_of_run sound typedB poised container).poised poised
      exact ⟨typedI, poised_leads [] poised₁ (by simpa [leasesOf] using readied.leads poised₁.ok) (by simp)⟩
  | argument placed before =>
    rename_i e ty p vs s₁
    cases typed with
    | call _ found typedA stores =>
      have valued := Expr.valued_of_stores stores
      have poised₁ : s₁.Poised d f := by
        rcases placed with ⟨-, rfl⟩ | ⟨-, out, placed⟩
        · exact poised
        · exact poised_of_place poised placed
      exact ⟨typedA e (by simp), poised_of_arguments sound (fun a h => typedA a (List.mem_append_left _ h))
        (fun a h => valued a (List.mem_append_left _ h)) (opened_poised poised₁) before⟩

theorem poised_of_operands (sound : d.Sound) {x y : (Bool × Expr) × LoweringState}
    (operands : Relation.ReflTransGen Operand x y) (typed : x.1.2.Typed d f) (poised : x.2.Poised d f) :
    y.1.2.Typed d f ∧ y.2.Poised d f := by
  induction operands with
  | refl => exact ⟨typed, poised⟩
  | tail _ operand ih => exact operand.poised sound ih.1 ih.2

/-! ### What the calls are passed -/

theorem Yields.receives (y : Yields s t true e v) (valued : e.ty ≠ .void) : t.Receives e.ty v.location := by
  obtain ⟨rs, leads⟩ := y.leads
  have leads : s.Leads t rs ([] ++ v.lease.toList) := by simpa using leads
  exact y.ty ▸ receives_of_stands (y.stands valued) leads

/-- A value that stands is copied if it is a lane. -/
theorem passed_of_stands (stands : v.Stands t) : (Helper.materialize v).Passed t := by
  refine ⟨stands.kept, fun simd shift same => ⟨stands.lease.unleased (by simp [same]), ?_⟩⟩
  have fits := stands.fits
  rw [same] at fits
  exact fits.1

/-- So is what stands at a place that receives a result. -/
theorem passed_of_receives {ty : Ty} {l : Location} (receives : t.Receives ty l) :
    (Helper.materialize { location := l, ty }).Passed t := by
  refine ⟨receives.keeps, fun simd shift same => ⟨rfl, ?_⟩⟩
  have fits := receives.fits
  have same : l = .registerLane simd shift := same
  rw [same] at fits
  exact fits.1

theorem valued_of_element {ty element : Ty} (has : ty.element? = some element) : ty ≠ .void ∧ element ≠ .void := by
  revert has
  cases ty <;> cases element <;> decide

/-- A place receives the result when its operands have been evaluated. -/
theorem receives_of_operand {ty : Ty} {out : Location} (ok : s.Ok) (placed : place ty s = .ok (out, s₁))
    (y : Yields (opened s₁) t b e v) : t.Receives ty out := by
  obtain ⟨-, places⟩ := places_of_run ok placed
  obtain ⟨rs, leads⟩ := y.leads
  exact (receives_of_places places).opened.leads leads

/-- **When the value of an assignment has been evaluated**, its target still
receives it. -/
theorem assignment_evaluated (sound : d.Sound) {op : Option BinaryOp} {target value : Expr} {dest source : Value}
    (typedT : target.Typed d f) (typedV : value.Typed d f) (takes : target.ty.Takes op value.ty) (poised : s.Poised d f)
    (found : expression true target s = .ok (dest, s₁)) (evaluated : expression false value (opened s₁) = .ok (source, s₂)) :
    s₂.Poised d f ∧ s₂.Receives target.ty dest.location ∧ dest.ty = target.ty ∧ source.ty = value.ty ∧
      (value.ty ≠ .void → source.location.IsOperand) := by
  have y := yields_of_run sound typedT poised found
  have inner := opened_poised (y.poised poised)
  have w := yields_of_run sound typedV inner evaluated
  obtain ⟨rs, leads⟩ := w.leads
  exact ⟨w.poised inner, (y.receives takes.notVoid).opened.leads leads, y.ty, w.ty, w.operand rfl⟩

/-- What the target of an assignment holds is combined with a value: the place
of the result receives it, and the target receives the result. -/
theorem combined_passed {op : BinaryOp} {target value : Ty} {dest source current : Value} {result : Location}
    {s₃ s₄ : LoweringState} (joins : Parser.joins op target value = true) (poised : s₂.Poised d f) (ty : dest.ty = target)
    (receives : s₂.Receives target dest.location) (sourceTy : source.ty = value) (operand : source.location.IsOperand)
    (copied : materialize { location := dest.location, ty := dest.ty } s₂ = .ok (current, s₃))
    (placed : place (target.arith value) s₃ = .ok (result, s₄)) :
    (s₄.Ok ∧ current.ty = target ∧ s₄.Receives (target.arith value) result) ∧
      ∀ u, binary op result (target.arith value) current source s₄ = .ok ((), u) →
        u.Ok ∧ u.Receives target dest.location := by
  subst ty sourceTy
  have copies : Ends (materialize { location := dest.location, ty := dest.ty }) s₂
      (fun w u => Materialized s₂ u { location := dest.location, ty := dest.ty } w) fun _ => True :=
    materialize_ends poised.ok poised.quiet receives.fits fun _ _ _ => rfl
  have m := copies.of_ok copied
  obtain ⟨rs, h₃⟩ := m.leads
  have poised₃ : s₃.Poised d f := poised_leads [] poised (by simpa [leasesOf] using h₃) (by simp)
  obtain ⟨h₄, places⟩ := places_of_run poised₃.ok placed
  have poised₄ := poised_of_place poised₃ placed
  refine ⟨⟨poised₄.ok, m.ty, receives_of_places places⟩, fun u computed => ?_⟩
  have same : current.ty = dest.ty := m.ty
  rw [← same] at computed joins places
  have h₅ := (binary_steady (E := fun _ => True) poised₄.ok poised₄.quiet joins places.isOperand places.fits m.operand operand
    fun _ _ => .inr (.inr trivial)).of_ok computed
  exact ⟨h₅.ok, ((receives.leads h₃).leads h₄).leads h₅⟩

/-- **The operation of an intrinsic function is passed its arguments**, whose
types are those that the parameters store. -/
theorem intrinsic_passed (sound : d.Sound) {id : FunctionId} {g : Function} {args : List Expr} {out : Location}
    {vs : List Value} {h : Helper} (found : d.functions.get? id = some g) (typed : ∀ e ∈ args, e.Typed d f)
    (stores : List.Forall₂ Ty.Stores (g.parameters.map d.symbolTy) (args.map Expr.ty)) (poised : s.Poised d f)
    (known : (s.declarations.functions.get? id).any Function.intrinsic = true)
    (placed : g.returnTy = .void ∧ out = .none ∧ s₁ = s ∨ g.returnTy ≠ .void ∧ place g.returnTy s = .ok (out, s₁))
    (evaluated : arguments args (opened s₁) = .ok (vs, t)) (call : Helper.ofIntrinsic g.name out vs = some h) :
    t.Ok ∧ h.Passed t := by
  rw [poised.houses.functions, found] at known
  have isIntrinsic : g.intrinsic = true := known
  have before : s₁.Poised d f ∧ (g.returnTy ≠ .void → s₁.Receives g.returnTy out) := by
    rcases placed with ⟨void, -, rfl⟩ | ⟨-, placed⟩
    · exact ⟨poised, fun solid => absurd void solid⟩
    · exact ⟨poised_of_place poised placed, fun _ => receives_of_places (places_of_run poised.ok placed).2⟩
  obtain ⟨⟨rs, leads⟩, -, yields⟩ :=
    yields_of_arguments sound typed (Expr.valued_of_stores stores) (opened_poised before.1) evaluated
  refine ⟨leads.ok, Helper.passed_ofIntrinsic (sound.intrinsic _ _ found isIntrinsic) ?_
    (fun solid => (before.2 solid).opened.leads leads) call⟩
  rw [types_of_yields yields]
  exact stores

/-- **What lowering an expression calls is made in a state in good order, and is
passed what it is for.** -/
theorem Makes.passed (sound : d.Sound) {e : Bool × Expr} {h : Helper} (makes : Makes (e, s) (h, t)) (typed : e.2.Typed d f)
    (poised : s.Poised d f) : t.Ok ∧ h.Passed t := by
  -- One case for each form: the expressions in front of the call are lowered from
  -- poised states, and none of them takes the place that the call is given.
  cases makes with
  | computed placed left right call =>
    cases typed with
    | binary _ typedL typedR yields =>
      have inner := opened_poised (poised_of_place poised placed)
      have l := yields_of_run sound typedL inner left
      have r := yields_of_run sound typedR (l.poised inner) right
      obtain ⟨rs, leads⟩ := r.leads
      refine ⟨(r.poised (l.poised inner)).ok, Helper.passed_ofBinary ?_ ((receives_of_operand poised.ok placed l).leads leads) call⟩
      rw [l.ty, r.ty]
      exact yields
  | negated placed operand =>
    cases typed with
    | negate _ typedE numeric =>
      have inner := opened_poised (poised_of_place poised placed)
      have y := yields_of_run sound typedE inner operand
      have receives := receives_of_operand poised.ok placed y
      rw [← y.ty] at receives
      exact ⟨(y.poised inner).ok, receives⟩
  | assigned found evaluated =>
    cases typed with
    | assign _ typedT typedV _ takes =>
      obtain ⟨poised₂, receives, -⟩ := assignment_evaluated sound typedT typedV takes poised found evaluated
      exact ⟨poised₂.ok, receives⟩
  | read found evaluated =>
    cases typed with
    | assign _ typedT typedV _ takes =>
      obtain ⟨poised₂, receives, ty, -⟩ := assignment_evaluated sound typedT typedV takes poised found evaluated
      rw [← ty] at receives
      exact ⟨poised₂.ok, passed_of_receives receives⟩
  | combined found evaluated copied placed call =>
    cases typed with
    | assign _ typedT typedV _ takes =>
      obtain ⟨poised₂, receives, ty, sourceTy, operand⟩ :=
        assignment_evaluated sound typedT typedV takes poised found evaluated
      cases takes with
      | combined yields stores =>
        obtain ⟨⟨ok, currentTy, receives⟩, -⟩ := combined_passed yields.joins.1 poised₂ ty receives sourceTy
          (operand yields.valued.2) copied placed
        refine ⟨ok, Helper.passed_ofBinary ?_ receives call⟩
        rw [currentTy, sourceTy, yields.joins.2]
        exact yields
  | written found evaluated copied placed computed =>
    cases typed with
    | assign _ typedT typedV _ takes =>
      obtain ⟨poised₂, receives, ty, sourceTy, operand⟩ :=
        assignment_evaluated sound typedT typedV takes poised found evaluated
      cases takes with
      | combined yields stores =>
        exact (combined_passed yields.joins.1 poised₂ ty receives sourceTy (operand yields.valued.2) copied
          placed).2 _ computed
  | restored found stored spilled =>
    cases typed with
    | assign _ typedT typedV _ takes =>
      have y := yields_of_run sound typedT poised found
      have leads := (assigning_ends (E := fun _ => True) (Ty.takes_iff.1 takes) poised (Nat.le_refl _) y
        (expression_lowers sound false _ typedV (fun _ _ => trivial) (.inr trivial)) fun _ => .inr trivial).of_ok stored
      obtain ⟨fits, keeps⟩ := y.reloads _ spilled
      refine ⟨leads.ok, fits, leads.keeps keeps, fun id same => ?_⟩
      -- The register was not free when it was spilled, and the assignment in
      -- between has given back all that it took.
      have register := (y.writeBack _ spilled).1
      rw [same] at register
      cases register
  | @given _ _ _ _ _ p w _ _ assigned =>
    cases typed with
    | assign _ typedT typedV _ takes =>
      have y := (assignValue_lowers (E := fun _ => True) (Ty.takes_iff.1 takes) p
        (expression_lowers sound true _ typedT (fun _ _ => trivial) (.inr trivial))
        (expression_lowers sound false _ typedV (fun _ _ => trivial) (.inr trivial)) (fun _ => .inr trivial) s poised
        (Nat.le_refl _)).of_ok assigned
      exact ⟨(y.poised poised).ok, passed_of_stands (y.stands takes.notVoid)⟩
  | @copied base index _ p container v _ s₁ _ found element =>
    cases typed with
    | subscript _ typedB typedI has integral =>
      have run : (do
          let container ← expression false base
          subscriptValue false container index (expression false index) : Lower Value) s = .ok (v, t) :=
        bind_eq_ok.2 ⟨container, s₁, found, element⟩
      have y := (subscriptValue_lowers (E := fun _ => True) has integral p
        (expression_lowers sound false _ typedB (fun _ _ => trivial) (.inr trivial))
        (fun _ => expression_lowers sound false _ typedI (fun _ _ => trivial) (.inr trivial)) (fun _ => .inr trivial) s poised
        (Nat.le_refl _)).of_ok run
      exact ⟨(y.poised poised).ok, passed_of_stands (y.stands (valued_of_element has).2)⟩
  | spilled found computed register placed =>
    cases typed with
    | subscript _ typedB typedI has integral =>
      have y := yields_of_run sound typedB poised found
      obtain ⟨leads, places, offset, rfl⟩ := (placeInMemory_ends (E := fun _ => True) (.refl (y.poised poised).ok)
        (storage_of_placeInMemory placed)).of_ok placed
      have fits := (y.stands (valued_of_element has).1).fits
      rw [register, y.ty] at fits
      have wide := (vector_of_register has fits).1
      obtain ⟨⟨-, aligned⟩, -, kept⟩ := places
      rw [y.ty, wide] at aligned kept
      exact ⟨leads.ok, ⟨(by decide : Ty.vec4.size ≠ 0), aligned⟩, kept, by rintro _ ⟨⟩⟩
  | indexed found computed stowed evaluated acquired =>
    cases typed with
    | subscript _ typedB typedI has integral =>
      have y := yields_of_run sound typedB poised found
      have stowed := stowed.leads (y.poised poised).ok
      have poised₂ := poised_leads [] (y.poised poised) (by simpa [leasesOf] using stowed) (by simp)
      have i := yields_of_run sound typedI poised₂ evaluated
      obtain ⟨leads, id, grants⟩ := (acquire_ends (E := fun _ => True) (.refl (i.poised poised₂).ok) (.inr trivial)).of_ok acquired
      exact ⟨leads.ok, receives_of_grants grants⟩
  | intrinsic known placed evaluated call =>
    cases typed with
    | call _ found typedA stores => exact intrinsic_passed sound found typedA stores poised known placed evaluated call

end Lower

end Shading
