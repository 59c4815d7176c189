import Shading.Proofs.Discipline.Poise

/-!
# Operators and assignments along a course

Literals, variables, operators and assignments give values that stand, if
their operands do. The place of a result is given out before the operands are
evaluated, so nothing that happens on the way reaches it. The value of a lane
is copied to a place of its own before it is consumed.
-/

namespace Shading

open LoweringState Regime

namespace Lower

variable {R : Regime} {K : Nat → Prop} {s₀ s t u : LoweringState} {registers : List Location}
  {held : List Lease} {d : Declarations} {f : Option FunctionId} {v w : Value} {e : Expr}
  {b whole : Bool}

/-! ## Atoms -/

theorem literal_gives (value : Literal) (p : Position) :
    R.GivesFrom d f false whole (literal value) (.literal value value.ty p) := by
  intro K s poise
  -- Integers and truth values are moved to a place; a float stays in the pool, where
  -- nothing writes.
  have placed {ty : Ty} (integral : RegisterClass.ofTy? ty = some .general) (n : Nat)
      (same : value.ty = ty) : Results (do
        let out ← place ty
        emitUnary .movImm out (wordBytes n)
        return { location := out, ty } : Lower Value) s fun v t =>
          R.Gives K s t false whole (.literal value value.ty p) v := by
    subst same
    refine (place_results poise.ready value.ty).bind fun out t placed => ?_
    have ready := placed.course.ready poise.ready
    have direct (r : Nat) : out ≠ .indirectRegister r := placed.places.direct r
    have stands : R.Stands K t true value.ty out := stands_placed placed poise.deep
    have writes := (poise.course placed.course.toPath).writes stands placed.places.isOperand
    have size : value.ty.size / 4 = 1 := by
      revert integral
      cases value.ty <;> decide
    have output := writes.whole .general integral
    rw [size] at output
    refine (movImm_results ready (output.place.imp id fun h => ⟨h, direct⟩)).bind fun _ u emits => ?_
    have course := placed.course.step emits.course
    exact .pure (gives_placed placed poise.deep poise.ready course emits.course)
  cases value with
  | int n =>
    rw [literal_ofInt]
    exact placed rfl _ rfl
  | bool b =>
    rw [literal_ofBool]
    exact placed rfl _ rfl
  | float bits =>
    rw [literal_ofFloat]
    refine (constant_results poise.ready (.float bits)).bind ?_
    rintro _ t ⟨course, -, offset, rfl, pooled⟩
    obtain ⟨below, aligned⟩ := course.fine.ok.pooled _ pooled
    have top := course.fine.ok.layout.globalTop
    have stands : R.Stands K t false .float (.globalMemory offset) := by
      refine ⟨⟨(by decide : Ty.float.size ≠ 0), aligned⟩, ⟨below, fun x hx => ?_⟩, fun r o place => ?_, by rintro _ ⟨⟩⟩
      · obtain ⟨y, eq, -, -, apart⟩ := course.fine.ok.division _ hx
        simp only [DivisionSlots.at, DivisionSlots.mk.injEq, Location.globalMemory.injEq] at eq
        rw [eq.1]
        exact apart _ pooled
      · cases place
        exact ⟨_, _, .constant pooled, ⟨rfl, Nat.le_refl _, Nat.le_refl _⟩, Nat.le_trans below top, by rintro ⟨⟩, by rintro ⟨⟩⟩
    exact .pure
      { course := ⟨[], course⟩
        ty := rfl
        leased := .inl ⟨rfl, by rintro _ ⟨⟩⟩
        empty := by rintro ⟨⟩
        stands := fun _ => stands.weaken fun _ h => .inl h
        operand := fun _ _ => trivial
        exact := by rintro _ _ ⟨⟩
        writeBack := by rintro _ ⟨⟩ }

/-- **A variable stands in its home**, and it may be written if it is
assigned. -/
theorem variable_stands (poise : R.Footing K d f s) {id : SymbolId} {v : Symbol}
    (known : s.declarations.symbols.get? id = some v) (isVariable : v.kind = .variable)
    (visible : v.VisibleIn f) (at_ : v.location.IsHome ∧ v.location.Fits v.ty ∧ s.Keeps v.ty.size v.location)
    (writable : b = true → R.assigned id) : R.Stands K s b v.ty v.location := by
  obtain ⟨name, scope, kind, ty, owner, declaredAt, intrinsic, l⟩ := v
  obtain ⟨home, fits, kept⟩ := at_
  refine ⟨fits, kept, fun r o place => ?_, fun r eq => ?_⟩
  · refine ⟨.symbol id, ⟨r, o, ty.size⟩, .symbol known isVariable (poise.function ▸ visible)
      (Location.slot?_eq_some.2 ⟨r, o, place, rfl⟩), ⟨rfl, Nat.le_refl _, Nat.le_refl _⟩, ?_, writable,
      by rintro ⟨⟩⟩
    have ok := poise.ready.fine.ok.layout
    cases l <;> cases place
    · exact Nat.le_trans kept.1 ok.globalTop
    · exact Nat.le_trans kept ok.localTop
  · rw [eq] at home
    exact home.elim

/-- **A variable is its own storage**, and no other expression writes to it
than those that assign it. -/
theorem variableValue_gives {id : SymbolId} {v : Symbol} (found : d.symbols.get? id = some v)
    (visible : v.VisibleIn f) (writable : b = true → R.assigned id) (p : Position) :
    R.GivesFrom d f b whole (variableValue id) (.name id v.ty p) := by
  intro K s poise
  obtain ⟨l, known⟩ := poise.houses.symbols id v found
  unfold variableValue
  refine .bindGet ?_
  rw [known]
  dsimp only
  split
  · exact fail_results _
  next ordinary =>
  rw [not_or] at ordinary
  have isVariable : v.kind = .variable := by
    have := ordinary.1
    revert this
    cases v.kind <;> simp
  have at_ := poise.houses.homes id _ ⟨v, found, isVariable, visible⟩ known
  have direct (r : Nat) : l ≠ .indirectRegister r := fun eq => by
    have home := at_.1
    simp only [eq] at home
    exact home
  have stands := variable_stands poise.toFooting known isVariable visible at_ writable
  exact .pure
    { course := ⟨[], .refl poise.ready.fine⟩
      ty := rfl
      leased := .inl ⟨rfl, direct⟩
      empty := fun empty => absurd empty stands.storage
      stands := fun _ => stands.weaken fun _ h => .inl h
      operand := fun _ _ => Location.IsHome.isOperand at_.1
      exact := fun _ r eq => absurd eq (direct r)
      writeBack := nofun }

/-! ## Operators -/

/-- **Two operands and the operation on them** leave nothing behind. -/
theorem operands_results {lhs rhs : Lower Value} {l r : Expr} (compute : Value → Value → Lower Unit)
    (hl : R.GivesFrom d f false true lhs l) (hr : R.GivesFrom d f false true rhs r) (poise : R.Poise K d f s)
    (step : ∀ (K' : Nat → Prop) (t : LoweringState) rs v w, (∀ r, K r → K' r) → R.Poise K' d f t →
      R.Course K s t rs (v.lease.toList ++ w.lease.toList) → v.ty = l.ty → w.ty = r.ty →
      (l.ty ≠ .void → R.Reads K' t v) → (r.ty ≠ .void → R.Reads K' t w) →
      (w.ty.isVector = true → R.ExactAt t w.location) →
      Results (compute v w) t fun _ u => R.Course K' t u [] []) :
    Results (do
      let v ← lhs
      let w ← rhs
      compute v w
      finish w
      finish v : Lower Unit) s fun _ t => ∃ rs, R.Course K s t rs [] := by
  refine (hl K s poise).bind fun v t₁ g₁ => ?_
  obtain ⟨rs₁, course₁⟩ := g₁.course
  have poise₁ := poise.join course₁.toPath g₁.leased
  refine (hr (With K v) t₁ poise₁).bind fun w t₂ g₂ => ?_
  obtain ⟨rs₂, course₂⟩ := g₂.course
  have poise₂ := poise₁.join course₂.toPath g₂.leased
  have course := course₁.trans (course₂.weaken fun _ h => .inl h)
  have readsV (h : l.ty ≠ .void) : R.Reads (With (With K v) w) t₂ v := by
    have stands := (g₁.stands h).course poise₁.ready course₂.toPath
    exact poise₂.reads (stands.weaken fun _ h => .inl h) (g₁.operand rfl h)
  have readsW (h : r.ty ≠ .void) : R.Reads (With (With K v) w) t₂ w :=
    poise₂.reads (g₂.stands h) (g₂.operand rfl h)
  refine (step _ t₂ _ v w (fun _ h => .inl (.inl h)) poise₂ course g₁.ty g₂.ty readsV readsW g₂.exact).bind
    fun _ t₃ course₃ => ?_
  have course := course.step (course₃.weaken fun _ h => .inl (.inl h))
  refine (finish_results course poise.ready).bind fun _ t₄ ⟨course, _⟩ => ?_
  have course : R.Course K s t₄ (rs₁ ++ rs₂) ([] ++ v.lease.toList) := course
  exact (finish_results course poise.ready).mono fun _ t₅ ⟨course, _⟩ => ⟨_, course⟩

/-- **A binary operation is lowered** with its operands. -/
theorem binaryValue_gives {op : BinaryOp} {lhs rhs : Lower Value} {l r : Expr}
    (joins : Parser.joins op l.ty r.ty = true) (p : Position) (hl : R.GivesFrom d f false true lhs l)
    (hr : R.GivesFrom d f false true rhs r) :
    R.GivesFrom d f b whole (binaryValue op (l.ty.arith r.ty) lhs rhs)
      (.binary op l r (l.ty.arith r.ty) p) := by
  intro K s poise
  have valued : l.ty ≠ .void ∧ r.ty ≠ .void := by
    revert joins
    generalize l.ty = a, r.ty = b
    cases op <;> cases a <;> cases b <;> decide
  refine (place_results poise.ready (l.ty.arith r.ty)).bind fun out t placed => ?_
  have poise₁ := poise.course placed.course.toPath
  have stands : R.Stands K t true (l.ty.arith r.ty) out := stands_placed placed poise.deep
  have inner := operands_results (s := opened t) (binary op out (l.ty.arith r.ty)) hl hr poise₁.opened ?_
  · refine (inScope_results (P := fun _ _ => True) poise₁.ready (inner.mono fun _ _ h => ⟨h, trivial⟩)).bind ?_
    rintro _ u ⟨-, course, -, -⟩
    exact .pure (gives_placed placed poise.deep poise.ready (placed.course.step course) course)
  · intro K' t' rs v w sub poise' course vty wty readsV readsW exact
    have writes : R.Writes K' t' (l.ty.arith r.ty) out := poise'.writes
      ((stands.opened.course poise₁.opened.ready course.toPath).weaken sub) placed.places.isOperand
    rw [← vty, ← wty] at joins writes ⊢
    exact (binary_results poise'.ready joins (readsV valued.1) (readsW valued.2) exact writes
      placed.places.direct).mono fun _ _ h => h.1

/-- **An operation on one operand is lowered** with it. -/
theorem unaryValue_gives {operand : Lower Value} {compute : Location → Value → Lower Unit}
    {e r : Expr} (valued : e.ty ≠ .void) (he : R.GivesFrom d f false true operand e)
    (step : ∀ (K : Nat → Prop) (t : LoweringState) v out, R.Poise K d f t → v.ty = e.ty → R.Reads K t v →
      R.Writes K t r.ty out → (∀ r, out ≠ .indirectRegister r) →
      Results (compute out v) t fun _ u => R.Course K t u [] []) :
    R.GivesFrom d f b whole (unaryValue compute r.ty operand) r := by
  intro K s poise
  refine (place_results poise.ready r.ty).bind fun out t placed => ?_
  have poise₁ := poise.course placed.course.toPath
  have stands : R.Stands K t true r.ty out := stands_placed placed poise.deep
  refine (inScope_results (P := fun _ _ => True) poise₁.ready ?_).bind ?_
  · refine (he K _ poise₁.opened).bind fun v t₁ g => ?_
    obtain ⟨rs, course⟩ := g.course
    have poise₂ := poise₁.opened.join course.toPath g.leased
    have writes := poise₂.writes ((stands.opened.course poise₁.opened.ready course.toPath).weaken
      fun _ h => .inl h) placed.places.isOperand
    refine (step _ t₁ v out poise₂ g.ty (poise₂.reads (g.stands valued) (g.operand rfl valued)) writes
      placed.places.direct).bind fun _ t₂ course₂ => ?_
    have course : R.Course K (opened t) t₂ rs ([] ++ v.lease.toList) :=
      course.step (course₂.weaken fun _ h => .inl h)
    exact (finish_results course poise₁.opened.ready).mono fun _ _ h => ⟨⟨rs, h.1⟩, trivial⟩
  · rintro _ u ⟨-, course, -, -⟩
    exact .pure (gives_placed placed poise.deep poise.ready (placed.course.step course) course)

/-- **Negation is lowered.** -/
theorem negate_gives {operand : Lower Value} (numeric : e.ty.isScalar = true ∨ e.ty.isVector = true)
    (p : Position) (he : R.GivesFrom d f false true operand e) :
    R.GivesFrom d f b whole (unaryValue negate e.ty operand) (.negate e e.ty p) := by
  have valued : e.ty ≠ .void := by
    revert numeric
    generalize e.ty = a
    cases a <;> decide
  refine unaryValue_gives (r := .negate e e.ty p) valued he fun K t v out poise same reads writes direct => ?_
  have numeric : v.ty.isScalar = true ∨ v.ty.isVector = true := same ▸ numeric
  have writes : R.Writes K t v.ty out := same ▸ writes
  exact (negate_results poise.ready numeric reads writes direct).mono fun _ _ h => h.1

/-- **Inversion is lowered.** -/
theorem invert_gives {operand : Lower Value} (truth : e.ty = .bool) (p : Position)
    (he : R.GivesFrom d f false true operand e) :
    R.GivesFrom d f b whole (unaryValue invert .bool operand) (.not e .bool p) := by
  refine unaryValue_gives (r := .not e .bool p) (by rw [truth]; decide) he
    fun K t v out poise same reads writes direct => ?_
  have input := reads.whole .general (by rw [same, truth]; rfl)
  rw [same, truth] at input
  have writes : R.Writes K t .bool out := writes
  have output : R.Output K t .general 1 out := writes.whole .general rfl
  exact (invert_results poise.ready input output direct).mono fun _ _ h => h.1

/-! ## Lanes -/

/-- **What is found after a lane has been copied**: the value in a place of
its own, or any other value where it was. -/
structure Copied (R : Regime) (K : Nat → Prop) (s t : LoweringState) (v w : Value) : Prop where
  course : ∃ rs, R.Course K s t rs []
  calm : R.Calm s t
  same : (w = v ∧ v.location.IsOperand) ∨
    ((∃ i k, v.location = .registerLane i k) ∧ w.ty = .float ∧ w.lease = none ∧ w.writeBack = none ∧
      w.location.IsOperand ∧ (∀ r, w.location ≠ .indirectRegister r) ∧ R.Stands K t true .float w.location)

theorem materialize_results (poise : R.Poise K d f s) (fits : v.location.Fits v.ty)
    (lane : ∀ i k, v.location = .registerLane i k → v.lease = none) :
    Results (materialize v) s fun w t => Copied R K s t v w := by
  obtain ⟨location, ty, lease, back⟩ := v
  rw [materialize_def]
  -- Only a lane needs a copy: it is moved to an accumulator, shifted down to the first
  -- lane and masked there.
  cases location with
  | none => exact fits.elim
  | registerLane i k =>
    obtain rfl : lease = none := lane i k rfl
    have pool : i ∈ RegisterClass.simd.pool := fits.2.1
    dsimp only
    refine (place_results poise.ready .float).bind fun out t placed => ?_
    have poise₁ := poise.course placed.course.toPath
    have ready := poise₁.ready
    have direct (r : Nat) : out ≠ .indirectRegister r := placed.places.direct r
    have stands : R.Stands K t true .float out := stands_placed placed poise.deep
    have output := (poise₁.writes stands placed.places.isOperand).whole .simd rfl
    refine (accumulator_results ready output _).bind ?_
    rintro ⟨_, acc⟩ t₁ ⟨id, rfl, accumulates⟩
    have known (u : LoweringState) (n : Nat) (l : Location) : R.Knows u n l := fun p _ =>
      poise.identical.known p
    refine (computes_results (accumulates.during.ready ready)
      (rfl : Opcode.movupsLoad.shape? = some ⟨.simd, .simd, 0, 4, 4⟩) accumulates.pool (known _ _ _) ⟨.inl ⟨i, pool, rfl⟩, known _ _ _⟩ (fun _ => nofun) nofun).bind
      fun _ t₂ e₂ => ?_
    have during₂ := accumulates.during.emits e₂.toDoes fun _ h => by cases h.1
    have shifted : Results (if 0 < k then emitUnary .psrldq (.simdRegister id) [UInt8.ofNat k]
        else pure ()) t₂ fun _ u => R.During K .simd t u ([] ++ acc.toList) := by
      split
      · exact (shift_results (during₂.ready ready) rfl accumulates.pool _ (known _ _ _)).mono
          fun _ _ emits => during₂.emits emits.toDoes nofun
      · exact .pure during₂
    refine Results.optional shifted fun t₃ during₃ => ?_
    refine (during_constant during₃ ready lane0Mask).bind ?_
    rintro _ t₄ ⟨during₄, -, -, -, offset, rfl, pooled⟩
    refine (keepFirst_results (during₄.ready ready) accumulates.pool (poise.identical.known _) pooled
      ⟨rfl, rfl, rfl⟩).bind fun _ t₅ e₅ => ?_
    have during₅ := during₄.emits e₅.toDoes nofun
    refine (settle_results .single ready output accumulates during₅ (known _ _ _)).bind fun _ t₆ moves => ?_
    have course := moves.emits.course
    refine .pure ⟨⟨_, placed.course.step course⟩, fun r small exact => ?_, .inr ⟨⟨i, k, rfl⟩, rfl, rfl, rfl,
      placed.places.isOperand, direct, stands.course ready course.toPath⟩⟩
    exact moves.emits.exact r small nofun (placed.calm r small exact)
  | register i => exact .pure ⟨⟨[], .refl poise.ready.fine⟩, fun _ _ h => h, .inl ⟨rfl, trivial⟩⟩
  | simdRegister i => exact .pure ⟨⟨[], .refl poise.ready.fine⟩, fun _ _ h => h, .inl ⟨rfl, trivial⟩⟩
  | globalMemory o => exact .pure ⟨⟨[], .refl poise.ready.fine⟩, fun _ _ h => h, .inl ⟨rfl, trivial⟩⟩
  | localMemory o => exact .pure ⟨⟨[], .refl poise.ready.fine⟩, fun _ _ h => h, .inl ⟨rfl, trivial⟩⟩
  | indirectRegister o => exact .pure ⟨⟨[], .refl poise.ready.fine⟩, fun _ _ h => h, .inl ⟨rfl, trivial⟩⟩

/-! ## Assignments -/

/-- A value is stored in the place of a target, and an access behind an
address of a vector tells that it is right. -/
theorem storeTarget_results {ty : Ty} {l : Location} (poise : R.Poise K d f s)
    (fits : ty.assignable v.ty = true) (reads : R.Reads K s v) (stands : R.Stands K s true ty l)
    (other : ∀ r, l = .indirectRegister r → v.location ≠ .indirectRegister r)
    (soft : ty.isVector = true → ∀ r, l = .indirectRegister r → R.Shows s (R.Soft r)) :
    Results (store l ty v) s fun _ t => R.Course K s t [] [] ∧
      (ty.isVector = true → ∀ r, l = .indirectRegister r → R.Shows t (R.Exact r)) := by
  refine (store_results poise.ready fits reads (fun i k eq => ?_) fun notLane => ?_).mono
    fun _ t stores => ⟨stores.emits.course, fun vector r eq => ?_⟩
  · have fits := stands.fits
    rw [eq] at fits
    exact ⟨fits.1, fits.2.1, poise.knows _ _⟩
  · refine poise.writes stands ?_
    have fits := stands.fits
    revert fits notLane
    cases l <;> simp [Location.Fits, Location.IsOperand]
  · exact stores.after (fun same => other r eq (same ▸ eq)) r eq (soft vector r eq)

/-- **Combining a value with what its target holds**, and storing the
result there. -/
theorem combine_results {op : BinaryOp} {dest source : Value} {k : Unit → Lower Unit}
    {Q : Unit → LoweringState → Prop} (poise : R.Poise K d f s)
    (joins : Parser.joins op dest.ty source.ty = true)
    (assignable : dest.ty.assignable (dest.ty.arith source.ty) = true)
    (stands : R.Stands K s true dest.ty dest.location) (reads : R.Reads K s source)
    (exact : source.ty.isVector = true → R.ExactAt s source.location)
    (held : ∀ r, source.location = .indirectRegister r → K r)
    (soft : dest.ty.isVector = true → ∀ r, dest.location = .indirectRegister r → R.Shows s (R.Soft r))
    (next : ∀ t rs, R.Course K s t rs [] →
      (dest.ty.isVector = true → ∀ r, dest.location = .indirectRegister r → R.Shows t (R.Exact r)) →
      Results (k ()) t Q) :
    Results (do
      let current ← materialize { location := dest.location, ty := dest.ty }
      let ty := dest.ty.arith source.ty
      let result ← place ty
      binary op result ty current source
      let done ← store dest.location dest.ty { location := result, ty }
      k done : Lower Unit) s Q := by
  refine (materialize_results (v := { location := dest.location, ty := dest.ty }) poise stands.fits
    fun _ _ _ => rfl).bind fun current t₁ copied => ?_
  obtain ⟨rs₁, course₁⟩ := copied.course
  have poise₁ := poise.course course₁.toPath
  refine (place_results poise₁.ready (dest.ty.arith source.ty)).bind fun result t₂ placed => ?_
  have poise₂ := poise₁.course placed.course.toPath
  have course₂ := course₁.trans placed.course
  have value : R.Stands K t₂ true (dest.ty.arith source.ty) result := stands_placed placed poise₁.deep
  have writes := poise₂.writes value placed.places.isOperand
  have readsSource := reads.course poise.ready.fine course₂.toPath
  have exactSource (vector : source.ty.isVector = true) : R.ExactAt t₂ source.location := fun r eq =>
    placed.calm r (poise.ready.lt (held r eq)) (copied.calm r (poise.ready.lt (held r eq)) (exact vector r eq))
  -- A lane of a vector is read through a copy, and only then does the operand differ
  -- from the target.
  have currentTy : current.ty = dest.ty := by
    rcases copied.same with ⟨rfl, -⟩ | ⟨⟨i, j, lane⟩, float, -⟩
    · rfl
    · have fits := stands.fits
      rw [lane] at fits
      exact float.trans fits.1.symm
  have readsCurrent : R.Reads K t₂ current := by
    rcases copied.same with ⟨rfl, operand⟩ | ⟨-, float, -, -, operand, -, copy⟩
    · exact poise₂.reads (stands.course poise.ready course₂.toPath) operand
    · exact poise₂.reads (float ▸ copy.course poise₁.ready placed.course.toPath) operand
  rw [← currentTy] at joins writes
  have computed := binary_results poise₂.ready joins readsCurrent readsSource exactSource writes placed.places.direct
  rw [currentTy] at computed
  refine computed.bind fun _ t₃ ⟨course₃, _⟩ => ?_
  have poise₃ := poise₂.course course₃.toPath
  have course := course₂.step course₃
  refine (storeTarget_results (v := { location := result, ty := dest.ty.arith source.ty }) poise₃ assignable
    (poise₃.reads (value.course poise₂.ready course₃.toPath) placed.places.isOperand)
    (stands.course poise.ready course.toPath) (fun r _ => placed.places.direct r)
    fun vector r eq => course.soft r (stands.held r eq).1 (soft vector r eq)).bind
    fun _ t₄ ⟨course₄, exact₄⟩ => next t₄ _ (course.step course₄) exact₄

/-- **An assignment is lowered**, for the place it assigns to. -/
theorem assignValue_gives {op : Option BinaryOp} {target value : Lower Value} {t v : Expr}
    (assigns : Parser.assigns op t.ty v.ty = true) (p : Position) (ht : R.GivesFrom d f true false target t)
    (hv : R.GivesFrom d f false true value v) :
    R.GivesFrom d f true false (assignValue op t.ty v.ty target value) (.assign op t v t.ty p) := by
  intro K s poise
  have valued : t.ty ≠ .void ∧ v.ty ≠ .void := by
    revert assigns
    generalize t.ty = a, v.ty = b
    cases op with
    | none => cases a <;> cases b <;> decide
    | some op => cases op <;> cases a <;> cases b <;> decide
  refine (ht K s poise).bind fun dest t₁ g₁ => ?_
  obtain ⟨rs₁, course₁⟩ := g₁.course
  have poise₁ := poise.join course₁.toPath g₁.leased
  refine (inScope_results (P := fun _ u => t.ty.isVector = true → ∀ r, dest.location = .indirectRegister r →
    R.Shows u (R.Exact r)) poise₁.ready ?_).bind ?_
  · refine (hv _ _ poise₁.opened).bind fun source t₂ g₂ => ?_
    obtain ⟨rs₂, course₂⟩ := g₂.course
    have poise₂ := poise₁.opened.join course₂.toPath g₂.leased
    have reads := poise₂.reads (g₂.stands valued.2) (g₂.operand rfl valued.2)
    have stands : R.Stands (With (With K dest) source) t₂ true t.ty dest.location := by
      have := (g₁.stands valued.1).opened.course poise₁.opened.ready course₂.toPath
      rw [g₁.ty] at this
      exact this.weaken fun _ h => .inl h
    have soft (vector : t.ty.isVector = true) (r : Nat) (eq : dest.location = .indirectRegister r) :
        R.Shows t₂ (R.Soft r) := by
      have exact := g₁.exact (g₁.ty ▸ vector) r eq
      exact course₂.soft r (.inr eq) (shows_opened.2 (exact.mono fun a b h high => .inl (h high)))
    -- the value is behind another address than the target
    have other (r : Nat) (eq : dest.location = .indirectRegister r) :
        source.location ≠ .indirectRegister r ∧ ∀ x ∈ source.lease, x.location ≠ .register r := by
      have apart : ∀ x ∈ source.lease, x.location ≠ .register r := fun x hx register =>
        poise₁.opened.ready.fresh course₂.toPath hx register (.inr eq)
      refine ⟨fun same => ?_, apart⟩
      rcases g₂.leased with ⟨-, direct⟩ | ⟨x, i, lease, register, location⟩
      · exact direct r same
      · rw [location] at same
        cases same
        exact apart x lease register
    have ending {t₃ : LoweringState} {rs : List Location}
        (course : R.Course (With K dest) (opened t₁) t₃ rs source.lease.toList)
        (exact : t.ty.isVector = true → ∀ r, dest.location = .indirectRegister r → R.Shows t₃ (R.Exact r)) :
        Results (finish source) t₃ fun _ u => (∃ rs, R.Course (With K dest) (opened t₁) u rs []) ∧
          (t.ty.isVector = true → ∀ r, dest.location = .indirectRegister r → R.Shows u (R.Exact r)) := by
      have course : R.Course (With K dest) (opened t₁) t₃ rs ([] ++ source.lease.toList) := course
      refine (finish_results course poise₁.opened.ready).mono ?_
      rintro _ u ⟨course, keeps⟩
      exact ⟨⟨rs, course⟩, fun vector r eq =>
        keeps r (poise₁.ready.lt (.inr eq)) (other r eq).2 (exact vector r eq)⟩
    cases op with
    | none =>
      have fits : t.ty.assignable source.ty = true := by
        rw [g₂.ty]
        exact assigns
      refine (storeTarget_results poise₂ fits reads stands (fun r eq => (other r eq).1) soft).bind ?_
      rintro _ t₃ ⟨course₃, exact₃⟩
      exact ending (course₂.step (course₃.weaken fun _ h => .inl h)) exact₃
    | some op =>
      simp only [Parser.assigns, Bool.and_eq_true] at assigns
      rw [← g₁.ty, ← g₂.ty] at assigns
      rw [← g₁.ty] at stands soft ending ⊢
      rw [← g₂.ty]
      refine combine_results poise₂ assigns.1 assigns.2 stands reads g₂.exact
        (fun r eq => .inr eq) soft fun t₃ rs course₃ exact₃ => ?_
      have course := course₂.trans (course₃.weaken fun _ h => .inl h)
      rw [List.append_nil] at course
      exact ending course exact₃
  rintro _ t₂ ⟨t₂', course₂, closes, -, exact₂⟩
  have gives {t₃ : LoweringState} (course₃ : R.Course (With K dest) t₁ t₃ [] [])
      (exact : t.ty.isVector = true → ∀ r, dest.location = .indirectRegister r → R.Shows t₃ (R.Exact r)) :
      R.Gives K s t₃ true false (.assign op t v t.ty p) { dest with writeBack := none } :=
    { course := ⟨rs₁, course₁.step (course₃.weaken fun _ h => .inl h)⟩
      ty := g₁.ty
      leased := g₁.leased
      empty := fun empty => absurd empty (g₁.ty ▸ (g₁.stands valued.1).storage)
      stands := fun _ => (g₁.stands valued.1).course poise₁.ready course₃.toPath
      operand := by rintro ⟨⟩
      exact := fun vector => exact (g₁.ty ▸ vector)
      writeBack := by rintro _ ⟨⟩ }
  have closed (vector : t.ty.isVector = true) (r : Nat) (eq : dest.location = .indirectRegister r) :
      R.Shows t₂ (R.Exact r) := closes.shows (exact₂ vector r eq)
  dsimp only
  split
  · next back some =>
    obtain ⟨⟨id, pool, register⟩, o, ty, spill, size, stands⟩ := g₁.writeBack back some
    have ready₂ := course₂.ready poise₁.ready
    have stands := (stands.weaken fun _ h => .inl h : R.Stands (With K dest) t₁ false ty back.spill).course
      poise₁.ready course₂.toPath
    have poise₂ := poise₁.course course₂.toPath
    have input : R.Input (With K dest) t₂ .simd 4 (back.spill.offsetBy 0) :=
      stands.input ready₂.fine (by rw [spill]; rfl) (by omega) (fun _ => ⟨by omega, rfl⟩) (poise₂.knows _ _)
    rw [offsetBy_zero] at input
    rw [register]
    refine (fetch_results ready₂ .packed pool input.source).bind fun _ t₃ emits => ?_
    refine .pure (gives (course₂.step emits.course) fun vector r eq => ?_)
    exact emits.exact r (poise₁.ready.lt (.inr eq)) (fun h => by cases h.1) (closed vector r eq)
  · exact .pure (gives course₂ closed)

/-- **A place is lowered for its value**: its lane, if it is one, is
copied. -/
theorem materialize_gives {action : Lower Value} {w : Bool} (valued : e.ty ≠ .void)
    (less : b = true → w = true) (he : R.GivesFrom d f w false action e) :
    R.GivesFrom d f b whole (do materialize (← action)) e := by
  intro K s poise
  refine (he K s poise).bind fun v t g => ?_
  obtain ⟨rs, course⟩ := g.course
  have poise₁ := poise.join course.toPath g.leased
  have stands : R.Stands (With K v) t b v.ty v.location := by
    have stands := g.stands valued
    cases b
    · exact stands.read
    · exact less rfl ▸ stands
  have lane : ∀ i k, v.location = .registerLane i k → v.lease = none := fun i k same =>
    g.leased.unleased (by simp [same])
  refine (materialize_results poise₁ stands.fits lane).mono fun w u copied => ?_
  obtain ⟨rs', course'⟩ := copied.course
  have course₂ := course.trans (course'.weaken fun _ h => .inl h)
  rcases copied.same with ⟨rfl, operand⟩ | ⟨⟨i, k, eq⟩, float, lease, back, operand, direct, copy⟩
  · exact
      { course := ⟨rs ++ rs', by simpa using course₂⟩
        ty := g.ty
        leased := g.leased
        empty := fun empty => absurd empty (g.ty ▸ stands.storage)
        stands := fun _ => stands.course poise₁.ready course'.toPath
        operand := fun _ _ => operand
        exact := fun vector r eq => copied.calm r (poise₁.ready.lt (.inr eq)) (g.exact vector r eq)
        writeBack := fun b hb => by
          obtain ⟨register, o, ty, spill, size, stands⟩ := g.writeBack b hb
          exact ⟨register, o, ty, spill, size, stands.course (course.ready poise.ready)
            (course'.toPath.weaken fun _ h => .inl h)⟩ }
  -- A lane is copied to a place of its own, which is no address and holds no lease.
  · have none := lane i k eq
    have before : ∀ r, With K v r → K r := with_direct fun r same => by
      rw [eq] at same
      cases same
    have ty : w.ty = v.ty := by
      have fits := stands.fits
      rw [eq] at fits
      exact float.trans fits.1.symm
    have copy : R.Stands (With K w) u b w.ty w.location := by
      rw [float]
      have held (r : Nat) (h : With K v r) : With K w r := .inl (before r h)
      have := copy.weaken held
      cases b
      · exact this.read
      · exact this
    exact
      { course := ⟨rs ++ rs', by rw [none] at course₂; rw [lease]; exact course₂⟩
        ty := ty.trans g.ty
        leased := .inl ⟨lease, direct⟩
        empty := fun empty => absurd empty (g.ty ▸ stands.storage)
        stands := fun _ => copy
        operand := fun _ _ => operand
        exact := fun _ r same => absurd same (direct r)
        writeBack := fun b hb => by rw [back] at hb; cases hb }

end Lower

end Shading
