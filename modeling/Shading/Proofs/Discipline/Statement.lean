import Shading.Lowering.Statement
import Shading.Proofs.Discipline.Expression

/-!
# Statements along a course

A statement leaves nothing behind but code. A jump forward is sought until
its label is bound, so what holds in front of a choice holds behind it,
whichever branch has been run.
-/

namespace Shading

open LoweringState Regime

namespace Lower

variable {R : Regime} {K : Nat → Prop} {s₀ s t u : LoweringState} {registers : List Location}
  {held : List Lease} {d : Declarations} {f : Option FunctionId} {lhs rhs : Value} {e : Expr}

/-! ## Conditions -/

/-- **Comparing integers**, of which one is fetched if both are in
memory. -/
theorem compareInts_results (poise : R.Poise K d f s) (left : R.Input K s .general 1 lhs.location)
    (right : R.Input K s .general 1 rhs.location) :
    Results (compareInts lhs rhs) s fun _ t => R.Course K s t [] [] := by
  have ready := poise.ready
  have known (u : LoweringState) (q : Nat) : R.Known u (.general q) := poise.identical.known _
  unfold compareInts
  rcases left.source.cases with ⟨register, id, pool, eq⟩ | ⟨memory, -⟩
  · rw [if_pos register, eq]
    exact (cmpLoad_results ready pool (known _ _) right.source).mono fun _ _ emits => emits.course
  rw [if_neg (by rw [memory]; decide)]
  rcases right.source.cases with ⟨register, id, pool, eq⟩ | ⟨memory', -⟩
  · rw [if_pos register, eq]
    exact (cmpStore_results ready pool (known _ _) left.source).mono fun _ _ emits => emits.course
  rw [if_neg (by rw [memory']; decide)]
  refine (acquire_results ready .general _).bind fun x t ⟨course, _, id, grants⟩ => ?_
  have location : x.location = RegisterClass.general.location id := grants.location
  have left := left.course ready.fine course.toPath
  have right := right.course ready.fine course.toPath
  have ready₁ := course.ready ready
  rw [location]
  refine (fetch_results ready₁ .dword grants.pool left.source).bind fun _ t₁ e₁ => ?_
  have right := right.course ready₁.fine e₁.course.toPath
  have ready₂ := e₁.course.ready ready₁
  refine (cmpLoad_results ready₂ grants.pool (known _ _) right.source).bind fun _ t₂ e₂ => ?_
  have all : R.Course K s t₂ [] [x] := (course.step e₁.course).step e₂.course
  exact (release_results all ready (by simp)).mono fun _ _ h => by simpa using h.1

/-- Comparing a register with a number as floats, and handing back what was
taken on the way. -/
theorem compareRegister_results (poise : R.Poise K d f s) (right : rhs.ty.isScalar = true)
    (reads : R.Reads K s rhs) {id : Nat} {avoid : List Location} (lease : Option Lease)
    (pool : id ∈ RegisterClass.simd.pool) (during : R.During K .simd s t ([] ++ lease.toList))
    (named : ∀ x ∈ lease, ∃ i, x.location = .simdRegister i) : Results (do
      let (right, rightLease) ← floatOperand rhs avoid
      emit .comiss (.simdRegister id) right
      releaseOption rightLease
      releaseOption lease : Lower Unit) t fun _ u => R.Course K s u [] [] := by
  have ready := poise.ready
  have reads := reads.course ready.fine during.course.toPath
  refine (floatOperand_results during ready right reads _).bind ?_
  rintro ⟨l, rightLease⟩ t₁ ⟨during₁, -, input, apart⟩
  refine (comiss_results (during₁.ready ready) pool (poise.identical.known _) input.source).bind
    fun _ t₂ e₂ => ?_
  have during₂ := during₁.emits e₂.toDoes (by rintro _ ⟨⟩)
  refine (during_releaseOption during₂ ready fun x hx => (apart x hx).imp fun _ h => h.1).bind ?_
  rintro _ t₃ ⟨during₃, -⟩
  exact (during_releaseOption during₃ ready named).mono fun _ _ h => h.1.course

/-- **Comparing numbers as floats**. -/
theorem compareFloats_results (poise : R.Poise K d f s) (left : lhs.ty.isScalar = true)
    (right : rhs.ty.isScalar = true) (readsL : R.Reads K s lhs) (readsR : R.Reads K s rhs) :
    Results (compareFloats lhs rhs) s fun _ t => R.Course K s t [] [] := by
  have ready := poise.ready
  unfold compareFloats
  dsimp only
  split
  · next own =>
    have input := readsL.whole .simd (by rw [own.1]; rfl)
    rcases input.source.cases with ⟨-, id, pool, eq⟩ | ⟨memory, -⟩
    · rw [show lhs.location = .simdRegister id from eq]
      exact compareRegister_results poise right readsR none pool (.start ready) (by rintro _ ⟨⟩)
    · rw [own.2] at memory
      cases memory
  · refine (during_acquire (c := .simd) (.start ready) ready _).bind ?_
    rintro x t ⟨during, -, id, grants⟩
    have location : x.location = .simdRegister id := grants.location
    have reads := readsL.course ready.fine during.course.toPath
    rw [location]
    refine (storeFloat_results (during.ready ready) grants.pool left reads).bind fun _ t₁ e₁ => ?_
    refine compareRegister_results poise right readsR (some x) grants.pool
      (during.emits e₁ (by rintro _ ⟨⟩)) fun y hy => ?_
    cases hy
    exact ⟨id, location⟩

/-- Storing a value without storage anywhere fails. -/
theorem storeEmpty_results {Q : Unit → LoweringState → Prop} {id : Nat} (empty : lhs.location = .none)
    (kind : lhs.ty = .void ∨ lhs.ty = .function) : Results (store (.simdRegister id) .float lhs) s Q := by
  obtain ⟨location, ty, lease, back⟩ := lhs
  obtain rfl : location = .none := empty
  rcases kind with rfl | rfl <;> exact fun _ _ run => by cases run

/-- **Two values are compared**, or refused for their types. -/
theorem compare_results (poise : R.Poise K d f s) {op : RelationalOp}
    (compares : Parser.compares op lhs.ty rhs.ty = true)
    (empty : lhs.ty.size = 0 → lhs.location = .none)
    (readsL : lhs.ty.size ≠ 0 → R.Reads K s lhs) (readsR : rhs.ty.size ≠ 0 → R.Reads K s rhs) :
    Results (compare op lhs rhs) s fun _ t => R.Course K s t [] [] := by
  unfold compare
  split
  · exact fail_results _
  next vectors =>
  have kinds : (lhs.ty.isScalar = true ∧ rhs.ty.isScalar = true) ∨ (lhs.ty = .bool ∧ rhs.ty = .bool) ∨
      (lhs.ty.size = 0 ∧ (lhs.ty = .void ∨ lhs.ty = .function)) := by
    revert compares vectors
    generalize lhs.ty = a, rhs.ty = b
    cases op <;> cases a <;> cases b <;> decide
  split
  · next integral =>
    have integral : lhs.ty.isIntegral = true ∧ rhs.ty.isIntegral = true := by simpa using integral
    have word {v : Value} (h : v.ty.isIntegral = true) (reads : v.ty.size ≠ 0 → R.Reads K s v) :
        R.Input K s .general 1 v.location := by
      have facts : v.ty.size ≠ 0 ∧ RegisterClass.ofTy? v.ty = some .general ∧ v.ty.size / 4 = 1 := by
        revert h
        cases v.ty <;> decide
      have input := (reads facts.1).whole .general facts.2.1
      rwa [facts.2.2] at input
    exact (compareInts_results poise (word integral.1 readsL) (word integral.2 readsR)).bind
      fun _ t course => .pure course
  · next integral =>
    rcases kinds with ⟨left, right⟩ | ⟨left, right⟩ | ⟨none, kind⟩
    · have storage {ty : Ty} (h : ty.isScalar = true) : ty.size ≠ 0 := by
        revert h
        cases ty <;> decide
      exact (compareFloats_results poise left right (readsL (storage left)) (readsR (storage right))).bind
        fun _ t course => .pure course
    · rw [left, right] at integral
      exact absurd rfl integral
    · refine Results.bind (Q := fun _ _ => False) ?_ fun _ _ h => h.elim
      unfold compareFloats
      dsimp only
      rw [if_neg fun own => by rw [own.1] at none; cases none]
      refine (acquire_results poise.ready .simd _).bind fun x t ⟨_, _, id, grants⟩ => ?_
      rw [show x.location = .simdRegister id from grants.location]
      exact (storeEmpty_results (empty none) kind).bind fun _ _ h => h

/-- **A condition is evaluated.** -/
theorem conditionJump_results (sound : d.Sound) {c : Expr} (poise : R.Poise K d f s) (typed : c.Typed d f)
    (truth : c.ty = .bool) (assigned : ∀ id ∈ c.assigned, R.assigned id) :
    Results (conditionJump c) s fun _ t => ∃ rs, R.Course K s t rs [] := by
  -- A condition that is no comparison is evaluated and compared with zero.
  have whole (e : Expr) (typed : e.Typed d f) (truth : e.ty = .bool)
      (assigned : ∀ id ∈ e.assigned, R.assigned id) : Results (do
        let v ← value e
        emitUnary .cmpImm8 v.location [0]
        finish v
        return Condition.equal) s fun _ t => ∃ rs, R.Course K s t rs [] := by
    refine (value_gives sound typed assigned K s poise).bind fun v t g => ?_
    obtain ⟨rs, course⟩ := g.course
    have poise₁ := poise.join course.toPath g.leased
    have valued : e.ty ≠ .void := by rw [truth]; decide
    have input := (poise₁.reads (g.stands valued) (g.operand rfl valued)).whole .general
      (by rw [g.ty, truth]; rfl)
    rw [g.ty, truth] at input
    refine (cmpImm8_results poise₁.ready 0 input.source).bind fun _ t₁ e₁ => ?_
    have all : R.Course K s t₁ rs ([] ++ v.lease.toList) := course.step (e₁.course.weaken fun _ h => .inl h)
    exact (finish_results all poise.ready).bind fun _ t₂ h => .pure ⟨rs, h.1⟩
  rw [conditionJump_def]
  cases c with
  | relational op l r ty p =>
    cases typed with
    | relational _ hl hr compares =>
      simp only [Expr.assigned, List.mem_append] at assigned
      refine (value_gives sound hl (fun id h => assigned id (.inl h)) K s poise).bind fun v t₁ g₁ => ?_
      obtain ⟨rs₁, course₁⟩ := g₁.course
      have poise₁ := poise.join course₁.toPath g₁.leased
      refine (value_gives sound hr (fun id h => assigned id (.inr h)) _ t₁ poise₁).bind fun w t₂ g₂ => ?_
      obtain ⟨rs₂, course₂⟩ := g₂.course
      have poise₂ := poise₁.join course₂.toPath g₂.leased
      have valued {e : Expr} (h : e.ty.size ≠ 0) : e.ty ≠ .void := fun void => h (by rw [void]; rfl)
      have readsV (h : v.ty.size ≠ 0) : R.Reads (With (With K v) w) t₂ v := by
        rw [g₁.ty] at h
        have stands := (g₁.stands (valued h)).course poise₁.ready course₂.toPath
        exact poise₂.reads (stands.weaken fun _ h => .inl h) (g₁.operand rfl (valued h))
      have readsW (h : w.ty.size ≠ 0) : R.Reads (With (With K v) w) t₂ w := by
        rw [g₂.ty] at h
        exact poise₂.reads (g₂.stands (valued h)) (g₂.operand rfl (valued h))
      rw [← g₁.ty, ← g₂.ty] at compares
      refine (compare_results poise₂ (RelationalOp.compares_iff.1 compares) (fun h => g₁.empty (g₁.ty ▸ h)) readsV readsW).bind
        fun k t₃ course₃ => ?_
      have all := (course₁.trans (course₂.weaken fun _ h => .inl h)).step
        (course₃.weaken fun _ h => .inl (.inl h))
      refine (finish_results all poise.ready).bind fun _ t₄ h₄ => ?_
      have all : R.Course K s t₄ (rs₁ ++ rs₂) ([] ++ v.lease.toList) := h₄.1
      exact (finish_results all poise.ready).bind fun _ t₅ h₅ => .pure ⟨_, h₅.1⟩
  | _ => exact whole _ typed truth assigned

/-- What a scope that closes shows is what it showed before. -/
theorem shows_closed {rs : List Location} {P : Machine → Machine → Prop} (shows_ : R.Shows (closed s t rs) P) : R.Shows t P := by
  have closes := closes_closed (R := R) s t rs
  refine fun covers a b reaches => shows_ ⟨covers.fits, covers.constants, fun c hc => ?_, ?_, ?_⟩ a b
    ((Rests.reaches closes.rests).2 reaches)
  all_goals have regions := Layout.foldl_giveBack_unchanged t.layout rs
  · have global : (closed s t rs).layout.globalRegion = t.layout.globalRegion := regions.2.2
    have := covers.later c hc
    rwa [globalTop, ← global] at this
  · have global : (closed s t rs).layout.globalRegion = t.layout.globalRegion := regions.2.2
    rw [Layout.globalSize, global]
    exact covers.globalSize
  · have high : (closed s t rs).layout.localRegion.highWater = t.layout.localRegion.highWater := by
      change (rs.foldl Layout.giveBack t.layout).localRegion.highWater = _
      rw [regions.2.1]
    rw [Layout.localSize, high]
    exact covers.localSize

/-- **A course that leaves local memory as it was.** -/
structure Restores (R : Regime) (K : Nat → Prop) (s t : LoweringState) : Prop
    extends R.Course K s t [] [] where
  top : t.localTop = s.localTop

theorem Restores.refl (fine : R.Fine s) : Restores R K s s := ⟨.refl fine, rfl⟩

theorem Restores.trans (h : Restores R K s t) (h' : Restores R K t u) : Restores R K s u :=
  ⟨h.toCourse.step h'.toCourse, h'.top.trans h.top⟩

/-- **A label is open** at a state: the jump to it stands behind `s`, and
what was known in front of the jump, which is as at `v`, is known where the
label will be bound. -/
structure Awaits (R : Regime) (K : Nat → Prop) (s t : LoweringState) (form : JumpForm) (l : Nat)
    (labels : List Nat) : Prop where
  path : R.Path K s t [] []
  top : t.localTop = s.localTop
  young : s.assembly.labels < l
  old : l ≤ t.assembly.labels
  isOpen : t.assembly.Open form l
  pending : s.Pending t labels
  front : ∃ v, R.Path K s v [] [] ∧ ∀ P, R.Shows v P → R.Sought t l P

theorem Awaits.course {form : JumpForm} {l : Nat} {labels : List Nat} (h : Awaits R K s t form l labels)
    (course : Restores R K t u) : Awaits R K s u form l labels where
  path := h.path.step course.toPath
  top := course.top.trans h.top
  young := h.young
  old := Nat.le_trans h.old course.leads.assembly.labels
  isOpen := h.isOpen.leads h.path.fine.ok.assembly course.leads.assembly
  pending := h.pending.course course.toCourse
  front := by
    obtain ⟨v, path, arrive⟩ := h.front
    exact ⟨v, path, fun P shows_ => course.toPath.sought h.old (arrive P shows_)⟩

/-- The label is bound, and nothing else is pending. -/
theorem Awaits.bind {form : JumpForm} {l : Nat} (h : Awaits R K s t form l [l]) (ok : s.Ok) :
    Results (bindLabel l) t fun _ u => Restores R K s u := by
  obtain ⟨v, path, arrive⟩ := h.front
  exact (bindLabel_results h.path path arrive h.isOpen h.young ok).mono
    fun _ u ⟨path, marks⟩ => ⟨path.course (marks.pending s [] h.pending),
      (congrArg (fun l => l.localRegion.top) marks.layout).trans h.top⟩

/-- **A jump past a body is emitted**, and its label stays open. -/
theorem condition_results (sound : d.Sound) {c : Expr} (footing : R.Footing K d f s) (typed : c.Typed d f)
    (truth : c.ty = .bool) (assigned : ∀ id ∈ c.assigned, R.assigned id) :
    Results (condition c) s fun l t => ∃ k, Awaits R K s t (.when k) l [l] := by
  rw [condition_eq]
  refine (inScope_path (P := fun l t => ∃ k rs v, R.Course K (opened s) v rs [] ∧ Jumps R K v t (.when k) l)
    footing.ready ?_).mono ?_
  · refine (conditionJump_results sound footing.opened typed truth assigned).bind ?_
    rintro k v ⟨rs, course⟩
    refine (emitJump_results (course.ready footing.opened.ready) (.when k) (.inr (footing.identical.known _))).mono
      fun l t jumps => ?_
    exact ⟨⟨rs, by simpa using course.toPath.trans jumps.path⟩, k, rs, v, course, jumps⟩
  · rintro l u ⟨t, path, closes, top, k, rs, v, course, jumps⟩
    have assembly : u.assembly = t.assembly := closes.rests.assembly
    have later : t.assembly.labels = l := by rw [jumps.state]; rfl
    refine ⟨k, path, top, ?_, ?_, ?_, ?_, closed s v rs, path_closed footing.ready course.toPath, fun P shows_ => ?_⟩
    · rw [jumps.label]
      exact Nat.lt_succ_of_le course.leads.assembly.labels
    · exact Nat.le_of_eq (by rw [assembly, later])
    · rw [assembly]
      exact jumps.isOpen
    · have start : (opened s).Pending v [] := course.pending
      have next := start.jump (.when k)
      rw [← jumps.label, ← jumps.state] at next
      intro l' young jump
      rw [assembly] at jump ⊢
      exact next l' young jump
    · exact Rests.sought closes.rests closes.covers (jumps.arrives P (shows_closed shows_))

/-! ## Statements -/

/-- A scope that is left as it was entered restores the state in front of
it. -/
theorem inScope_restores {α : Type} {action : Lower α} (ready : R.Ready K s)
    (inner : Results action (opened s) fun _ t => ∃ rs, R.Course K (opened s) t rs []) :
    Results (inScope action) s fun _ t => Restores R K s t := by
  refine (inScope_results (P := fun _ _ => True) ready (inner.mono fun _ _ h => ⟨h, trivial⟩)).mono ?_
  rintro _ _ ⟨_, course, -, top, -⟩
  exact ⟨course, top⟩

/-- **An expression is evaluated for its effect.** -/
theorem effect_results (sound : d.Sound) (footing : R.Footing K d f s) (typed : e.Typed d f)
    (assigned : ∀ id ∈ e.assigned, R.assigned id) :
    Results (effect e) s fun _ t => Restores R K s t := by
  rw [effect_eq]
  refine inScope_restores footing.ready ?_
  refine (value_gives sound typed assigned K _ footing.opened).bind fun v t g => ?_
  obtain ⟨rs, course⟩ := g.course
  have course : R.Course K (opened s) t rs ([] ++ v.lease.toList) := course
  exact (finish_results course footing.opened.ready).mono fun _ _ h => ⟨rs, h.1⟩

/-- **A local is given its first value.** -/
theorem initialise_results (sound : d.Sound) {g : FunctionId} {id : SymbolId}
    (footing : R.Footing K d (some g) s) (isLocal : d.IsVariableOf g id) (typed : e.Typed d (some g))
    (stores : (d.symbolTy id).Stores e.ty) (assigned : ∀ x ∈ e.assigned, R.assigned x)
    (writable : R.assigned id) : Results (initialise id e) s fun _ t => Restores R K s t := by
  obtain ⟨v, found, kind, scope, owner, storage⟩ := isLocal
  obtain ⟨l, known⟩ := footing.houses.symbols id v found
  have visible : v.VisibleIn (some g) := .inr ⟨scope, owner, rfl⟩
  obtain ⟨home, fits, kept⟩ := footing.houses.homes id _ ⟨v, found, kind, visible⟩ known
  have stands := variable_stands footing known kind visible ⟨home, fits, kept⟩ (b := true) fun _ => writable
  rw [Declarations.symbolTy_of_get? found] at stores
  have valued := stores.notVoid.2
  rw [initialise_eq]
  refine .bindGet ?_
  rw [known]
  refine inScope_restores footing.ready ?_
  refine (value_gives sound typed assigned K _ footing.opened).bind fun w t g => ?_
  obtain ⟨rs, course⟩ := g.course
  have footing₁ := footing.opened.join course.toPath g.leased
  have there := (stands.opened.course footing.opened.ready course.toPath).weaken
    (fun _ h => .inl h : ∀ r, K r → With K w r)
  refine (storeTarget_results footing₁ (g.ty ▸ Ty.stores_iff.1 stores) (footing₁.reads (g.stands valued) (g.operand rfl valued))
    there (fun r eq => ?_) fun _ r eq => ?_).bind fun _ t₁ stored => ?_
  · rw [show l = _ from eq] at home
    exact home.elim
  · rw [show l = _ from eq] at home
    exact home.elim
  · have course : R.Course K (opened s) t₁ rs ([] ++ w.lease.toList) :=
      course.step (stored.1.weaken fun _ h => .inl h)
    exact (finish_results course footing.opened.ready).mono fun _ _ h => ⟨rs, h.1⟩

/-- **The other branch of a choice** starts behind the body, which jumps over
it. -/
theorem alternative_enters {k : Condition} {skip stop : Nat} {t₁ t₂ : LoweringState}
    (footing : R.Footing K d f s) (awaits : Awaits R K s t (.when k) skip [skip])
    (jump : emitJump .always t = .ok (stop, t₁)) (bind : bindLabel skip t₁ = .ok ((), t₂)) :
    R.Footing K d f t₂ ∧ Awaits R K s t₂ .always stop [stop] := by
  have ok := footing.ready.fine.ok
  have ready := awaits.path.ready footing.ready
  have jumps := emitJump_results ready .always (.inl rfl) _ _ jump
  obtain ⟨v, front, arrive⟩ := awaits.front
  have path₁ := awaits.path.step jumps.path
  have older := awaits.old
  have other : stop ≠ skip := by
    rw [jumps.label]
    omega
  have labels₁ : t₁.assembly.labels = stop := by rw [jumps.state]; rfl
  obtain ⟨path₂, marks⟩ := bindLabel_results path₁ front
    (fun P shows_ => jumps.path.sought older (arrive P shows_))
    (awaits.isOpen.leads ready.fine.ok.assembly jumps.path.leads.assembly) awaits.young ok _ _ bind
  have pending : s.Pending t₂ [stop] := by
    refine marks.pending s [stop] ?_
    have next := awaits.pending.jump .always
    rw [← jumps.label, ← jumps.state] at next
    exact fun l young jump => (next l young jump).imp id fun mem => by
      simp only [List.mem_cons, List.not_mem_nil, or_false] at mem ⊢
      exact mem.symm
  exact ⟨footing.course path₂,
    { path := path₂
      young := by
        have := awaits.path.leads.assembly.labels
        rw [jumps.label]
        omega
      old := Nat.le_of_eq (by rw [marks.labels, labels₁])
      isOpen := marks.isOpen .always stop other jumps.isOpen
      pending := pending
      top := by
        rw [localTop, marks.layout, jumps.state]
        exact awaits.top
      front := ⟨t, awaits.path, fun P shows_ => marks.sought stop P other (jumps.arrives P shows_)⟩ }⟩

/-- **The other branch of a choice** is jumped over behind the body, and
reached where the condition fails. -/
theorem alternative_results {body : Lower Unit} {k : Condition} {skip : Nat} (footing : R.Footing K d f s)
    (awaits : Awaits R K s t (.when k) skip [skip])
    (hb : ∀ u : LoweringState, R.Footing K d f u → Results body u fun _ v => Restores R K u v) :
    Results (do
      let stop ← emitJump .always
      bindLabel skip
      body
      bindLabel stop : Lower Unit) t fun _ u => Restores R K s u := by
  intro _ u run
  obtain ⟨stop, t₁, jump, run₁⟩ := bind_eq_ok.1 run
  obtain ⟨_, t₂, bind, run₂⟩ := bind_eq_ok.1 run₁
  obtain ⟨_, t₃, branch, close⟩ := bind_eq_ok.1 run₂
  obtain ⟨footing₂, waits⟩ := alternative_enters footing awaits jump bind
  exact (waits.course (hb t₂ footing₂ _ _ branch)).bind footing.ready.fine.ok _ _ close

/-- **Returning**, with one machine and the other the same. -/
theorem return_results (footing : R.Footing K d f s) : Results emitReturn s fun _ t => Restores R K s t :=
  (emitReturn_results footing.ready fun covers a b reaches _ _ k _ =>
    footing.identical.known (.byte k) covers a b reaches).mono fun _ _ ⟨course, state, _⟩ =>
      ⟨course, by rw [state]; rfl⟩

mutual

/-- **A typed statement is lowered**, if it is lowered at all, and leaves
nothing behind. -/
theorem statement_results (sound : d.Sound) {g : FunctionId} :
    (st : Statement) → (s : LoweringState) → R.Footing K d (some g) s → st.Typed d g →
      (∀ id ∈ st.assigned, R.assigned id) → Results (statement st) s fun _ t => Restores R K s t
  | .localVariable v none => by
    intro s footing _ _
    unfold statement
    exact .pure (.refl footing.ready.fine)
  | .localVariable v (some e) => by
    intro s footing typed assigned
    obtain ⟨isLocal, typed, stores⟩ := typed
    simp only [Statement.assigned, Option.map_some, Option.getD_some, List.mem_cons] at assigned
    unfold statement
    exact initialise_results sound footing isLocal typed stores (fun id h => assigned id (.inr h))
      (assigned v (.inl rfl))
  | .expression e => by
    intro s footing typed assigned
    simp only [Statement.Typed] at typed
    simp only [Statement.assigned] at assigned
    unfold statement
    exact effect_results sound footing typed assigned
  | .branch c => by
    intro s footing typed assigned
    simp only [Statement.Typed] at typed
    simp only [Statement.assigned] at assigned
    unfold statement
    exact choice_results sound c s footing typed assigned
  | .whileLoop _ _ | .forLoop _ _ _ _ => by
    intro s _ _ _
    unfold statement
    exact fail_results _
  | .ret none => by
    intro s footing _ _
    unfold statement
    exact return_results footing
  | .ret (some e) => by
    intro s footing typed assigned
    simp only [Statement.Typed] at typed
    simp only [Statement.assigned, Option.map_some, Option.getD_some] at assigned
    unfold statement
    refine (effect_results sound footing typed.1 assigned).bind fun _ t course => ?_
    exact (return_results (footing.course course.toPath)).mono fun _ u h => course.trans h

/-- A typed choice is lowered. -/
theorem choice_results (sound : d.Sound) {g : FunctionId} :
    (st : IfStatement) → (s : LoweringState) → R.Footing K d (some g) s → st.Typed d g →
      (∀ id ∈ st.assigned, R.assigned id) → Results (choice st) s fun _ t => Restores R K s t
  | .mk c body otherwise => by
    intro s footing typed assigned
    simp only [IfStatement.Typed] at typed
    obtain ⟨typedC, truth, typedB, typedO⟩ := typed
    simp only [IfStatement.assigned, List.mem_append] at assigned
    unfold choice
    refine (condition_results sound footing typedC truth fun id h => assigned id (.inl (.inl h))).bind ?_
    rintro skip t₁ ⟨k, awaits⟩
    refine (statements_results sound body t₁ (footing.course awaits.path) typedB
      fun id h => assigned id (.inl (.inr h))).bind fun _ t₂ course => ?_
    exact branchOtherwise_results sound otherwise s t₂ footing (awaits.course course) typedO
      fun id h => assigned id (.inr h)

/-- What stands behind the body of a choice is lowered. -/
theorem branchOtherwise_results (sound : d.Sound) {g : FunctionId} :
    (st : ElseBranch) → (s t : LoweringState) → R.Footing K d (some g) s → {skip : Nat} → {k : Condition} →
      Awaits R K s t (.when k) skip [skip] → st.Typed d g → (∀ id ∈ st.assigned, R.assigned id) →
      Results (branchOtherwise skip st) t fun _ u => Restores R K s u
  | .none => by
    intro s t footing skip k awaits _ _
    unfold branchOtherwise
    exact awaits.bind footing.ready.fine.ok
  | .chain c => by
    intro s t footing skip k awaits typed assigned
    simp only [ElseBranch.Typed] at typed
    simp only [ElseBranch.assigned] at assigned
    unfold branchOtherwise
    exact alternative_results footing awaits fun u footing => choice_results sound c u footing typed assigned
  | .block body => by
    intro s t footing skip k awaits typed assigned
    simp only [ElseBranch.Typed] at typed
    simp only [ElseBranch.assigned] at assigned
    unfold branchOtherwise
    exact alternative_results footing awaits fun u footing => statements_results sound body u footing typed assigned

/-- Typed statements are lowered in order. -/
theorem statements_results (sound : d.Sound) {g : FunctionId} :
    (ss : List Statement) → (s : LoweringState) → R.Footing K d (some g) s → Statement.AllTyped d g ss →
      (∀ id ∈ Statement.allAssigned ss, R.assigned id) →
      Results (statements ss) s fun _ t => Restores R K s t
  | [] => by
    intro s footing _ _
    unfold statements
    exact .pure (.refl footing.ready.fine)
  | st :: ss => by
    intro s footing typed assigned
    simp only [Statement.AllTyped] at typed
    simp only [Statement.allAssigned, List.mem_append] at assigned
    unfold statements
    refine (statement_results sound st s footing typed.1 fun id h => assigned id (.inl h)).bind
      fun _ t course => ?_
    exact (statements_results sound ss t (footing.course course.toPath) typed.2
      fun id h => assigned id (.inr h)).mono fun _ u h => course.trans h

end

end Lower

end Shading
