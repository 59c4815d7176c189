import Shading.Proofs.Discipline.Scalars

/-!
# Intrinsic functions along a course

Dot products are computed in leased SSE registers. `clamp` jumps over the
instruction that takes a bound: what is known in front of the jump is
known behind its mark, and so is the first lane of the accumulator, which
both ways leave known.
-/

namespace Shading

open LoweringState Regime

namespace Lower

variable {R : Regime} {K : Nat → Prop} {s₀ s t u : LoweringState} {registers : List Location}
  {held : List Lease} {c d : RegisterClass} {n : Nat} {l dest src out : Location} {v lhs rhs : Value}

/-! ## Dot products -/

/-- **A dot product** of three lanes in a register. -/
theorem dotProduct_results (ready : R.Ready K s) {id : Nat} (pool : id ∈ RegisterClass.simd.pool)
    (left : R.Input K s .simd 4 src) {b : Option Location}
    (right : ∀ l ∈ b, R.Input K s .simd 4 l ∧ R.ExactAt s l) :
    Results (dotProduct (.simdRegister id) src b) s fun _ t =>
      R.Does K s t (fun _ => False) (RegisterClass.simd.parts id 4) := by
  unfold dotProduct
  refine (fetch_results ready .packed pool left.source).bind fun _ t₁ e₁ => ?_
  have during₁ := (During.start (c := .simd) ready).emits e₁.toDoes nofun
  have ready₁ := during₁.ready ready
  have row : R.Knows t₁ 4 (.simdRegister id) := fun p part => e₁.gains p part
  have factor : R.Source t₁ .simd 4 (b.getD (.simdRegister id)) ∧ R.ExactAt t₁ (b.getD (.simdRegister id)) := by
    cases b with
    | none => exact ⟨⟨.inl ⟨id, pool, rfl⟩, row⟩, exactAt_register id⟩
    | some l =>
      obtain ⟨input, exact⟩ := right l rfl
      exact ⟨(input.course ready.fine during₁.course.toPath).source, exactAt_during during₁ ready input exact⟩
  refine (packed_results ready₁ (o := .mulps) rfl pool row factor.1 factor.2).bind fun _ t₂ e₂ => ?_
  have during₂ := during₁.emits e₂.toDoes nofun
  refine (during_constant during₂ ready xyzMask).bind fun m t₃ ⟨during₃, course, source, exact, _⟩ => ?_
  have row : R.Input K t₂ .simd 4 (.simdRegister id) := .register pool (by decide) fun p part => e₂.gains p part
  have known := (row.course (during₂.ready ready).fine course.toPath).source.known
  refine (packed_results (during₃.ready ready) (o := .andps) rfl pool known source exact).bind
    fun _ t₄ e₄ => ?_
  have during₄ := during₃.emits e₄.toDoes nofun
  have sums {t : LoweringState} (during : R.During K .simd s t [])
      (known : R.Knows t 4 (.simdRegister id)) :
      Results (emit .haddps (.simdRegister id) (.simdRegister id)) t fun _ u =>
        R.During K .simd s u [] ∧ R.Knows u 4 (.simdRegister id) :=
    (packed_results (during.ready ready) (o := .haddps) rfl pool known ⟨.inl ⟨id, pool, rfl⟩, known⟩
      (exactAt_register id)).mono fun _ _ e => ⟨during.emits e.toDoes nofun, fun p part => e.gains p part⟩
  refine (sums during₄ fun p part => e₄.gains p part).bind fun _ t₅ ⟨during₅, known₅⟩ => ?_
  refine (sums during₅ known₅).mono fun _ t₆ ⟨during₆, known₆⟩ => ?_
  have done : R.Does K s t₆ _ (RegisterClass.simd.parts id 4) := during₆.done fun p part => known₆ p part
  exact done.mono nofun fun _ part => part

/-- A result that is stored from a leased register, which is given up. -/
theorem storeScratch_results (held : List Lease) (w : Width) (simd : w.registerClass = .simd) (ready : R.Ready K s)
    {x : Lease} (during : R.During K .simd s t (held ++ [x])) {id : Nat}
    (pool : id ∈ RegisterClass.simd.pool) (location : x.location = .simdRegister id)
    (output : R.Output K s .simd w.words out) (direct : ∀ r, out ≠ .indirectRegister r)
    (other : out ≠ .simdRegister id) (known : R.Knows t w.words (.simdRegister id)) :
    Results (do
      transfer w out (.simdRegister id)
      release x : Lower Unit) t fun _ u => R.During K .simd s u held ∧ R.Knows u w.words out := by
  have ready' := during.ready ready
  have four : 4 * w.words ≤ RegisterClass.simd.spillSize := by cases w <;> decide
  have sum : R.Input K t w.registerClass w.words (.simdRegister id) := by
    rw [simd]
    exact .register pool four known
  have target := output.course during.course.toPath ready
  refine (transfer_results ready' w sum (simd.symm ▸ target) other).bind fun _ t₁ moves => ?_
  rw [simd] at moves
  have during₁ := during.emits moves.emits nofun
  refine (during_releaseLast _ during₁ ready fun r eq => ?_).mono fun _ u ⟨during, rel⟩ =>
    ⟨during, rel.knows_output output direct (location ▸ other) (moves.knows direct)⟩
  rw [location] at eq
  cases eq

/-- The length of a vector. -/
theorem vectorLength_leaves (ready : R.Ready K s) (input : R.Input K s .simd 4 v.location)
    (output : R.Output K s .simd 1 out) (direct : ∀ r, out ≠ .indirectRegister r) :
    Results (vectorLength out v) s fun _ t => Leaves R K s t 1 out := by
  unfold vectorLength
  refine (during_acquire (c := .simd) (.start ready) ready _).bind fun x t₁ ⟨during₁, _, id, grants⟩ => ?_
  have path := during₁.course.toPath
  dsimp only
  rw [grants.location]
  refine (dotProduct_results (during₁.ready ready) grants.pool (input.course ready.fine path) (b := none)
    nofun).bind
    fun _ t₂ e₂ => ?_
  have during₂ := during₁.emits e₂ nofun
  have first : R.Knows t₂ 1 (.simdRegister id) := fun p part => e₂.gains p <| part.imp fun _ h =>
    ⟨Nat.lt_of_lt_of_le h.1 (by decide), h.2⟩
  refine (computes_results (during₂.ready ready) (o := .sqrtss) rfl grants.pool (knows_none _ rfl)
    ⟨.inl ⟨id, grants.pool, rfl⟩, first⟩ nofun fun _ h => by cases h).bind fun _ t₃ e₃ => ?_
  exact storeScratch_results [] .single rfl ready (during₂.emits e₃.toDoes fun _ h => by cases h.1)
    grants.pool grants.location output direct (ne_of_avoided grants.clear (by simp)) fun p part => e₃.gains p part

/-- The dot product of two vectors. -/
theorem dot3_leaves (ready : R.Ready K s) (left : R.Input K s .simd 4 lhs.location)
    (right : R.Input K s .simd 4 rhs.location) (exact : R.ExactAt s rhs.location)
    (output : R.Output K s .simd 1 out) (direct : ∀ r, out ≠ .indirectRegister r) :
    Results (dot3 out lhs rhs) s fun _ t => Leaves R K s t 1 out := by
  unfold dot3
  refine (during_acquire (c := .simd) (.start ready) ready _).bind fun x t₁ ⟨during₁, _, id, grants⟩ => ?_
  have path := during₁.course.toPath
  dsimp only
  rw [grants.location]
  refine (dotProduct_results (during₁.ready ready) grants.pool (left.course ready.fine path)
    (b := some rhs.location) fun l hl => ?_).bind fun _ t₂ e₂ => ?_
  · cases hl
    exact ⟨right.course ready.fine path, exactAt_during during₁ ready right exact⟩
  have first : R.Knows t₂ 1 (.simdRegister id) := fun p part => e₂.gains p <| part.imp fun _ h =>
    ⟨Nat.lt_of_lt_of_le h.1 (by decide), h.2⟩
  exact storeScratch_results [] .single rfl ready (during₁.emits e₂ nofun) grants.pool
    grants.location output direct (ne_of_avoided grants.clear (by simp)) first

/-- A vector of length one. -/
theorem normalize_leaves (ready : R.Ready K s) (input : R.Input K s .simd 4 v.location)
    (output : R.Output K s .simd 4 out) (direct : ∀ r, out ≠ .indirectRegister r) :
    Results (normalize out v) s fun _ t => Leaves R K s t 4 out := by
  unfold normalize
  refine (during_acquire (c := .simd) (.start ready) ready _).bind fun x t₁ ⟨during₁, _, a, grantsA⟩ => ?_
  refine (during_acquire during₁ ready _).bind fun y t₂ ⟨during₂, _, b, grantsB⟩ => ?_
  have ready₂ := during₂.ready ready
  dsimp only
  rw [grantsA.location, grantsB.location]
  refine (fetch_results ready₂ .packed grantsA.pool (input.course ready.fine during₂.course.toPath).source).bind
    fun _ t₃ e₃ => ?_
  have during₃ := during₂.emits e₃.toDoes nofun
  have ready₃ := during₃.ready ready
  have vector : R.Input K t₃ .simd 4 (.simdRegister a) :=
    .register grantsA.pool (by decide) fun p part => e₃.gains p part
  refine (dotProduct_results ready₃ grantsB.pool vector (b := none) nofun).bind fun _ t₄ e₄ => ?_
  have during₄ := during₃.emits e₄ nofun
  have ready₄ := during₄.ready ready
  have scale : R.Knows t₄ 4 (.simdRegister b) := fun p part => e₄.gains p part
  refine (computes_results ready₄ (o := .rsqrtps) rfl grantsB.pool (knows_none _ rfl)
    ⟨.inl ⟨b, grantsB.pool, rfl⟩, scale⟩ (fun _ => exactAt_register b) fun _ h => by cases h).bind
      fun _ t₅ e₅ => ?_
  have during₅ := during₄.emits e₅.toDoes fun _ h => by cases h.1
  have ready₅ := during₅.ready ready
  have vector := vector.course ready₃.fine (e₄.course.toPath.trans e₅.course.toPath)
  refine (packed_results ready₅ (o := .mulps) rfl grantsA.pool vector.source.known
    ⟨.inl ⟨b, grantsB.pool, rfl⟩, fun p part => e₅.gains p part⟩ (exactAt_register b)).bind fun _ t₆ e₆ => ?_
  have during₆ := during₅.emits e₆.toDoes nofun
  have ready₆ := during₆.ready ready
  have product : R.Input K t₆ .simd 4 (.simdRegister a) :=
    .register grantsA.pool (by decide) fun p part => e₆.gains p part
  have other : out ≠ .simdRegister a := ne_of_avoided grantsA.clear (by simp)
  refine (transfer_results ready₆ .packed product (output.course during₆.course.toPath ready) other).bind
    fun _ t₇ moves => ?_
  have during₇ := during₆.emits moves.emits nofun
  refine (during_releaseLast [x] during₇ ready fun r eq => ?_).bind fun _ t₈ ⟨during₈, rel⟩ => ?_
  · rw [grantsB.location] at eq
    cases eq
  have known := rel.knows_output output direct
    (grantsB.location ▸ ne_of_avoided grantsB.clear (by simp)) (moves.knows direct)
  refine (during_releaseLast [] during₈ ready fun r eq => ?_).mono fun _ t₉ ⟨during₉, rel⟩ =>
    ⟨during₉, rel.knows_output output direct (grantsA.location ▸ other) known⟩
  rw [grantsA.location] at eq
  cases eq

/-! ## Choices between floats -/

/-- The larger of two numbers. -/
theorem larger_leaves (ready : R.Ready K s) (left : lhs.ty.isScalar = true) (right : rhs.ty.isScalar = true)
    (readsL : R.Reads K s lhs) (readsR : R.Reads K s rhs) (output : R.Output K s .simd 1 out)
    (direct : ∀ r, out ≠ .indirectRegister r) :
    Results (larger out lhs rhs) s fun _ t => Leaves R K s t 1 out :=
  floats_leaves ready rfl left right readsL readsR output direct

/-- **One bound of `clamp`**: a jump over the instruction that takes it. -/
theorem takeBound_results (ready : R.Ready K s) {k : Lower Unit} {Q : Unit → LoweringState → Prop}
    (c : Condition) {id : Nat} (pool : id ∈ RegisterClass.simd.pool) (known : R.Known s (.lane id 0))
    (flags : R.Known s .flags) (bound : R.Source s .simd 1 l)
    (next : ∀ t, R.Emits K s t (fun _ => False) (RegisterClass.simd.parts id 1) → Results k t Q) :
    Results (do
      let label ← emitJump (.shortWhen c)
      emit .movssLoad (.simdRegister id) l
      bindLabel label
      k) s Q := by
  refine (emitJump_results ready (.shortWhen c) (.inr flags)).bind fun label t₁ jumps => ?_
  have ready₁ := jumps.path.ready ready
  have source : R.Source t₁ .simd 1 l :=
    { place := bound.place.imp_right jumps.path.place
      known := fun p part => jumps.shows _ (bound.known p (by rw [jumps.state] at part; exact part)) }
  refine (computes_results ready₁ (o := .movssLoad) rfl pool (knows_none _ rfl) source nofun
    fun _ h => by cases h).bind fun _ t₂ e₂ => ?_
  have path := jumps.path.trans e₂.course.toPath
  have young : s.assembly.labels < label := by
    rw [jumps.label]
    exact Nat.lt_succ_self _
  have labels : t₁.assembly.labels = label := by rw [jumps.state]; rfl
  refine (bindLabel_results path (.refl ready.fine) (fun P shows_ => e₂.course.toPath.sought
    (Nat.le_of_eq labels.symm) (jumps.arrives P shows_)) (jumps.isOpen.leads ready₁.fine.ok.assembly e₂.course.leads.assembly)
    young ready.fine.ok).bind fun _ u ⟨path, marks⟩ => next u ?_
  have pending : s.Pending u [] := by
    refine marks.pending s [] ?_
    have start := (LoweringState.Pending.refl ready.fine.ok).jump (.shortWhen c)
    rw [← jumps.label, ← jumps.state] at start
    exact start.course e₂.course
  exact
    { course := path.course pending
      gains := fun p part => marks.shows _ (by
        obtain ⟨k, small, rfl⟩ := part
        obtain rfl : k = 0 := by omega
        exact known) (e₂.gains p part)
      exact := fun r small _ exact => marks.shows _ exact
        (e₂.exact r small (fun h => by cases h.1) (jumps.shows _ exact))
      all := fun p same => marks.shows _ same (e₂.all p (jumps.shows _ same)) }

/-- **Clamping a number** to bounds. -/
theorem clamp_leaves (ready : R.Ready K s) {lo hi : Value} (scalar : v.ty.isScalar = true)
    (scalarLo : lo.ty.isScalar = true) (scalarHi : hi.ty.isScalar = true) (reads : R.Reads K s v)
    (readsLo : R.Reads K s lo) (readsHi : R.Reads K s hi) (output : R.Output K s .simd 1 out)
    (direct : ∀ r, out ≠ .indirectRegister r) :
    Results (clamp out v lo hi) s fun _ t => Leaves R K s t 1 out := by
  unfold clamp
  refine (accumulator_results ready output _).bind ?_
  rintro ⟨_, lease⟩ t ⟨id, rfl, acc⟩
  have reads := reads.course ready.fine acc.during.course.toPath
  refine (storeFloat_results (acc.during.ready ready) acc.pool scalar reads).bind fun _ t₁ e₁ => ?_
  have during₁ := acc.during.emits e₁ nofun
  rw [List.nil_append] at during₁
  have first : R.Input K t₁ .simd 1 (.simdRegister id) := .register acc.pool (by decide) fun p part => e₁.gains p part
  refine (floatOperand_results during₁ ready scalarLo (readsLo.course ready.fine during₁.course.toPath) _).bind ?_
  rintro ⟨low, lowLease⟩ t₂ ⟨during₂, course₂, inputLow, apartLow⟩
  have first := first.course (during₁.ready ready).fine course₂.toPath
  refine (floatOperand_results during₂ ready scalarHi (readsHi.course ready.fine during₂.course.toPath) _).bind ?_
  rintro ⟨high, highLease⟩ t₃ ⟨during₃, course₃, inputHigh, apartHigh⟩
  have ready₃ := during₃.ready ready
  have first := first.course (during₂.ready ready).fine course₃.toPath
  have inputLow := inputLow.course (during₂.ready ready).fine course₃.toPath
  -- The bounds are taken one after the other, the upper one against what the lower one
  -- has left.
  refine (comiss_results ready₃ acc.pool (first.source.known _ ⟨0, Nat.one_pos, rfl⟩) inputLow.source).bind
    fun _ t₄ e₄ => ?_
  have during₄ := during₃.emits e₄.toDoes nofun
  have ready₄ := during₄.ready ready
  have first := first.course ready₃.fine e₄.course.toPath
  refine takeBound_results ready₄ _ acc.pool (first.source.known _ ⟨0, Nat.one_pos, rfl⟩) (e₄.gains _ rfl)
    (inputLow.course ready₃.fine e₄.course.toPath).source fun t₅ e₅ => ?_
  have during₅ := during₄.emits e₅.toDoes nofun
  have ready₅ := during₅.ready ready
  have inputHigh := (inputHigh.course ready₃.fine e₄.course.toPath).course ready₄.fine e₅.course.toPath
  refine (comiss_results ready₅ acc.pool (e₅.gains _ ⟨0, Nat.one_pos, rfl⟩) inputHigh.source).bind
    fun _ t₆ e₆ => ?_
  have during₆ := during₅.emits e₆.toDoes nofun
  have ready₆ := during₆.ready ready
  refine takeBound_results ready₆ _ acc.pool (e₆.all _ (e₅.gains _ ⟨0, Nat.one_pos, rfl⟩)) (e₆.gains _ rfl)
    (inputHigh.course ready₅.fine e₆.course.toPath).source fun t₇ e₇ => ?_
  have during₇ := during₆.emits e₇.toDoes nofun
  have beside {lease : Option Lease} {avoid : List Location} (mem : Location.simdRegister id ∈ avoid)
      (apart : ∀ x ∈ lease, ∃ i, x.location = .simdRegister i ∧ i ∉ registersOf .simd avoid) :
      ∀ x ∈ lease, x.location ≠ RegisterClass.simd.location id := fun x hx eq => by
    obtain ⟨i, eq', clear⟩ := apart x hx
    exact ne_of_avoided clear mem (eq.symm.trans eq')
  refine (during_releaseOption during₇ ready fun x hx => (apartHigh x hx).imp fun _ h => h.1).bind
    fun _ t₈ ⟨during₈, keeps₈⟩ => ?_
  have known := keeps₈ .simd id 1 acc.pool (beside List.mem_cons_self apartHigh) fun p part => e₇.gains p part
  refine (during_releaseOption during₈ ready fun x hx => (apartLow x hx).imp fun _ h => h.1).bind
    fun _ t₉ ⟨during₉, keeps₉⟩ => ?_
  have known := keeps₉ .simd id 1 acc.pool (beside List.mem_cons_self apartLow) known
  exact (settle_results .single ready output acc during₉ known).mono fun _ u moves => moves.leaves ready direct

/-! ## All of them -/

/-- A vector is four words in SSE registers or in memory. -/
theorem packed_input {ty : Ty} (reads : R.Reads K s v) (same : v.ty = ty)
    (vector : RegisterClass.ofTy? ty = some .simd ∧ ty.size = 16) : R.Input K s .simd 4 v.location := by
  have := reads.whole .simd (same ▸ vector.1)
  rwa [same, vector.2] at this

/-- **An intrinsic function** on arguments that fit its parameters computes
a value of its type, if it has one. -/
theorem intrinsic_results (ready : R.Ready K s) {f : StageFunction} (known : f ∈ stageFunctions)
    {args : List Value} (fits : List.Forall₂ (fun t (a : Value) => t.assignable a.ty = true) f.parameters args)
    (reads : ∀ a ∈ args, R.Reads K s a)
    (exact : ∀ a, args.getLast? = some a → a.ty.isVector = true → R.ExactAt s a.location)
    (writes : f.returnTy ≠ .void → R.Writes K s f.returnTy out) (direct : ∀ r, out ≠ .indirectRegister r) :
    Results (intrinsic f.name out args) s fun _ t => R.Course K s t [] [] ∧
      (f.returnTy ≠ .void → R.Knows t (f.returnTy.size / 4) out) := by
  have leaves {n : Nat} {t : LoweringState} (h : Leaves R K s t n out) (ty : Ty) (size : ty.size / 4 = n) :
      R.Course K s t [] [] ∧ (ty ≠ .void → R.Knows t (ty.size / 4) out) :=
    ⟨h.1.course, fun _ => size ▸ h.2⟩
  have vec {a : Value} (reads : R.Reads K s a) (h : Ty.assignable .vec4 a.ty = true) :
      R.Input K s .simd 4 a.location ∧ a.ty.isVector = true := by
    have same : a.ty = .vec4 := by
      revert h
      cases a.ty <;> decide
    exact ⟨packed_input reads same (by decide), same ▸ rfl⟩
  have num {t : Ty} (h : Ty.assignable .float t = true) : t.isScalar = true := by
    revert h
    cases t <;> decide
  simp only [stageFunctions, List.mem_cons, List.not_mem_nil, or_false] at known
  rcases known with rfl | rfl | rfl | rfl | rfl | rfl <;>
    simp only [List.forall₂_cons_left_iff, List.forall₂_nil_left_iff] at fits
  · obtain ⟨a, _, fitsA, rfl, rfl⟩ := fits
    exact (normalize_leaves ready (vec (reads a (by simp)) fitsA).1 ((writes (by decide)).whole _ rfl)
      direct).mono fun _ _ h => leaves h .vec4 rfl
  · obtain ⟨a, _, fitsA, rfl, rfl⟩ := fits
    exact (vectorLength_leaves ready (vec (reads a (by simp)) fitsA).1 ((writes (by decide)).whole _ rfl)
      direct).mono fun _ _ h => leaves h .float rfl
  · obtain ⟨a, _, fitsA, ⟨b, _, fitsB, rfl, rfl⟩, rfl⟩ := fits
    exact (larger_leaves ready (num fitsA) (num fitsB) (reads a (by simp)) (reads b (by simp))
      ((writes (by decide)).whole _ rfl) direct).mono fun _ _ h => leaves h .float rfl
  · obtain ⟨a, _, fitsA, ⟨b, _, fitsB, rfl, rfl⟩, rfl⟩ := fits
    have vecB := vec (reads b (by simp)) fitsB
    exact (dot3_leaves ready (vec (reads a (by simp)) fitsA).1 vecB.1 (exact b rfl vecB.2)
      ((writes (by decide)).whole _ rfl) direct).mono fun _ _ h => leaves h .float rfl
  · obtain ⟨a, _, fitsA, ⟨b, _, fitsB, ⟨c, _, fitsC, rfl, rfl⟩, rfl⟩, rfl⟩ := fits
    exact (clamp_leaves ready (num fitsA) (num fitsB) (num fitsC) (reads a (by simp)) (reads b (by simp))
      (reads c (by simp)) ((writes (by decide)).whole _ rfl) direct).mono fun _ _ h => leaves h .float rfl
  · obtain ⟨a, _, fitsA, rfl, rfl⟩ := fits
    exact .pure ⟨.refl ready.fine, fun valued => absurd rfl valued⟩

end Lower

end Shading
