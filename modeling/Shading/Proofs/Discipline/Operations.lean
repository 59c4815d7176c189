import Shading.Lowering.Arithmetic
import Shading.Proofs.Discipline.Homes

/-!
# Operations along a course

Every operation reads operands that are known and leaves a known result.
An opcode that takes a packed operand from memory takes the operand that
was evaluated last, whose address has not been saved in the meantime.
-/

namespace Shading

open LoweringState Regime

namespace Lower

variable {R : Regime} {K : Nat → Prop} {s₀ s t u : LoweringState} {registers : List Location}
  {held : List Lease} {c d : RegisterClass} {n : Nat} {l dest src out : Location} {v lhs rhs : Value}

/-! ## In an accumulator -/

/-- **A value is fetched into an accumulator and changed there**, and the
result is settled before anything else is done. -/
theorem compute_then (w : Width) (ready : R.Ready K s) (avoid : List Location)
    (input : R.Input K s w.registerClass w.words src)
    (output : R.Output K s w.registerClass w.words out) {f : Location → Lower Unit}
    {k : Unit → Lower Unit} {Q : Unit → LoweringState → Prop}
    (step : ∀ id ∈ w.registerClass.pool, ∀ t held, R.During K w.registerClass s t held →
      R.Knows t w.words (w.registerClass.location id) →
      Results (f (w.registerClass.location id)) t fun _ u =>
        R.During K w.registerClass s u held ∧ R.Knows u w.words (w.registerClass.location id))
    (next : ∀ t, Moves R K s t w.registerClass w.words out → Results (k .unit) t Q) :
    Results (do
      let (acc, lease) ← accumulator out w.registerClass avoid
      transfer w acc src
      f acc
      settle out acc lease w
      k .unit : Lower Unit) s Q := by
  refine (accumulator_results ready output avoid).bind ?_
  rintro ⟨_, lease⟩ t ⟨id, rfl, acc⟩
  have source := (input.course ready.fine acc.during.course.toPath).source
  refine (fetch_results (acc.during.ready ready) w acc.pool source).bind fun _ t₁ e₁ => ?_
  have during := acc.during.emits e₁.toDoes fun _ h => h.1
  refine (step id acc.pool t₁ lease.toList during fun p part => e₁.gains p ?_).bind
    fun _ t₂ ⟨during, known⟩ => ?_
  · rwa [parts_location] at part
  · exact (settle_results w ready output acc during known).bind fun _ u => next u

theorem compute_results (w : Width) (ready : R.Ready K s) (avoid : List Location)
    (input : R.Input K s w.registerClass w.words src)
    (output : R.Output K s w.registerClass w.words out) {f : Location → Lower Unit}
    (step : ∀ id ∈ w.registerClass.pool, ∀ t held, R.During K w.registerClass s t held →
      R.Knows t w.words (w.registerClass.location id) →
      Results (f (w.registerClass.location id)) t fun _ u =>
        R.During K w.registerClass s u held ∧ R.Knows u w.words (w.registerClass.location id)) :
    Results (do
      let (acc, lease) ← accumulator out w.registerClass avoid
      transfer w acc src
      f acc
      settle out acc lease w : Lower Unit) s fun _ t => Moves R K s t w.registerClass w.words out := by
  have := compute_then w ready avoid input output (k := pure)
    (Q := fun _ t => Moves R K s t w.registerClass w.words out) step fun t moves => .pure moves
  simpa only [bind_pure_unit] using this

/-- An address that is exact stays so while SSE registers are used. -/
theorem exactAt_during (h : R.During K .simd s t held) (ready : R.Ready K s)
    (input : R.Input K s .simd n l) (exact : R.ExactAt s l) : R.ExactAt t l := fun r eq =>
  h.calm rfl r (ready.lt (input.held r eq)) (exact r eq)

theorem exactAt_place {r : Region} {o : Nat} (place : l.place? = some (r, o)) : R.ExactAt s l :=
  fun r eq => by
    rw [eq] at place
    cases place

/-! ## Vectors and matrices -/

/-- Vectors and matrices are moved in rows. -/
theorem row_input (vector : v.ty.isVector = true) (reads : R.Reads K s v) {row : Nat}
    (inside : row < rowCount v.ty) : R.Input K s .simd 4 (v.location.offsetBy (row * 16)) := by
  cases matrix : v.ty.isMatrix with
  | true =>
    rw [rowCount, if_pos matrix] at inside
    exact reads.rows matrix row inside
  | false =>
    rw [rowCount, if_neg (by simp [matrix])] at inside
    obtain rfl : row = 0 := by omega
    have ofTy : RegisterClass.ofTy? v.ty = some .simd ∧ v.ty.size / 4 = 4 := by
      revert vector matrix
      cases v.ty <;> decide
    rw [Nat.zero_mul, offsetBy_zero, ← ofTy.2]
    exact reads.whole _ ofTy.1

theorem row_output {ty : Ty} (vector : ty.isVector = true) (writes : R.Writes K s ty out) {row : Nat}
    (inside : row < rowCount ty) : R.Output K s .simd 4 (out.offsetBy (row * 16)) := by
  cases matrix : ty.isMatrix with
  | true =>
    rw [rowCount, if_pos matrix] at inside
    exact writes.rows matrix row inside
  | false =>
    rw [rowCount, if_neg (by simp [matrix])] at inside
    obtain rfl : row = 0 := by omega
    have ofTy : RegisterClass.ofTy? ty = some .simd ∧ ty.size / 4 = 4 := by
      revert vector matrix
      cases ty <;> decide
    rw [Nat.zero_mul, offsetBy_zero, ← ofTy.2]
    exact writes.whole _ ofTy.1

/-- **A value of known rows is known.** -/
theorem knows_of_rows {ty : Ty} (vector : ty.isVector = true) (writes : R.Writes K s ty out)
    (known : ∀ row < rowCount ty, R.Knows t 4 (out.offsetBy (row * 16))) : R.Knows t (ty.size / 4) out := by
  cases matrix : ty.isMatrix with
  | true =>
    obtain ⟨r, o, place⟩ := writes.memory matrix
    rw [rowCount, if_pos matrix] at known
    have size : ty.size / 4 = 4 * ty.elementCount := by
      rw [size_matrix matrix]
      omega
    rw [size]
    exact knows_rows place known
  | false =>
    rw [rowCount, if_neg (by simp [matrix])] at known
    have size : ty.size / 4 = 4 := by
      revert vector matrix
      cases ty <;> decide
    have := known 0 (by decide)
    rwa [Nat.zero_mul, offsetBy_zero, ← size] at this

/-- **What an operation on SSE registers leaves**: so many known words. -/
abbrev Leaves (R : Regime) (K : Nat → Prop) (s t : LoweringState) (n : Nat) (out : Location) : Prop :=
  R.During K .simd s t [] ∧ R.Knows t n out

theorem Moves.leaves (moves : Moves R K s t .simd n out) (ready : R.Ready K s)
    (direct : ∀ r, out ≠ .indirectRegister r) : Leaves R K s t n out :=
  ⟨(During.start ready).emits moves.emits nofun, moves.knows direct⟩

theorem direct_offsetBy (direct : ∀ r, out ≠ .indirectRegister r) (x r : Nat) :
    out.offsetBy x ≠ .indirectRegister r := fun eq => by
  cases out <;> cases eq
  exact direct _ rfl

/-- **An operation row by row.** -/
theorem rows_results {ty : Ty} (ready : R.Ready K s) (vector : ty.isVector = true)
    (writes : R.Writes K s ty out) {action : Nat → Lower Unit}
    (each : ∀ row < rowCount ty, ∀ t, R.During K .simd s t [] →
      R.Output K t .simd 4 (out.offsetBy (row * 16)) →
      Results (action row) t fun _ u => Leaves R K t u 4 (out.offsetBy (row * 16))) :
    Results (forRows (rowCount ty) action) s fun _ t => Leaves R K s t (ty.size / 4) out := by
  refine (forRows_results (I := fun row t => R.During K .simd s t [] ∧
    ∀ j < row, R.Knows t 4 (out.offsetBy (j * 16))) _ ⟨.start ready, nofun⟩ ?_).mono ?_
  · rintro row inside t ⟨during, known⟩
    have target := (row_output vector writes inside).course during.course.toPath ready
    refine (each row inside t during target).mono fun _ u ⟨during', known'⟩ => ?_
    refine ⟨during.step during'.course (during'.calm rfl), fun j hj => ?_⟩
    rcases Nat.lt_succ_iff_lt_or_eq.1 hj with hj | rfl
    · have earlier := (row_output vector writes (show j < rowCount ty by omega)).course
        during.course.toPath ready
      exact earlier.knows during'.course.toPath (known j hj)
    · exact known'
  · rintro _ t ⟨during, known⟩
    exact ⟨during, knows_of_rows vector writes known⟩

/-- **Adding and subtracting vectors.** -/
theorem packed_leaves (ready : R.Ready K s) {op : BinaryOp} {ty : Ty} (vector : ty.isVector = true)
    (left : lhs.ty = ty) (right : rhs.ty = ty) (readsL : R.Reads K s lhs) (readsR : R.Reads K s rhs)
    (exact : R.ExactAt s rhs.location) (writes : R.Writes K s ty out)
    (direct : ∀ r, out ≠ .indirectRegister r) :
    Results (packed op out lhs rhs) s fun _ t => Leaves R K s t (ty.size / 4) out := by
  have rows (o : Opcode) (shape : o.shape? = some ⟨.simd, .simd, 4, 4, 4⟩) :
      Results (forRows (rowCount lhs.ty) fun row => do
        let dest := out.offsetBy (row * 16)
        let l := lhs.location.offsetBy (row * 16)
        let r := rhs.location.offsetBy (row * 16)
        let (acc, lease) ← accumulator dest .simd [dest, l, r]
        transfer .packed acc l
        emit o acc r
        settle dest acc lease .packed) s fun _ t => Leaves R K s t (ty.size / 4) out := by
    rw [left]
    refine rows_results ready vector writes fun row inside t during output => ?_
    have ready' := during.ready ready
    have inputL := (row_input (left ▸ vector) readsL (left ▸ inside)).course ready.fine
      during.course.toPath
    have inputR := row_input (right ▸ vector) readsR (right ▸ inside)
    have exactR : R.ExactAt s (rhs.location.offsetBy (row * 16)) := by
      intro r eq
      cases h : rhs.location <;> rw [h] at eq <;> cases eq
      exact exact _ h
    have exactR := exactAt_during during ready inputR exactR
    have inputR := inputR.course ready.fine during.course.toPath
    refine (compute_results .packed ready' _ inputL output
      (f := fun acc => emit o acc (rhs.location.offsetBy (row * 16))) fun id pool t₁ held during₁ known => ?_).mono
        fun _ u moves => moves.leaves ready' (direct_offsetBy direct _)
    have source := (inputR.course ready'.fine during₁.course.toPath).source
    have exact₁ := exactAt_during during₁ ready' inputR exactR
    refine (packed_results (during₁.ready ready') shape pool known source exact₁).mono
      fun _ t₂ emits => ⟨during₁.emits emits.toDoes nofun, fun p part => emits.gains p part⟩
  unfold packed
  cases op with
  | add => exact rows .addps rfl
  | subtract => exact rows .subps rfl
  | multiply => intro _ _ run; cases run
  | divide => intro _ _ run; cases run

/-- What is to be avoided is in another register. -/
theorem ne_of_avoided {avoid : List Location} {id : Nat} (clear : id ∉ registersOf c avoid)
    (mem : l ∈ avoid) : l ≠ c.location id := fun eq =>
  clear (mem_registersOf.2 ⟨l, mem, by rw [eq, RegisterClass.registerOf?_location]⟩)

/-- **A place beside the register of a lease** is known when the lease
ends. -/
theorem Releases.knows_output {x : Lease} (h : Releases R t u x) (output : R.Output K s c n out)
    (direct : ∀ r, out ≠ .indirectRegister r) (other : out ≠ x.location) {m : Nat} (known : R.Knows t m out) :
    R.Knows u m out := by
  refine h.knows direct ?_ known
  rcases output.place with ⟨id, pool, rfl⟩ | place
  · exact .inl ⟨c, id, pool, rfl, other⟩
  · cases place with
    | indirect => exact absurd rfl (direct _)
    | direct place => exact .inr ⟨_, _, place⟩

theorem vector_class {ty : Ty} (vector : ty.isVector = true) (whole : ty.isMatrix = false) :
    RegisterClass.ofTy? ty = some .simd ∧ ty.size / 4 = 4 := by
  revert vector whole
  cases ty <;> decide

/-- **Scaling a vector.** -/
theorem vectorScalar_leaves (ready : R.Ready K s) {ty : Ty} (vector : ty.isVector = true)
    (whole : ty.isMatrix = false) (left : lhs.ty = ty) (scalar : rhs.ty.isScalar = true)
    (readsL : R.Reads K s lhs) (readsR : R.Reads K s rhs) (writes : R.Writes K s ty out)
    (direct : ∀ r, out ≠ .indirectRegister r) :
    Results (vectorScalar out lhs rhs) s fun _ t => Leaves R K s t (ty.size / 4) out := by
  obtain ⟨ofTy, size⟩ := vector_class vector whole
  have output := writes.whole _ ofTy
  have inputL := readsL.whole .simd (left ▸ ofTy)
  rw [left, size] at inputL
  rw [size] at output
  unfold vectorScalar
  refine (during_acquire (c := .simd) (.start ready) ready _).bind fun x t₁ ⟨during₁, _, id, grants⟩ => ?_
  rw [grants.location]
  have reads₁ := readsR.course ready.fine during₁.course.toPath
  refine (storeFloat_results (during₁.ready ready) grants.pool scalar reads₁).bind fun _ t₂ e₂ => ?_
  have during₂ := during₁.emits e₂ nofun
  refine (splat_results (during₂.ready ready) grants.pool (e₂.gains _ ⟨0, by decide, rfl⟩)).bind
    fun _ t₃ e₃ => ?_
  have during₃ := during₂.emits e₃.toDoes nofun
  have factor : R.Input K t₃ .simd 4 (.simdRegister id) :=
    .register grants.pool (by decide) fun p part => e₃.gains p part
  have output₃ := output.course during₃.course.toPath ready
  have left₃ := inputL.course ready.fine during₃.course.toPath
  refine compute_then .packed (during₃.ready ready) _ left₃ output₃
    (f := fun acc => emit .mulps acc (.simdRegister id))
    (k := fun _ => release x) (fun id' pool t₄ held during₄ known => ?_) fun t₄ moves => ?_
  · have source := (factor.course (during₃.ready ready).fine during₄.course.toPath).source
    refine (packed_results (during₄.ready (during₃.ready ready)) rfl pool known source
      (exactAt_register id)).mono fun _ t₅ emits => ?_
    exact ⟨during₄.emits emits.toDoes nofun, fun p part => emits.gains p part⟩
  · have during₄ := during₃.emits moves.emits nofun
    refine (during_releaseLast _ during₄ ready fun r eq => ?_).mono fun _ u ⟨during, rel⟩ => ?_
    · rw [grants.location] at eq
      cases eq
    · have other : out ≠ x.location := by
        rw [grants.location]
        exact ne_of_avoided grants.clear (by simp)
      rw [Leaves, size]
      exact ⟨during, rel.knows_output output direct other (moves.knows direct)⟩

/-! ## Matrices -/

/-- **Leasing several SSE registers** for an operation. -/
theorem acquireSimd_results (h : R.During K .simd s t held) (ready : R.Ready K s) (count : Nat)
    (avoid : List Location) : Results (acquireSimd count avoid) t fun leases u =>
      R.During K .simd s u (held ++ leases) ∧ leases.length = count ∧ ∀ x ∈ leases,
        ∃ id ∈ RegisterClass.simd.pool, x.location = .simdRegister id ∧ id ∉ registersOf .simd avoid := by
  induction count generalizing t held avoid with
  | zero => exact .pure ⟨by simpa using h, rfl, nofun⟩
  | succ count ih =>
    unfold acquireSimd
    refine (during_acquire h ready avoid).bind fun x t₁ ⟨during₁, _, id, grants⟩ => ?_
    refine (ih during₁ _).bind fun xs u ⟨during, count, each⟩ => .pure ⟨?_, ?_, fun y hy => ?_⟩
    · simpa using during
    · rw [List.length_cons, count]
    · rcases List.mem_cons.1 hy with rfl | hy
      · exact ⟨id, grants.pool, grants.location, grants.clear⟩
      · obtain ⟨id, pool, eq, clear⟩ := each y hy
        refine ⟨id, pool, eq, fun mem => clear ?_⟩
        rw [registersOf_append]
        exact List.mem_append_left _ mem

/-- **Ending leases** in the reverse of the order they were granted in, with
a result beside them. -/
theorem releaseAll_results (held : List Lease) (ready : R.Ready K s) {t₀ : LoweringState}
    (output : R.Output K t₀ c n out) (direct : ∀ r, out ≠ .indirectRegister r)
    (leases : List Lease) (h : R.During K .simd s t (held ++ leases.reverse))
    (apart : ∀ x ∈ leases, out ≠ x.location ∧ ∃ id, x.location = .simdRegister id)
    (known : R.Knows t n out) :
    Results (releaseAll leases) t fun _ u => R.During K .simd s u held ∧ R.Knows u n out := by
  induction leases generalizing t with
  | nil => exact .pure ⟨by simpa using h, known⟩
  | cons x xs ih =>
    rw [List.reverse_cons, ← List.append_assoc] at h
    obtain ⟨other, id, eq⟩ := apart x (List.mem_cons_self ..)
    refine (during_releaseLast _ h ready fun r eq' => ?_).bind fun _ u ⟨during, rel⟩ => ?_
    · rw [eq] at eq'
      cases eq'
    · exact ih during (fun y hy => apart y (List.mem_cons_of_mem _ hy))
        (rel.knows_output output direct other known)

/-- **A row of a matrix times a vector**, in a register. -/
theorem rowProduct_results (ready : R.Ready K s) {id : Nat} (pool : id ∈ RegisterClass.simd.pool)
    (row : R.Input K s .simd 4 src) (vector : R.Input K s .simd 4 l) (exact : R.ExactAt s l)
    (three : Prop) [Decidable three] :
    Results (do
      transfer .packed (.simdRegister id) src
      emit .mulps (.simdRegister id) l
      if three then
        emit .andps (.simdRegister id) (← constant (.vector xyzMask)) : Lower Unit) s fun _ t =>
      R.Does K s t (fun _ => False) (RegisterClass.simd.parts id 4) := by
  refine (fetch_results ready .packed pool row.source).bind fun _ t₁ e₁ => ?_
  have during₁ := (During.start (c := .simd) ready).emits e₁.toDoes fun _ h => h.1
  have factor := vector.course ready.fine during₁.course.toPath
  refine (packed_results (during₁.ready ready) (o := .mulps) rfl pool (fun p part => e₁.gains p part)
    factor.source (exactAt_during during₁ ready vector exact)).bind fun _ t₂ e₂ => ?_
  have during₂ := during₁.emits e₂.toDoes nofun
  split
  · refine (during_constant during₂ ready xyzMask).bind fun mask t₃ ⟨during₃, course, source, exact, _⟩ => ?_
    have product : R.Input K t₂ .simd 4 (.simdRegister id) :=
      .register pool (by decide) fun p part => e₂.gains p part
    have product := product.course (during₂.ready ready).fine course.toPath
    refine (packed_results (during₃.ready ready) (o := .andps) rfl pool product.source.known source
      exact).mono fun _ t₄ e₄ => ?_
    exact ((during₃.emits e₄.toDoes nofun).done e₄.gains).mono nofun fun _ h => h
  · exact .pure ((during₂.done e₂.gains).mono nofun fun _ h => h)

/-- **Rows of a matrix times a vector**, each in a register of its own. -/
theorem rowProducts_results (rows : Nat) (three : Prop) [Decidable three] (xs : List (Location × Nat))
    (each : ∀ x ∈ xs, (∃ id ∈ RegisterClass.simd.pool, x.1 = .simdRegister id) ∧ x.2 < rows)
    (ready : R.Ready K s) (matrix : ∀ row < rows, R.Input K s .simd 4 (src.offsetBy (row * 16)))
    (vector : R.Input K s .simd 4 l) (exact : R.ExactAt s l) :
    Results (xs.forM fun (r, row) => do
      transfer .packed r (src.offsetBy (row * 16))
      emit .mulps r l
      if three then
        emit .andps r (← constant (.vector xyzMask)) : Lower Unit) s fun _ t =>
      R.During K .simd s t [] ∧ ∀ x ∈ xs, R.Knows t 4 x.1 := by
  induction xs generalizing s with
  | nil => exact .pure ⟨.start ready, nofun⟩
  | cons x xs ih =>
    obtain ⟨r, row⟩ := x
    obtain ⟨⟨id, pool, rfl⟩, inside⟩ := each _ (List.mem_cons_self ..)
    refine (rowProduct_results ready pool (matrix row inside) vector exact three).bind fun _ t e => ?_
    have during := (During.start (c := .simd) ready).emits e nofun
    have path := during.course.toPath
    refine (ih (fun y hy => each y (List.mem_cons_of_mem _ hy)) (during.ready ready)
      (fun row inside => (matrix row inside).course ready.fine path) (vector.course ready.fine path)
      (exactAt_during during ready vector exact)).mono fun _ u ⟨during', known⟩ => ?_
    refine ⟨during.step during'.course (during'.calm rfl), fun y hy => ?_⟩
    rcases List.mem_cons.1 hy with rfl | hy
    · have product : R.Input K t .simd 4 (.simdRegister id) :=
        .register pool (by decide) fun p part => e.gains p part
      exact (product.course (during.ready ready).fine during'.course.toPath).source.known
    · exact known y hy

/-- The rows of a matrix are vectors, three or four of them. -/
theorem row_of_matrix {t ty : Ty} (matrix : t.isMatrix = true) (row : t.element? = some ty) :
    ty.isVector = true ∧ ty.isMatrix = false ∧ (t.elementCount = 3 ∨ t.elementCount = 4) := by
  revert matrix row
  cases t <;> cases ty <;> decide

/-- **Applying a matrix to a vector.** -/
theorem matrixVector_leaves (ready : R.Ready K s) {ty : Ty} (matrix : lhs.ty.isMatrix = true)
    (row : lhs.ty.element? = some ty) (right : rhs.ty = ty) (readsL : R.Reads K s lhs)
    (readsR : R.Reads K s rhs) (exact : R.ExactAt s rhs.location) (writes : R.Writes K s ty out)
    (direct : ∀ r, out ≠ .indirectRegister r) :
    Results (matrixVector out lhs rhs) s fun _ t => Leaves R K s t (ty.size / 4) out := by
  obtain ⟨vector, whole, count⟩ := row_of_matrix matrix row
  obtain ⟨ofTy, size⟩ := vector_class vector whole
  have output := writes.whole _ ofTy
  have inputR := readsR.whole .simd (right ▸ ofTy)
  rw [right, size] at inputR
  rw [size] at output ⊢
  unfold matrixVector
  refine (acquireSimd_results (.start ready) ready 4 _).bind fun leases t₁ ⟨during₁, four, each⟩ => ?_
  obtain ⟨w, x, y, z, rfl⟩ : ∃ w x y z, leases = [w, x, y, z] := by
    match leases, four with
    | [w, x, y, z], _ => exact ⟨w, x, y, z, rfl⟩
  have apart : ∀ q ∈ [z, y, x, w], out ≠ q.location ∧ ∃ id, q.location = .simdRegister id := by
    intro q hq
    obtain ⟨id, _, eq, clear⟩ := each q (by simpa [or_comm, or_left_comm, or_assoc] using hq)
    exact ⟨eq ▸ ne_of_avoided clear (by simp), id, eq⟩
  obtain ⟨i, poolI, eqI, -⟩ := each w (by simp)
  obtain ⟨j, poolJ, eqJ, -⟩ := each x (by simp)
  obtain ⟨k, poolK, eqK, -⟩ := each y (by simp)
  obtain ⟨m, poolM, eqM, -⟩ := each z (by simp)
  simp only [List.map_cons, List.map_nil, eqI, eqJ, eqK, eqM]
  have path₁ := during₁.course.toPath
  refine (rowProducts_results lhs.ty.elementCount (lhs.ty.element? = some .vec3) _ ?_
    (during₁.ready ready) (fun row inside => (readsL.rows matrix row inside).course ready.fine path₁)
    (inputR.course ready.fine path₁) (exactAt_during during₁ ready inputR exact)).bind
      fun _ t₂ ⟨products, known⟩ => ?_
  · rcases count with count | count <;> rw [count] <;>
      simp [poolI, poolJ, poolK, poolM]
  have during₂ := during₁.step products.course (products.calm rfl)
  -- With three rows the fourth register has not been written, and only once it is
  -- cleared does it hold the same on both machines.
  have cleared : Results (if lhs.ty.elementCount = 3 then
      emit .xorps (.simdRegister m) (.simdRegister m) else pure ()) t₂ fun _ t =>
        R.During K .simd s t [w, x, y, z] ∧ ∀ id ∈ [i, j, k, m], R.Knows t 4 (.simdRegister id) := by
    split
    · next three =>
      rw [three] at known
      refine (clear_results (during₂.ready ready) poolM).mono fun _ t e => ?_
      refine ⟨during₂.emits e.toDoes nofun, ?_⟩
      have before (id : Nat) (h : R.Knows t₂ 4 (.simdRegister id)) : R.Knows t 4 (.simdRegister id) :=
        fun p part => e.all p (h p part)
      have last : R.Knows t 4 (.simdRegister m) := fun p part => e.gains p part
      simpa [last] using ⟨before i (known (_, 0) (by simp)), before j (known (_, 1) (by simp)),
        before k (known (_, 2) (by simp))⟩
    · next other =>
      rw [count.resolve_left other] at known
      exact .pure ⟨during₂, by simpa using known⟩
  refine Results.optional cleared fun t₃ ⟨during₃, known⟩ => ?_
  have pools (id : Nat) (mem : id ∈ [i, j, k, m]) : id ∈ RegisterClass.simd.pool := by
    simp only [List.mem_cons, List.not_mem_nil, or_false] at mem
    rcases mem with rfl | rfl | rfl | rfl <;> assumption
  -- The three sums are of one form: a known register is added to a known one, and all
  -- stay known.
  have add {id id' : Nat} (mem : id ∈ [i, j, k, m]) (mem' : id' ∈ [i, j, k, m]) {t : LoweringState}
      (before : R.During K .simd s t [w, x, y, z] ∧ ∀ id ∈ [i, j, k, m], R.Knows t 4 (.simdRegister id)) :
      Results (emit .haddps (.simdRegister id) (.simdRegister id')) t fun _ u =>
        R.During K .simd s u [w, x, y, z] ∧ ∀ id ∈ [i, j, k, m], R.Knows u 4 (.simdRegister id) := by
    obtain ⟨during, known⟩ := before
    have operand : R.Input K t .simd 4 (.simdRegister id') :=
      .register (pools _ mem') (by decide) (known _ mem')
    refine (packed_results (during.ready ready) rfl (pools _ mem) (known _ mem) operand.source
      (exactAt_register _)).mono fun _ u e => ?_
    exact ⟨during.emits e.toDoes nofun, fun id mem p part => e.all p (known id mem p part)⟩
  refine (add (by simp) (by simp) ⟨during₃, known⟩).bind fun _ t₄ sums => ?_
  refine (add (by simp) (by simp) sums).bind fun _ t₅ sums => ?_
  refine (add (by simp) (by simp) sums).bind fun _ t₆ ⟨during₆, known⟩ => ?_
  have sums : R.Input K t₆ .simd 4 (.simdRegister i) :=
    .register poolI (by decide) (known i (by simp))
  have target := output.course during₆.course.toPath ready
  have other : out ≠ .simdRegister i := eqI ▸ (apart w (by simp)).1
  refine (transfer_results (during₆.ready ready) .packed sums target other).bind fun _ t₇ moves => ?_
  exact releaseAll_results [] ready output direct [z, y, x, w]
    (during₆.emits moves.emits nofun) apart (moves.knows direct)

/-- **Adding a weighted row** to a sum in a register. -/
theorem addProduct_results (ready : R.Ready K s) {a b : Nat} (poolA : a ∈ RegisterClass.simd.pool)
    (poolB : b ∈ RegisterClass.simd.pool) (known : R.Knows s 4 (.simdRegister a))
    (weight : R.Input K s .simd 1 l) (row : R.Input K s .simd 4 src) {r : Region} {o : Nat}
    (place : src.place? = some (r, o)) :
    Results (do
      emit .movssLoad (.simdRegister b) l
      emit .shufps (.simdRegister b) (.simdRegister b) [0]
      emit .mulps (.simdRegister b) src
      emit .addps (.simdRegister a) (.simdRegister b) : Lower Unit) s fun _ t =>
      R.Emits K s t (fun _ => False) (RegisterClass.simd.parts a 4) := by
  refine (load_results ready .single poolB weight.source).bind fun _ t₁ e₁ => ?_
  have e₁ : R.Emits K s t₁ (fun _ => False) _ := e₁.mono (fun _ h => by cases h.1) fun _ h => h
  have ready₁ := e₁.course.ready ready
  refine (splat_results ready₁ poolB (e₁.gains _ ⟨0, by decide, rfl⟩)).bind fun _ t₂ e₂ => ?_
  have ready₂ := e₂.course.ready ready₁
  have e₂ := e₁.trans e₂
  have factor := row.course ready.fine e₂.course.toPath
  refine (packed_results ready₂ (o := .mulps) rfl poolB (fun p part => e₂.gains p (.inr part))
    factor.source (exactAt_place place)).bind fun _ t₃ e₃ => ?_
  have ready₃ := e₃.course.ready ready₂
  have e₃ := e₂.trans e₃
  have product : R.Input K t₃ .simd 4 (.simdRegister b) :=
    .register poolB (by decide) fun p part => e₃.gains p (.inr part)
  refine (packed_results ready₃ (o := .addps) rfl poolA (fun p part => e₃.all p (known p part))
    product.source (exactAt_register b)).mono fun _ t₄ e₄ => ?_
  exact (e₃.trans e₄).mono nofun fun _ part => .inr part

/-- **Multiplying matrices.** -/
theorem matrixProduct_leaves (ready : R.Ready K s) {ty : Ty} (matrix : ty.isMatrix = true)
    (left : lhs.ty = ty) (right : rhs.ty = ty) (readsL : R.Reads K s lhs) (readsR : R.Reads K s rhs)
    (writes : R.Writes K s ty out) (direct : ∀ r, out ≠ .indirectRegister r) :
    Results (matrixProduct out lhs rhs) s fun _ t => Leaves R K s t (ty.size / 4) out := by
  have vector : ty.isVector = true ∧ rowCount ty = ty.elementCount ∧ ty.elementCount ≤ 4 := by
    revert matrix
    cases ty <;> decide
  obtain ⟨vector, count, four⟩ := vector
  -- Matrices are in memory, so the two registers that are leased hold no operand.
  obtain ⟨rl, ol, placeL⟩ := readsL.memory (left ▸ matrix)
  obtain ⟨rr, or, placeR⟩ := readsR.memory (right ▸ matrix)
  unfold matrixProduct
  refine (during_acquire (c := .simd) (.start ready) ready _).bind fun x t₁ ⟨during₁, _, a, grantsA⟩ => ?_
  refine (during_acquire during₁ ready _).bind fun y t₂ ⟨during₂, _, b, grantsB⟩ => ?_
  have ready₂ := during₂.ready ready
  have path := during₂.course.toPath
  dsimp only
  rw [grantsA.location, grantsB.location, left, ← count]
  refine (rows_results ready₂ vector (writes.course path ready) fun i inside t during output => ?_).bind
    fun _ t₃ ⟨during₃, known⟩ => ?_
  · have ready₃ := during.ready ready₂
    refine (clear_results ready₃ grantsA.pool).bind fun _ t₃ e₃ => ?_
    -- The sum is cleared in front of the inner loop, and each turn adds a known row to
    -- it.
    refine (forRows_results (I := fun _ u => R.During K .simd t u [] ∧ R.Knows u 4 (.simdRegister a)) _
      ⟨(During.start ready₃).emits e₃.toDoes nofun, fun p part => e₃.gains p part⟩ ?_).bind
        fun _ t₄ ⟨during₄, known⟩ => ?_
    · rintro j inside' u ⟨during₄, known⟩
      have path₄ := path.trans (during.course.toPath.trans during₄.course.toPath)
      have weight := Input.word ((readsL.rows (left ▸ matrix) i (by rw [left]; omega)).course ready.fine path₄)
        (offsetBy_place placeL _) (show j < 4 by omega)
      have row := (readsR.rows (right ▸ matrix) j (by rw [right]; omega)).course ready.fine path₄
      rw [offsetBy_offsetBy] at weight
      refine (addProduct_results (during₄.ready ready₃) grantsA.pool grantsB.pool known weight row
        (offsetBy_place placeR _)).mono fun _ v e => ?_
      exact ⟨during₄.emits e.toDoes nofun, fun p part => e.gains p part⟩
    · have sum : R.Input K t₄ .simd 4 (.simdRegister a) := .register grantsA.pool (by decide) known
      have other : out.offsetBy (i * 16) ≠ .simdRegister a := fun eq => by
        have out_eq : out = .simdRegister a := by
          cases out <;> cases eq
          rfl
        exact ne_of_avoided grantsA.clear (by simp) out_eq
      have target := output.course during₄.course.toPath ready₃
      refine (transfer_results (during₄.ready ready₃) .packed sum target other).mono fun _ v moves => ?_
      exact ⟨during₄.emits moves.emits nofun, moves.knows (direct_offsetBy direct _)⟩
  · obtain ⟨r, o, place⟩ := writes.memory matrix
    have beside {u v : LoweringState} {z : Lease} (rel : Releases R u v z)
        (known : R.Knows u (ty.size / 4) out) : R.Knows v (ty.size / 4) out :=
      rel.knows direct (.inr ⟨r, o, place⟩) known
    have during₃ := during₂.step during₃.course (during₃.calm rfl)
    refine (during_releaseLast [x] during₃ ready fun r eq => ?_).bind fun _ u ⟨during₄, rel⟩ => ?_
    · rw [grantsB.location] at eq
      cases eq
    · have known := beside rel known
      refine (during_releaseLast [] during₄ ready fun r eq => ?_).mono fun _ v ⟨during, rel⟩ => ?_
      · rw [grantsA.location] at eq
        cases eq
      · exact ⟨during, beside rel known⟩

end Lower

end Shading
