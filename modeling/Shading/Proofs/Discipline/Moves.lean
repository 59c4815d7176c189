import Shading.Proofs.Discipline.Values

/-!
# Moving values along a course

Each way of moving a value is a course. Whole words are known where they
arrive if they were known where they came from. Moves through SSE
registers leave all address registers as they are.
-/

namespace Shading

open LoweringState

/-- The words that are moved at once. -/
def Width.words : Width → Nat
  | dword | single => 1
  | packed => 4

namespace Regime

variable {R : Regime} {K : Nat → Prop} {s₀ s t u : LoweringState} {registers : List Location}
  {held : List Lease} {c : RegisterClass} {n : Nat} {l : Location} {w : Bool}
  {writes writes' : Nat → Prop} {gained gained' : Part → Prop}

/-! ## Operands by their form -/

theorem Place.not_isRegister (h : R.Place s w n l) : l.isRegister = false := by
  cases h with
  | indirect => rfl
  | direct place => cases l <;> first | rfl | cases place

theorem Source.cases (h : R.Source s c n l) :
    (l.isRegister = true ∧ ∃ id ∈ c.pool, l = c.location id) ∨
      (l.isRegister = false ∧ R.Place s false n l) := by
  rcases h.place with ⟨id, pool, rfl⟩ | place
  · exact .inl ⟨RegisterClass.isRegister_location c id, id, pool, rfl⟩
  · exact .inr ⟨place.not_isRegister, place⟩

theorem Output.cases (h : R.Output K s c n l) :
    (l.isRegister = true ∧ ∃ id ∈ c.pool, l = c.location id) ∨
      (l.isRegister = false ∧ R.Place s true n l) := by
  rcases h.place with ⟨id, pool, rfl⟩ | place
  · exact .inl ⟨RegisterClass.isRegister_location c id, id, pool, rfl⟩
  · exact .inr ⟨place.not_isRegister, place⟩

/-! ## Operations one after the other -/

/-- Operations that lose nothing, one after the other. -/
theorem Emits.trans (h : R.Emits K s t writes gained)
    (h' : R.Emits K t u writes gained') : R.Emits K s u writes fun p => gained p ∨ gained' p where
  course := h.course.step h'.course
  gains p part := part.elim (fun part => h'.all p (h.gains p part)) (h'.gains p)
  exact r small other exact := h'.exact r small other (h.exact r small other exact)
  all p known := h'.all p (h.all p known)

/-- What an operation comes to while leases are under way. -/
theorem Course.emits (h : R.Course K s₀ s registers held) (h' : R.Does K s t writes gained) :
    R.Course K s₀ t registers held := h.step h'.course

end Regime

open Regime

namespace Lower

variable {R : Regime} {K : Nat → Prop} {s₀ s t u : LoweringState} {registers : List Location}
  {held : List Lease} {c : RegisterClass} {n : Nat} {l dest src : Location}

/-! ## Scratch registers -/

/-- **A place beside the register of a lease** is known when the lease
ends. -/
theorem Releases.knows {x : Lease} (h : Releases R s t x) {m : Nat} (direct : ∀ r, l ≠ .indirectRegister r)
    (output : (∃ c' i, i ∈ RegisterClass.pool c' ∧ l = c'.location i ∧ l ≠ x.location) ∨
      ∃ r o, l.place? = some (r, o))
    (known : R.Knows s m l) : R.Knows t m l := fun p part => by
  have part' : R.parts s m l p := by
    cases l with
    | indirectRegister r => exact absurd rfl (direct r)
    | _ => exact part
  have known := known p part'
  rcases output with ⟨c', i, pool, rfl, other⟩ | ⟨r, o, place⟩
  · rw [parts_location] at part'
    obtain ⟨k, hk, rfl⟩ := part'
    have small := pool_lt pool
    refine h.keeps _ (fun d id' k' eq small' same => ?_) (fun id' big same => ?_)
      (fun id' k' big same => ?_) known
    · refine other (eq.symm ▸ ?_)
      cases d <;> cases c' <;> cases same <;> rfl
    · cases c' <;> cases same
      omega
    · cases c' <;> cases same
      omega
  · obtain ⟨k, rfl, -⟩ := (parts_direct place).1 part'
    exact h.keeps _ (fun d _ _ _ _ same => by cases d <;> cases same) nofun nofun known

/-! ## Whole values -/

theorem load_shape (w : Width) : w.load.shape? =
    some ⟨w.registerClass, w.registerClass, 0, w.words, w.words⟩ := by cases w <;> rfl

theorem load_wide (w : Width) : w.load.form.wide = false ∧ w.load.isAligned = false := by
  cases w <;> decide

theorem store_stored (w : Width) : w.store.stored? = some (w.registerClass, w.words) := by
  cases w <;> rfl

theorem knows_none (l : Location) (memory : l.isRegister = true) : R.Knows s 0 l := fun p part => by
  cases l with
  | register id =>
    obtain ⟨k, hk, -⟩ := part
    cases hk
  | simdRegister id =>
    obtain ⟨k, hk, -⟩ := part
    cases hk
  | _ => cases memory

/-- **Loading a register.** -/
theorem load_results (ready : R.Ready K s) (w : Width) {id : Nat} (pool : id ∈ w.registerClass.pool)
    (source : R.Source s w.registerClass w.words src) :
    Results (emit w.load (w.registerClass.location id) src) s fun _ t =>
      R.Emits K s t (fun r => w.registerClass = .general ∧ r = id) (w.registerClass.parts id w.words) :=
  computes_results ready (load_shape w) pool
    (knows_none _ (RegisterClass.isRegister_location _ _)) source
    (fun aligned => by rw [(load_wide w).2] at aligned; cases aligned)
    (fun wide => by rw [(load_wide w).1] at wide; cases wide)

/-- **What moving a value comes to.** A store by an address shows that it
is one of the block. -/
structure Moves (R : Regime) (K : Nat → Prop) (s t : LoweringState) (c : RegisterClass) (n : Nat)
    (dest : Location) : Prop where
  emits : R.Does K s t (fun _ => c = .general) fun p =>
    (∀ r, dest ≠ .indirectRegister r) ∧ R.parts s n dest p
  after : ∀ r, dest = .indirectRegister r → R.Shows s (R.Soft r) → R.Shows t (R.Exact r)

theorem Moves.knows (h : Moves R K s t c n dest) (direct : ∀ r, dest ≠ .indirectRegister r) :
    R.Knows t n dest := fun p part => h.emits.gains p ⟨direct, by
  cases dest with
  | indirectRegister r => exact absurd rfl (direct r)
  | _ => exact part⟩

/-- **Moving a value** between two places of a class. -/
theorem transfer_results (ready : R.Ready K s) (w : Width)
    (input : R.Input K s w.registerClass w.words src)
    (output : R.Output K s w.registerClass w.words dest) (other : dest ≠ src) :
    Results (transfer w dest src) s fun _ t => Moves R K s t w.registerClass w.words dest := by
  -- A move to or from a register is one instruction, and a move between two places in
  -- memory leases a register for two.
  have words : 0 < w.words := by cases w <;> decide
  unfold transfer
  rw [if_neg other]
  rcases output.cases with ⟨register, id, pool, rfl⟩ | ⟨memory, place⟩
  · rw [if_pos register]
    refine (load_results ready w pool input.source).mono fun _ t emits => ⟨emits.toDoes.mono ?_ ?_, ?_⟩
    · exact fun r h => h.1
    · exact fun p h => (parts_location _ _) ▸ h.2
    · intro r eq
      cases h : w.registerClass <;> rw [h] at eq <;> cases eq
  rw [if_neg (by rw [memory]; exact Bool.false_ne_true)]
  have located : ∀ r, dest = .indirectRegister r → R.Known s (.general r) := fun r eq =>
    (output.held r eq).2
  rcases input.source.cases with ⟨register, id, pool, rfl⟩ | ⟨memory', place'⟩
  · rw [if_pos register]
    refine (stores_results ready (store_stored w) pool input.source.known place located).mono
      fun _ t ⟨emits, after⟩ => ⟨emits.toDoes.mono (fun _ h => h.elim) fun p h => h, after⟩
  rw [if_neg (by rw [memory']; exact Bool.false_ne_true)]
  refine (acquire_results ready _ _).bind fun x t₁ ⟨h₁, calm, id, grants⟩ => ?_
  have ready₁ := h₁.ready ready
  have source := input.course ready.fine h₁.toPath
  have target := output.course h₁.toPath ready
  rw [grants.location]
  refine (load_results ready₁ w grants.pool source.source).bind fun _ t₂ e₂ => ?_
  have h₂ := h₁.emits e₂.toDoes
  have ready₂ := h₂.ready ready
  have target := target.course e₂.course.toPath ready₁
  refine (stores_results ready₂ (store_stored w) grants.pool (fun p part => e₂.gains p ?_)
    (target.place.resolve_left fun ⟨i, _, eq⟩ => ?_) fun r eq => (target.held r eq).2).bind
      fun _ t₃ ⟨e₃, after⟩ => ?_
  · rwa [parts_location] at part
  · rw [eq, RegisterClass.isRegister_location] at memory
    cases memory
  have h₃ := h₂.emits e₃.toDoes
  refine (release_results h₃ ready (List.mem_singleton_self x)).mono fun _ u ⟨h, rel⟩ => ?_
  rw [List.erase_cons_head] at h
  have notHeld {r : Nat} (small : K r) : x.location ≠ .register r := fun eq =>
    grants.notLeased (grants.location ▸ eq ▸ ready.held r small)
  refine ⟨⟨h, fun p gained => ?_, fun r small none exact => ?_⟩, fun r eq soft => ?_⟩
  · have known : R.Knows u w.words dest := rel.knows gained.1 ?_ fun p part =>
      e₃.gains p ⟨gained.1, (e₃.course.toPath.parts (fun r eq => absurd eq (gained.1 r)) p).1 part⟩
    · refine known p ?_
      exact ((h.toPath.parts (fun r eq => absurd eq (gained.1 r)) p).2 gained.2)
    · cases place with
      | indirect => exact absurd rfl (gained.1 _)
      | direct place => exact .inr ⟨_, _, place⟩
  · refine rel.exact r small (fun eq => none ?_)
      (e₃.exact r small not_false (e₂.exact r small (fun h => none h.1) (calm r small exact)))
    rw [grants.location] at eq
    cases h : w.registerClass with
    | general => rfl
    | simd =>
      rw [h] at eq
      cases eq
  · obtain ⟨hk, -⟩ := output.held r eq
    have soft := h₂.soft r hk soft
    exact rel.exact r (ready.lt hk) (notHeld hk) (after r eq soft)

/-- Fetching a value into a register, where it may be already. -/
theorem fetch_results (ready : R.Ready K s) (w : Width) {id : Nat} (pool : id ∈ w.registerClass.pool)
    (source : R.Source s w.registerClass w.words src) :
    Results (transfer w (w.registerClass.location id) src) s fun _ t =>
      R.Emits K s t (fun r => w.registerClass = .general ∧ r = id) (w.registerClass.parts id w.words) := by
  unfold transfer
  split
  · next same =>
    refine .pure ⟨⟨.refl ready.fine, fun p part => source.known p ?_, fun _ _ _ exact => exact⟩,
      fun _ known => known⟩
    rwa [← same, parts_location]
  · rw [if_pos (RegisterClass.isRegister_location _ _)]
    exact load_results ready w pool source

end Lower

namespace Regime

variable {R : Regime} {K : Nat → Prop} {s₀ s t u : LoweringState} {registers : List Location}
  {held : List Lease} {c : RegisterClass} {n : Nat} {l : Location} {w : Bool}
  {writes : Nat → Prop} {gained : Part → Prop} {x : Lease}

/-! ## While leases are under way -/

/-- **An operation on registers of a class**, of which some leases are
under way. -/
structure During (R : Regime) (K : Nat → Prop) (c : RegisterClass) (s t : LoweringState)
    (held : List Lease) : Prop where
  course : R.Course K s t [] held
  calm : c = .simd → R.Calm s t

namespace During

theorem start (ready : R.Ready K s) : R.During K c s s [] := ⟨.refl ready.fine, fun _ _ _ h => h⟩

theorem ready (h : R.During K c s t held) (ready : R.Ready K s) : R.Ready K t := h.course.ready ready

theorem emits (h : R.During K c s t held) (e : R.Does K t u writes gained)
    (allowed : ∀ r, writes r → c = .general) : R.During K c s u held :=
  ⟨h.course.emits e, fun simd r small exact =>
    e.exact r small (fun w => by rw [allowed r w] at simd; cases simd) (h.calm simd r small exact)⟩

/-- A step that leaves nothing behind. -/
theorem step (h : R.During K c s t held) (e : R.Course K t u [] []) (calm : R.Calm t u) :
    R.During K c s u held :=
  ⟨h.course.step e, fun simd r small exact => calm r small (h.calm simd r small exact)⟩

/-- **What an operation comes to** whose leases have ended. -/
theorem done (h : R.During K c s t []) (gains : ∀ p, gained p → R.Known t p) :
    R.Does K s t (fun _ => c = .general) gained :=
  ⟨h.course, gains, fun r small none exact => h.calm (by cases c <;> simp_all) r small exact⟩

end During

end Regime

open Regime

namespace Lower

variable {R : Regime} {K : Nat → Prop} {s₀ s t u : LoweringState} {registers : List Location}
  {held : List Lease} {c d : RegisterClass} {n : Nat} {l dest src out : Location} {v : Value}

/-- **A register is leased** for an operation. -/
theorem during_acquire (h : R.During K c s t held) (ready : R.Ready K s) (avoid : List Location) :
    Results (acquire d avoid) t fun x u => R.During K c s u (held ++ [x]) ∧ R.Course K t u [] [x] ∧
      ∃ id, t.layout.Grants u.layout d avoid x id :=
  (acquire_results (h.ready ready) d avoid).mono fun x u ⟨course, calm, grants⟩ =>
    ⟨⟨by simpa using h.course.trans course, fun simd r small exact =>
      calm r small (h.calm simd r small exact)⟩, course, grants⟩

/-- **A register is given back** by an operation. -/
theorem during_release (h : R.During K c s t held) (ready : R.Ready K s) {x : Lease} (hx : x ∈ held)
    (general : ∀ r, x.location = .register r → c = .general) :
    Results (release x) t fun _ u => R.During K c s u (held.erase x) ∧ Releases R t u x :=
  (release_results h.course ready hx).mono fun _ u ⟨course, rel⟩ =>
    ⟨⟨course, fun simd r small exact => rel.exact r small
      (fun eq => by rw [general r eq] at simd; cases simd) (h.calm simd r small exact)⟩, rel⟩

/-! ## Accumulators -/

/-- **A register to compute in**: that of the result, or a leased one. -/
structure Accumulates (R : Regime) (K : Nat → Prop) (c : RegisterClass) (s t : LoweringState)
    (held : List Lease) (out : Location) (id : Nat) (lease : Option Lease) : Prop where
  during : R.During K c s t (held ++ lease.toList)
  pool : id ∈ c.pool
  location : ∀ x ∈ lease, x.location = c.location id
  own : lease = none → out = c.location id
  memory : ∀ x ∈ lease, out.isRegister = false
  free : ∀ x ∈ lease, c.location id ∉ s.layout.leased

theorem accumulator_results (ready : R.Ready K s) (output : R.Output K s c n out) (avoid : List Location) :
    Results (accumulator out c avoid) s fun r t =>
      ∃ id, r.1 = c.location id ∧ Accumulates R K c s t [] out id r.2 := by
  unfold accumulator
  rcases output.cases with ⟨register, id, pool, rfl⟩ | ⟨memory, place⟩
  · rw [if_pos (by cases c <;> rfl)]
    exact .pure ⟨id, rfl, .start ready, pool, by simp, fun _ => rfl, by simp, by simp⟩
  · rw [if_neg (by rw [memory]; simp)]
    refine (during_acquire (c := c) (.start ready) ready avoid).bind fun x t ⟨during, _, id, grants⟩ => ?_
    exact .pure ⟨id, grants.location, during, grants.pool, by simpa using grants.location, by simp,
      by simpa using memory, by simpa using grants.notLeased⟩

/-- **Settling a result** that an accumulator holds. -/
theorem settle_results (w : Width) {lease : Option Lease} {id : Nat} (ready : R.Ready K s)
    (output : R.Output K s w.registerClass w.words out) {t₀ : LoweringState}
    (acc : Accumulates R K w.registerClass s t₀ [] out id lease)
    (during : R.During K w.registerClass s t lease.toList)
    (known : R.Knows t w.words (w.registerClass.location id)) :
    Results (settle out (w.registerClass.location id) lease w) t fun _ u =>
      Moves R K s u w.registerClass w.words out := by
  unfold settle
  cases lease with
  | none =>
    obtain rfl := acc.own rfl
    exact .pure ⟨during.done fun p gained => known p (by
        rw [parts_location]; exact (parts_location _ _) ▸ gained.2),
      fun r eq => by cases h : w.registerClass <;> rw [h] at eq <;> cases eq⟩
  -- The accumulator is a lease of its own, so the result is moved to its place before
  -- the lease ends.
  | some x =>
    have memory := acc.memory x rfl
    have location := acc.location x rfl
    have other : out ≠ w.registerClass.location id := fun eq => by
      rw [eq, RegisterClass.isRegister_location] at memory
      cases memory
    have input : R.Input K t w.registerClass w.words (w.registerClass.location id) :=
      .register acc.pool (by cases w <;> decide) known
    have output' := output.course during.course.toPath ready
    refine (transfer_results (during.ready ready) w input output' other).bind fun _ t₁ moves => ?_
    have during₁ := during.emits moves.emits fun _ h => h
    refine (during_release during₁ ready (List.mem_singleton_self x) fun r eq => ?_).mono
      fun _ u ⟨during₂, rel⟩ => ?_
    · rw [location] at eq
      cases h : w.registerClass with
      | general => rfl
      | simd =>
        rw [h] at eq
        cases eq
    rw [Option.toList_some, List.erase_cons_head] at during₂
    refine ⟨during₂.done fun p gained => ?_, fun r eq soft => ?_⟩
    · have place := output.place.resolve_left fun ⟨i, _, eq⟩ => by
        rw [eq, RegisterClass.isRegister_location] at memory
        cases memory
      refine rel.knows gained.1 ?_ (moves.knows gained.1) p ?_
      · cases place with
        | indirect => exact absurd rfl (gained.1 _)
        | direct place => exact .inr ⟨_, _, place⟩
      · exact (during₂.course.toPath.parts (fun r eq => absurd eq (gained.1 r)) p).2 gained.2
    · obtain ⟨hk, -⟩ := output.held r eq
      refine rel.exact r (ready.lt hk) (fun same => ?_)
        (moves.after r eq (during.course.soft r hk soft))
      exact acc.free x rfl (location ▸ same ▸ ready.held r hk)

/-- **Moving a value**, which may be in its place already. -/
theorem move_results (ready : R.Ready K s) (w : Width)
    (input : R.Input K s w.registerClass w.words src)
    (output : R.Output K s w.registerClass w.words dest) :
    Results (transfer w dest src) s fun _ t =>
      R.Does K s t (fun _ => w.registerClass = .general) (fun p =>
        (∀ r, dest ≠ .indirectRegister r) ∧ R.parts s w.words dest p) ∧
      (dest ≠ src → ∀ r, dest = .indirectRegister r → R.Shows s (R.Soft r) → R.Shows t (R.Exact r)) := by
  by_cases same : dest = src
  · unfold transfer
    rw [if_pos same]
    exact .pure ⟨⟨.refl ready.fine, fun p gained => input.source.known p (same ▸ gained.2),
      fun _ _ _ exact => exact⟩, fun other => absurd same other⟩
  · exact (transfer_results ready w input output same).mono fun _ t moves => ⟨moves.emits, fun _ => moves.after⟩

/-- **Rows one after the other**, with what holds in front of each. -/
theorem forRows_results {action : Nat → Lower Unit} {I : Nat → LoweringState → Prop} (rows : Nat)
    (first : I 0 s)
    (each : ∀ row < rows, ∀ t, I row t → Results (action row) t fun _ u => I (row + 1) u) :
    Results (forRows rows action) s fun _ t => I rows t := by
  unfold forRows
  induction rows with
  | zero => exact .pure first
  | succ rows ih =>
    have last : (List.range (rows + 1)).forM action =
        (do (List.range rows).forM action; [rows].forM action) := by
      rw [List.range_succ]
      exact List.forM_append
    rw [last]
    refine (ih fun row inside => each row (Nat.lt_succ_of_lt inside)).bind fun _ t holds => ?_
    exact (each rows (Nat.lt_succ_self rows) t holds).bind fun _ u holds => .pure holds

/-- **Known rows** of memory are known memory. -/
theorem knows_rows {r : Region} {o rows : Nat} (place : l.place? = some (r, o))
    (known : ∀ row < rows, R.Knows s 4 (l.offsetBy (row * 16))) : R.Knows s (4 * rows) l := fun p part => by
  obtain ⟨k, rfl, low, high⟩ := (parts_direct place).1 part
  have offset (row : Nat) : (l.offsetBy (row * 16)).place? = some (r, o + row * 16) := by
    cases l <;> cases place <;> rfl
  have start (x : Nat) : R.offsetOf r (o + x) = R.offsetOf r o + x := by
    cases r
    · rfl
    · exact (Nat.add_assoc _ _ _).symm
  refine known ((k - R.offsetOf r o) / 16) (by omega) _ ((parts_direct (offset _)).2 ⟨k, rfl, ?_, ?_⟩) <;>
    rw [start] <;> omega

/-- **Moving the rows of a matrix.** -/
theorem transferRows_results (ready : R.Ready K s) {rows : Nat} {r : Region} {o : Nat}
    (place : dest.place? = some (r, o))
    (input : ∀ row < rows, R.Input K s .simd 4 (src.offsetBy (row * 16)))
    (output : ∀ row < rows, R.Output K s .simd 4 (dest.offsetBy (row * 16))) :
    Results (transferRows rows dest src) s fun _ t =>
      R.Does K s t (fun _ => False) (R.parts s (4 * rows) dest) := by
  have direct (x r : Nat) : dest.offsetBy x ≠ .indirectRegister r := fun eq => by
    cases dest <;> cases place <;> cases eq
  unfold transferRows
  refine (forRows_results (I := fun row t => R.During K .simd s t [] ∧
    ∀ j < row, R.Knows t 4 (dest.offsetBy (j * 16))) rows ⟨.start ready, nofun⟩ ?_).mono ?_
  · rintro row inside t ⟨during, known⟩
    have input := (input row inside).course ready.fine during.course.toPath
    have target := (output row inside).course during.course.toPath ready
    simp only [Nat.mul_comm 16 row]
    refine (move_results (during.ready ready) .packed input target).mono fun _ u ⟨emits, _⟩ => ?_
    refine ⟨during.emits emits fun _ h => h, fun j hj => ?_⟩
    rcases Nat.lt_succ_iff_lt_or_eq.1 hj with hj | rfl
    · have earlier := (output j (by omega)).course during.course.toPath ready
      exact earlier.knows emits.course.toPath (known j hj)
    · refine fun p part => emits.gains p ⟨direct _, ?_⟩
      exact (emits.course.toPath.parts (fun r eq => absurd eq (direct _ r)) p).1 part
  · rintro _ t ⟨during, known⟩
    refine (during.done fun p gained => knows_rows place known p ?_).mono (by simp) fun _ h => h
    exact (during.course.toPath.parts (fun r eq => by rw [eq] at place; cases place) p).2 gained

/-! ## Whole values -/

/-- A number in a register of its class or in memory. -/
theorem number_of_scalar {ty : Ty} (scalar : ty.isScalar = true) : ty = .int ∨ ty = .float := by
  revert scalar
  cases ty <;> decide

/-- Values of a type that is moved at once. -/
theorem ofTy_width {ty : Ty} (storage : ty.size ≠ 0) (whole : ty.isMatrix = false) :
    RegisterClass.ofTy? ty = some (Width.ofTy ty).registerClass ∧ ty.size / 4 = (Width.ofTy ty).words := by
  revert storage whole
  cases ty <;> decide

theorem integral_iff {ty : Ty} (storage : ty.size ≠ 0) :
    (Width.ofTy ty).registerClass = .general ↔ ty.isIntegral = true := by
  revert storage
  cases ty <;> decide

/-- Values are stored as they are, but for numbers of the other type. -/
theorem eq_of_assignable {ty ty' : Ty} (fits : ty.assignable ty' = true)
    (float : ty = .float → ty' = .int → False) (int : ty = .int → ty' = .float → False) :
    ty' = ty ∧ ty.size ≠ 0 := by
  revert fits float int
  cases ty <;> cases ty' <;> decide

/-- **What storing a value of a type comes to.** -/
structure Stores (R : Regime) (K : Nat → Prop) (s t : LoweringState) (ty : Ty) (dest src : Location) :
    Prop where
  emits : R.Does K s t (fun _ => ty.isIntegral = true) fun p =>
    (∀ r, dest ≠ .indirectRegister r) ∧ R.parts s (ty.size / 4) dest p
  after : dest ≠ src → ∀ r, dest = .indirectRegister r → R.Shows s (R.Soft r) → R.Shows t (R.Exact r)

/-- **An operation in an accumulator** whose result is settled. -/
theorem accumulate_results (w : Width) (ready : R.Ready K s) (avoid : List Location)
    (output : R.Output K s w.registerClass w.words out) {f : Location → Lower Unit}
    (step : ∀ id ∈ w.registerClass.pool, ∀ t held, R.During K w.registerClass s t held →
      Results (f (w.registerClass.location id)) t fun _ u =>
        R.During K w.registerClass s u held ∧ R.Knows u w.words (w.registerClass.location id)) :
    Results (do
      let (acc, lease) ← accumulator out w.registerClass avoid
      f acc
      settle out acc lease w : Lower Unit) s fun _ t => Moves R K s t w.registerClass w.words out := by
  refine (accumulator_results ready output avoid).bind ?_
  rintro ⟨_, lease⟩ t ⟨id, rfl, acc⟩
  refine (step id acc.pool t lease.toList acc.during).bind fun _ u ⟨during, known⟩ => ?_
  exact settle_results w ready output acc during known

/-- **Storing a value in a place that is no lane.** -/
theorem storeWhole_results (ready : R.Ready K s) {ty : Ty} (fits : ty.assignable v.ty = true)
    (reads : R.Reads K s v) (writes : R.Writes K s ty dest) :
    Results (storeWhole dest ty v) s fun _ t => Stores R K s t ty dest v.location := by
  unfold storeWhole
  split
  · next value =>
    have input := reads.whole .general (by rw [value]; rfl)
    rw [value] at input
    refine (accumulate_results .single ready _ (writes.whole .simd rfl)
      (f := fun acc => emit .cvtsi2ss acc v.location) ?_).mono
      fun _ t moves => ⟨moves.emits.mono nofun fun _ h => h, fun _ => moves.after⟩
    intro id pool t held during
    have source := (input.course ready.fine during.course.toPath).source
    refine (computes_results (during.ready ready)
      (rfl : Opcode.cvtsi2ss.shape? = some ⟨.simd, .general, 0, 1, 1⟩) pool
      (knows_none _ rfl) source (fun h => absurd h (by decide)) fun h => absurd h (by decide)).mono
      fun _ u emits => ⟨during.emits emits.toDoes fun _ h => h.1, fun p part => emits.gains p part⟩
  · next value =>
    have input := reads.whole .simd (by rw [value]; rfl)
    rw [value] at input
    refine (accumulate_results .dword ready _ (writes.whole .general rfl)
      (f := fun acc => emit .cvttss2si acc v.location) ?_).mono
      fun _ t moves => ⟨moves.emits.mono (fun _ _ => rfl) fun _ h => h, fun _ => moves.after⟩
    intro id pool t held during
    have source := (input.course ready.fine during.course.toPath).source
    refine (computes_results (during.ready ready)
      (rfl : Opcode.cvttss2si.shape? = some ⟨.general, .simd, 0, 1, 1⟩) pool
      (knows_none _ rfl) source (fun h => absurd h (by decide)) fun h => absurd h (by decide)).mono
      fun _ u emits => ⟨during.emits emits.toDoes fun _ h => h.1, fun p part => emits.gains p part⟩
  -- Without a conversion the value has the type of the slot; a matrix is stored row by
  -- row.
  · rename_i ty _ _ float int
    obtain ⟨same, storage⟩ := eq_of_assignable fits float int
    split
    · next matrix =>
      obtain ⟨r, o, place⟩ := writes.memory matrix
      have rows := reads.rows (same ▸ matrix)
      rw [same] at rows
      refine (transferRows_results ready place rows (writes.rows matrix)).mono fun _ t emits =>
        ⟨emits.mono nofun fun p gained => ?_, fun _ r eq => ?_⟩
      · have size : ty.size / 4 = 4 * ty.elementCount := by
          revert matrix
          cases ty <;> decide
        exact size ▸ gained.2
      · rw [eq] at place
        cases place
    · next whole =>
      obtain ⟨cls, words⟩ := ofTy_width storage (by simpa using whole)
      have input := reads.whole _ (same ▸ cls)
      rw [same, words] at input
      have output := writes.whole _ cls
      rw [words] at output
      refine (move_results ready _ input output).mono fun _ t ⟨emits, after⟩ => ⟨emits.mono ?_ ?_, after⟩
      · exact fun _ general => (integral_iff storage).1 general
      · exact fun p gained => words ▸ gained

/-- An SSE register can be written as a float. -/
theorem writes_register {id : Nat} (pool : id ∈ RegisterClass.simd.pool) :
    R.Writes K s .float (.simdRegister id) where
  memory := nofun
  whole := fun c ofTy => by
    cases ofTy
    exact .register pool (by decide)
  rows := nofun

/-- **Storing a number in an SSE register** as a float. -/
theorem storeFloat_results (ready : R.Ready K s) {id : Nat} (pool : id ∈ RegisterClass.simd.pool)
    (scalar : v.ty.isScalar = true) (reads : R.Reads K s v) :
    Results (storeWhole (.simdRegister id) .float v) s fun _ t =>
      R.Does K s t (fun _ => False) (RegisterClass.simd.parts id 1) := by
  have fits : Ty.float.assignable v.ty = true := by
    rcases number_of_scalar scalar with ty | ty <;> rw [ty] <;> rfl
  exact (storeWhole_results ready fits reads (writes_register pool)).mono fun _ t stores =>
    stores.emits.mono nofun fun p part => ⟨nofun, part⟩

/-! ## Leases of operations -/

theorem erase_last {x : Lease} (h : s₀.Leads s registers (held ++ [x])) : (held ++ [x]).erase x = held := by
  have nodup := h.layout.nodup_held.of_map
  have new : x ∉ held := fun hx =>
    (List.nodup_append.1 nodup).2.2 x hx x (List.mem_singleton_self x) rfl
  rw [List.erase_append_right _ new, List.erase_cons_head, List.append_nil]

/-- **The lease that was granted last ends.** -/
theorem during_releaseLast (held : List Lease) {x : Lease} (h : R.During K c s t (held ++ [x])) (ready : R.Ready K s)
    (general : ∀ r, x.location = .register r → c = .general) :
    Results (release x) t fun _ u => R.During K c s u held ∧ Releases R t u x := by
  have := during_release h ready (List.mem_append_right _ (List.mem_singleton_self x)) general
  rwa [erase_last h.course.leads] at this

/-- The lease that was granted last ends, if there is one. -/
theorem during_releaseOption {lease : Option Lease} (h : R.During K c s t (held ++ lease.toList))
    (ready : R.Ready K s) (simd : ∀ x ∈ lease, ∃ id, x.location = .simdRegister id) :
    Results (releaseOption lease) t fun _ u => R.During K c s u held ∧
      ∀ d i m, i ∈ RegisterClass.pool d → (∀ x ∈ lease, x.location ≠ d.location i) →
        R.Knows t m (d.location i) → R.Knows u m (d.location i) := by
  cases lease with
  | none =>
    rw [Option.toList_none, List.append_nil] at h
    exact .pure ⟨h, fun _ _ _ _ _ known => known⟩
  | some x =>
    obtain ⟨id, location⟩ := simd x rfl
    refine (during_releaseLast _ h ready fun r eq => by
      rw [location] at eq; cases eq).mono fun _ u ⟨during, rel⟩ => ?_
    refine ⟨during, fun d i m pool other known => rel.knows (fun r eq => by cases d <;> cases eq)
      (.inl ⟨d, i, pool, rfl, fun same => other x rfl same.symm⟩) known⟩

/-- **A float where it is**, or an integer converted in a leased
register. -/
theorem floatOperand_results (h : R.During K .simd s t held) (ready : R.Ready K s)
    (scalar : v.ty.isScalar = true) (reads : R.Reads K t v) (avoid : List Location) :
    Results (floatOperand v avoid) t fun r u => R.During K .simd s u (held ++ r.2.toList) ∧
      R.Course K t u [] r.2.toList ∧ R.Input K u .simd 1 r.1 ∧
      ∀ x ∈ r.2, ∃ id, x.location = .simdRegister id ∧ id ∉ registersOf .simd avoid := by
  unfold floatOperand
  rcases number_of_scalar scalar with ty | ty
  · have input := reads.whole .general (by rw [ty]; rfl)
    rw [ty] at input
    rw [if_neg (by rw [ty]; decide)]
    refine (during_acquire h ready avoid).bind fun x t₁ ⟨during, course, id, grants⟩ => ?_
    have source := (input.course (h.ready ready).fine course.toPath).source
    rw [grants.location]
    refine (computes_results (during.ready ready)
      (rfl : Opcode.cvtsi2ss.shape? = some ⟨.simd, .general, 0, 1, 1⟩) grants.pool
      (knows_none _ rfl) source (fun h => absurd h (by decide)) fun h => absurd h (by decide)).bind
        fun _ u emits => ?_
    exact .pure ⟨during.emits emits.toDoes (fun _ h => by cases h.1), course.emits emits.toDoes,
      .register grants.pool (by decide) fun p part => emits.gains p part,
      by simpa using ⟨id, grants.location, grants.clear⟩⟩
  · have input := reads.whole .simd (by rw [ty]; rfl)
    rw [ty] at input
    rw [if_pos ty]
    exact .pure ⟨by simpa using h, .refl (h.ready ready).fine, input, by simp⟩

/-! ## Lanes -/

/-- **A pooled constant** as an operand. -/
theorem during_constant (h : R.During K c s t held) (ready : R.Ready K s) (k : Lanes) :
    Results (constant (.vector k)) t fun l u => R.During K c s u held ∧ R.Course K t u [] [] ∧
      R.Source u .simd 4 l ∧ R.ExactAt u l ∧
      ∃ offset, l = .globalMemory offset ∧ (.vector k, offset) ∈ u.constants.slots := by
  refine (constant_results (h.ready ready) (.vector k)).mono ?_
  rintro _ u ⟨course, calm, offset, rfl, pooled⟩
  exact ⟨h.step course calm, course, source_constant course.fine pooled rfl, nofun, offset, rfl, pooled⟩

/-- An opcode that combines the lanes of two registers, or of a register
and memory. -/
theorem packed_results (ready : R.Ready K s) {o : Opcode}
    (packed : o.shape? = some ⟨.simd, .simd, 4, 4, 4⟩) {id : Nat} (pool : id ∈ RegisterClass.simd.pool)
    (known : R.Knows s 4 (.simdRegister id)) (source : R.Source s .simd 4 src) (exact : R.ExactAt s src) :
    Results (emit o (.simdRegister id) src) s fun _ t =>
      R.Emits K s t (fun _ => False) (RegisterClass.simd.parts id 4) :=
  (computes_results ready packed pool known source (fun _ => exact) nofun).mono
    fun _ t emits => emits.mono (by simp) fun _ h => h

theorem exactAt_register (id : Nat) : R.ExactAt s (.simdRegister id) := nofun

/-- **A lane of a register is written.** -/
theorem writeLane_results (ready : R.Ready K s) {simd : Nat} (pool : simd ∈ RegisterClass.simd.pool)
    (known : R.Knows s 4 (.simdRegister simd)) (shift : Nat) (scalar : v.ty.isScalar = true)
    (reads : R.Reads K s v) :
    Results (writeLane simd shift v) s fun _ t =>
      R.Does K s t (fun _ => False) (RegisterClass.simd.parts simd 4) := by
  have target : R.Input K s .simd 4 (.simdRegister simd) := .register pool (by decide) known
  unfold writeLane
  -- The value is masked down to its first lane, shifted to the place of its own lane,
  -- and joined with a target in which that lane has been cleared.
  refine (during_acquire (c := .simd) (.start ready) ready _).bind
    fun x t₁ ⟨during₁, _, id, grants⟩ => ?_
  rw [grants.location]
  have reads₁ := reads.course ready.fine during₁.course.toPath
  refine (storeFloat_results (during₁.ready ready) grants.pool scalar reads₁).bind fun _ t₂ e₂ => ?_
  have during₂ := during₁.emits e₂ nofun
  refine (during_constant during₂ ready lane0Mask).bind ?_
  rintro _ t₃ ⟨during₃, course₃, -, -, offset, rfl, pooled⟩
  have first : R.Known t₃ (.lane id 0) := by
    have input : R.Input K t₂ .simd 1 (.simdRegister id) :=
      .register grants.pool (by decide) fun p part => e₂.gains p part
    exact (input.course (during₂.ready ready).fine course₃.toPath).source.known _ ⟨0, by decide, rfl⟩
  refine (keepFirst_results (during₃.ready ready) grants.pool first pooled ⟨rfl, rfl, rfl⟩).bind
    fun _ t₄ e₄ => ?_
  have during₄ := during₃.emits e₄.toDoes nofun
  have shifted : Results (if 0 < shift then emitUnary .pslldq (.simdRegister id) [UInt8.ofNat shift]
      else pure ()) t₄ fun _ u =>
        R.Does K t₄ u (fun _ => False) (RegisterClass.simd.parts id 4) := by
    split
    · exact (shift_results (during₄.ready ready) rfl grants.pool _ fun p part => e₄.gains p part).mono
        fun _ _ emits => emits.toDoes
    · exact .pure ⟨.refl (during₄.ready ready).fine, e₄.gains, fun _ _ _ h => h⟩
  dsimp only
  refine Results.optional shifted fun t₅ e₅ => ?_
  have during₅ := during₄.emits e₅ nofun
  refine (during_constant during₅ ready (clearMask (shift / 4))).bind ?_
  rintro _ t₆ ⟨during₆, course₆, source, exact, -⟩
  have target₆ := target.course ready.fine during₆.course.toPath
  refine (packed_results (during₆.ready ready) (o := .andps) rfl pool target₆.source.known source exact).bind
    fun _ t₇ e₇ => ?_
  have during₇ := during₆.emits e₇.toDoes nofun
  have value : R.Input K t₅ .simd 4 (.simdRegister id) :=
    .register grants.pool (by decide) fun p part => e₅.gains p part
  have value := (value.course (during₅.ready ready).fine course₆.toPath).course (during₆.ready ready).fine
    e₇.course.toPath
  refine (packed_results (during₇.ready ready) (o := .orps) rfl pool (fun p part => e₇.gains p part)
    value.source (exactAt_register id)).bind fun _ t₈ e₈ => ?_
  have during₈ := during₇.emits e₈.toDoes nofun
  refine (during_releaseLast _ during₈ ready fun r eq => ?_).mono fun _ u ⟨during, _⟩ => ?_
  · rw [grants.location] at eq
    cases eq
  · refine (during.done fun p part => ?_).mono nofun fun _ h => h
    exact (target.course ready.fine during.course.toPath).source.known p part

/-- **Storing a value in a place of a type.** A lane that is written is in
a register of which all lanes are known. -/
theorem store_results (ready : R.Ready K s) {ty : Ty} (fits : ty.assignable v.ty = true)
    (reads : R.Reads K s v)
    (lane : ∀ simd shift, dest = .registerLane simd shift → ty = .float ∧
      simd ∈ RegisterClass.simd.pool ∧ R.Knows s 4 (.simdRegister simd))
    (writes : (∀ simd shift, dest ≠ .registerLane simd shift) → R.Writes K s ty dest) :
    Results (store dest ty v) s fun _ t => Stores R K s t ty dest v.location := by
  cases dest with
  | registerLane simd shift =>
    obtain ⟨rfl, pool, known⟩ := lane simd shift rfl
    have scalar : v.ty.isScalar = true := by
      revert fits
      cases v.ty <;> decide
    exact (writeLane_results ready pool known shift scalar reads).mono fun _ t emits =>
      ⟨emits.mono nofun fun p h => h.2, fun _ _ eq => by cases eq⟩
  | _ => exact storeWhole_results ready fits reads (writes nofun)

end Lower

end Shading
