import Shading.Proofs.Discipline.Operations
import Shading.Proofs.Lowering.Arithmetic

/-!
# Operations on scalars along a course

Numbers are computed with in an accumulator. A division works in `eax`
and `edx`, whatever is known of them: both are saved in scratch words,
which nothing else relies on, and what was known of them is known again
when they are loaded.
-/

namespace Shading

open LoweringState Regime

namespace Lower

variable {R : Regime} {K : Nat → Prop} {s₀ s t u : LoweringState} {registers : List Location}
  {held : List Lease} {c d : RegisterClass} {n : Nat} {l dest src out : Location} {v lhs rhs : Value}

/-! ## Floats -/

/-- **An operation between two numbers**, as floats. -/
theorem floats_leaves (ready : R.Ready K s) {o : Opcode} (shape : o.shape? = some ⟨.simd, .simd, 1, 1, 1⟩)
    (left : lhs.ty.isScalar = true) (right : rhs.ty.isScalar = true) (readsL : R.Reads K s lhs)
    (readsR : R.Reads K s rhs) (output : R.Output K s .simd 1 out)
    (direct : ∀ r, out ≠ .indirectRegister r) :
    Results (do
      let (acc, lease) ← accumulator out .simd [out, lhs.location, rhs.location]
      store acc .float lhs
      let (right, rightLease) ← floatOperand rhs [acc, out, lhs.location, rhs.location]
      emit o acc right
      releaseOption rightLease
      settle out acc lease .single : Lower Unit) s fun _ t => Leaves R K s t 1 out := by
  refine (accumulator_results ready output _).bind ?_
  rintro ⟨_, lease⟩ t ⟨id, rfl, acc⟩
  have reads := readsL.course ready.fine acc.during.course.toPath
  refine (storeFloat_results (acc.during.ready ready) acc.pool left reads).bind fun _ t₁ e₁ => ?_
  have during₁ := acc.during.emits e₁ nofun
  rw [List.nil_append] at during₁
  have reads := readsR.course ready.fine during₁.course.toPath
  refine (floatOperand_results during₁ ready right reads _).bind ?_
  rintro ⟨l, rightLease⟩ t₂ ⟨during₂, course, input, apart⟩
  have value : R.Input K t₁ .simd 1 (.simdRegister id) :=
    .register acc.pool (by decide) fun p part => e₁.gains p part
  have value := value.course (during₁.ready ready).fine course.toPath
  have aligned : o.isAligned = true → R.ExactAt t₂ l := fun h =>
    absurd ((form_of_shape shape).2.2.2.2.2 h) (by decide)
  refine (computes_results (during₂.ready ready) shape acc.pool value.source.known input.source aligned
    fun _ h => by cases h).bind fun _ t₃ e₃ => ?_
  have during₃ := during₂.emits e₃.toDoes fun _ h => by cases h.1
  refine (during_releaseOption during₃ ready fun x hx => ?_).bind fun _ t₄ ⟨during₄, keeps⟩ => ?_
  · obtain ⟨id, eq, -⟩ := apart x hx
    exact ⟨id, eq⟩
  have known := keeps .simd id 1 acc.pool (fun x hx eq => by
    obtain ⟨id', eq', clear⟩ := apart x hx
    rw [eq'] at eq
    exact ne_of_avoided clear (List.mem_cons_self ..) eq.symm) fun p part => e₃.gains p part
  exact (settle_results .single ready output acc during₄ known).mono fun _ u moves =>
    moves.leaves ready direct

/-- Computing with floats. -/
theorem scalarFloat_leaves (ready : R.Ready K s) (op : BinaryOp) (left : lhs.ty.isScalar = true)
    (right : rhs.ty.isScalar = true) (readsL : R.Reads K s lhs) (readsR : R.Reads K s rhs)
    (output : R.Output K s .simd 1 out) (direct : ∀ r, out ≠ .indirectRegister r) :
    Results (scalarFloat op out lhs rhs) s fun _ t => Leaves R K s t 1 out :=
  floats_leaves ready (by cases op <;> rfl) left right readsL readsR output direct

/-! ## Divisions -/

/-- **A scratch word of divisions.** -/
def Scratch (s : LoweringState) (o : Nat) : Prop :=
  ∃ x, s.divisionSlots = some (.at x) ∧ (o = x ∨ o = x + 4 ∨ o = x + 8)

/-- A scratch word has been handed out. -/
theorem Scratch.uses (fine : R.Fine s) {o : Nat} (scratch : Scratch s o) :
    s.Uses .division ⟨.global, o, 4⟩ ∧ o + 4 ≤ s.layout.globalSize := by
  obtain ⟨x, known, one⟩ := scratch
  obtain ⟨x', eq, -, top, -⟩ := fine.ok.division _ known
  obtain rfl : x = x' := by simpa [DivisionSlots.at] using eq
  have location : Location.globalMemory o = (DivisionSlots.at x).eax ∨ .globalMemory o = (DivisionSlots.at x).edx ∨
      .globalMemory o = (DivisionSlots.at x).divisor := by simpa [DivisionSlots.at] using one
  refine ⟨.division known location rfl, ?_⟩
  exact Nat.le_trans (by omega : o + 4 ≤ s.globalTop) fine.ok.layout.globalTop

theorem Scratch.place (fine : R.Fine s) {o : Nat} (scratch : Scratch s o) (w : Bool) :
    R.Place s w 1 (.globalMemory o) :=
  .direct rfl (scratch.uses fine).1 ⟨rfl, Nat.le_refl _, Nat.le_refl _⟩ (scratch.uses fine).2
    (fun _ => trivial) nofun (by rintro ⟨⟩)

theorem division_course {x : Nat} (slots : s.divisionSlots = some (.at x)) (h : R.Path K s t registers held) :
    t.divisionSlots = some (.at x) := by
  rcases h.leads.division with same | ⟨none, -⟩
  · rw [same, slots]
  · rw [slots] at none
    cases none

/-- The bytes of a word of global memory are known. -/
def WordKnown (R : Regime) (s : LoweringState) (o : Nat) : Prop := ∀ j, o ≤ j → j < o + 4 → R.Known s (.byte j)

theorem wordKnown_iff {o : Nat} : WordKnown R s o ↔ R.Knows s 1 (.globalMemory o) :=
  ⟨fun h _ ⟨j, eq, low, high⟩ => eq ▸ h j low high, fun h j low high => h _ ⟨j, rfl, low, high⟩⟩

/-- **A register is saved in a scratch word**: all else is as it was. -/
theorem saveScratch_results (ready : R.Ready K s) {o r : Nat} (scratch : Scratch s o)
    (pool : r ∈ RegisterClass.general.pool) :
    Results (emitStore .movStore (.globalMemory o) (.register r)) s fun _ t => R.Course K s t [] [] ∧
      (R.Known s (.general r) → WordKnown R t o) ∧
      ∀ o', o + 4 ≤ o' ∨ o' + 4 ≤ o → WordKnown R s o' → WordKnown R t o' := by
  have place := scratch.place (R := R) ready.fine true
  have admits := admits_store (K := K) (o := .movStore) (p := .globalAt o) ready.fine rfl pool place rfl nofun
  obtain ⟨text, run⟩ := emitStore_eq (s := s) .movStore (m := .globalMemory o) (r := .register r) rfl rfl
  refine .intro run ⟨admits.course ready text ?_, fun known j low high => ?_,
    fun o' apart known j low high => ?_⟩
  · rintro _ ⟨-, j, rfl, low, high⟩ ⟨outside, -⟩
    obtain ⟨x, known, one⟩ := scratch
    have := outside x known
    omega
  · exact admits.gains ready.fine text ⟨nofun, 0, Nat.one_pos, known, j, rfl, low, high⟩
  · refine admits.keeps ready.fine text ?_ (known j low high)
    rintro ⟨-, k, eq, low', high'⟩
    cases eq
    omega

/-- **A saved register is loaded again**, at the end of a course that
started when it was saved. -/
theorem reloadScratch_results (h : R.Course K s₀ s registers held) (ready₀ : R.Ready K s₀) {o r : Nat}
    (scratch : Scratch s o) (pool : r ∈ RegisterClass.general.pool)
    (saved : R.Known s₀ (.general r) → WordKnown R s o) :
    Results (emit .movLoad (.register r) (.globalMemory o)) s fun _ t => R.Course K s₀ t registers held ∧
      t.divisionSlots = s.divisionSlots ∧ ∀ p, (∀ id, p ≠ .general id) → R.Known s p → R.Known t p := by
  have ready := h.ready ready₀
  obtain ⟨uses, bound⟩ := scratch.uses ready.fine
  have admits : R.Admits K s ⟨.movLoad, r, .globalAt o, []⟩ _ _ :=
    ⟨carried_reload ready.fine pool (.inl ⟨rfl, rfl, rfl⟩) uses bound, fun _ _ taken =>
      (scratch.place ready.fine false).other ready.fine rfl Nat.one_pos taken⟩
  obtain ⟨text, run⟩ := emit_eq (s := s) .movLoad (r := .register r) (m := .globalMemory o) rfl rfl []
  refine .intro run ⟨admits.continues ready text h nofun ?_, rfl, fun p other known => ?_⟩
  · rintro _ ⟨id, k, rfl, same⟩ kept before
    have small : id < 8 := kept
    have small' := pool_lt pool
    obtain rfl : id = r := by omega
    exact admits.gains ready.fine text ⟨0, Nat.one_pos, rfl, fun j low high => saved before j (by omega) (by omega)⟩
  · exact admits.keeps ready.fine text (fun ⟨id, k, eq, _⟩ => other id eq) known

/-- What can be read before an operation that loses nothing can be read
after it. -/
theorem source_emits {writes : Nat → Prop} {gained : Part → Prop} (e : R.Emits K s t writes gained)
    (source : R.Source s c n l) (heldAt : ∀ id, l = .indirectRegister id → K id) : R.Source t c n l where
  place := source.place.imp_right e.course.toPath.place
  known p part := e.all p (source.known p ((e.course.toPath.parts heldAt p).1 part))

/-- **What is saved around a division**: `eax` and `edx` in two scratch
words. -/
structure Saves (R : Regime) (s t : LoweringState) (x : Nat) : Prop where
  slots : t.divisionSlots = some (.at x)
  eax : R.Known s (.general 0) → WordKnown R t x
  edx : R.Known s (.general 2) → WordKnown R t (x + 4)

theorem Saves.emits {x : Nat} {writes : Nat → Prop} {gained : Part → Prop} (h : Saves R s₀ s x)
    (e : R.Emits K s t writes gained) : Saves R s₀ t x where
  slots := division_course h.slots e.course.toPath
  eax known j low high := e.all _ (h.eax known j low high)
  edx known j low high := e.all _ (h.edx known j low high)

/-- **The division proper**, and the end of it: the quotient goes to its
place, and `eax` and `edx` are loaded again. -/
theorem divide_results (h : R.Course K s t [] []) (ready : R.Ready K s) {x : Nat} (saves : Saves R s t x)
    (left : R.Input K s .general 1 lhs.location) (source : R.Source t .general 1 l)
    (heldAt : ∀ id, l = .indirectRegister id → K id) (output : R.Output K s .general 1 out)
    (direct : ∀ r, out ≠ .indirectRegister r) :
    Results (do
      transfer .dword (.register 0) lhs.location
      modifyAssembly fun a => a.write .cdq
      emitUnary .idiv l
      if out.isRegister then
        emitStore .movStore (.globalMemory (x + 8)) (.register 0)
        emit .movLoad (.register 0) (.globalMemory x)
        emit .movLoad (.register 2) (.globalMemory (x + 4))
        emit .movLoad out (.globalMemory (x + 8))
      else
        emitStore .movStore out (.register 0)
        emit .movLoad (.register 0) (.globalMemory x)
        emit .movLoad (.register 2) (.globalMemory (x + 4)) : Lower Unit) t fun _ u =>
      R.Course K s u [] [] ∧ R.Knows u 1 out := by
  have eax : 0 ∈ RegisterClass.general.pool := by decide
  have edx : 2 ∈ RegisterClass.general.pool := by decide
  have ready₀ := h.ready ready
  have left := left.course ready.fine h.toPath
  -- eax and edx hold what the two machines need not agree on, so each step says what it
  -- makes known before the next one reads it.
  refine (fetch_results ready₀ .dword eax left.source).bind fun _ t₁ e₁ => ?_
  have ready₁ := e₁.course.ready ready₀
  have low : R.Known t₁ (.general 0) := e₁.gains _ ⟨0, Nat.one_pos, rfl⟩
  have source := source_emits e₁ source heldAt
  refine (cdq_results ready₁ low).bind fun _ t₂ e₂ => ?_
  have ready₂ := e₂.course.ready ready₁
  have source := source_emits e₂ source heldAt
  refine (idiv_results ready₂ (e₂.all _ low) (e₂.gains _ rfl) source).bind fun _ t₃ e₃ => ?_
  have course : R.Course K s t₃ [] [] := ((h.step e₁.course).step e₂.course).step e₃.course
  have ready₃ := course.ready ready
  have saves := ((saves.emits e₁).emits e₂).emits e₃
  have quotient : R.Known t₃ (.general 0) := e₃.gains _ (.inl rfl)
  have third : Scratch t₃ (x + 8) := ⟨x, saves.slots, .inr (.inr rfl)⟩
  have word (o : Nat) {u w : LoweringState} (keeps : ∀ p, (∀ id, p ≠ .general id) → R.Known u p → R.Known w p)
      (known : WordKnown R u o) : WordKnown R w o := fun j low high => keeps _ nofun (known j low high)
  -- A result in a register is set aside first: the register may be eax or edx, which
  -- are loaded again behind the division.
  rcases (output.course course.toPath ready).cases with ⟨register, id, pool, rfl⟩ | ⟨memory, place⟩
  · rw [if_pos register]
    refine (saveScratch_results ready₃ third eax).bind fun _ t₄ ⟨course₄, stored, others⟩ => ?_
    have slots₄ := division_course saves.slots course₄.toPath
    refine (reloadScratch_results (course.step course₄) ready ⟨x, slots₄, .inl rfl⟩ eax
      fun known => others x (.inr (by omega)) (saves.eax known)).bind fun _ t₅ ⟨course₅, same₅, keeps₅⟩ => ?_
    have slots₅ := same₅.trans slots₄
    refine (reloadScratch_results course₅ ready ⟨x, slots₅, .inr (.inl rfl)⟩ edx fun known =>
      word _ keeps₅ (others (x + 4) (.inr (by omega)) (saves.edx known))).bind
        fun _ t₆ ⟨course₆, same₆, keeps₆⟩ => ?_
    have slots₆ := same₆.trans slots₅
    have ready₆ := course₆.ready ready
    have value : R.Source t₆ .general 1 (.globalMemory (x + 8)) :=
      ⟨.inr (Scratch.place ready₆.fine ⟨x, slots₆, .inr (.inr rfl)⟩ false),
        wordKnown_iff.1 (word _ keeps₆ (word _ keeps₅ (stored quotient)))⟩
    exact (load_results ready₆ .dword pool value).mono fun _ u e =>
      ⟨course₆.step e.course, fun p part => e.gains p part⟩
  · rw [if_neg (by rw [memory]; decide)]
    refine (stores_results ready₃ (c := .general) rfl eax (fun p ⟨k, hk, eq⟩ => by
      obtain rfl := eq
      exact quotient) place fun r eq => absurd eq (direct r)).bind fun _ t₄ ⟨e₄, _⟩ => ?_
    have saves := saves.emits e₄
    refine (reloadScratch_results (course.step e₄.course) ready ⟨x, saves.slots, .inl rfl⟩ eax
      saves.eax).bind fun _ t₅ ⟨course₅, same₅, keeps₅⟩ => ?_
    have slots₅ := same₅.trans saves.slots
    refine (reloadScratch_results course₅ ready ⟨x, slots₅, .inr (.inl rfl)⟩ edx fun known =>
      word _ keeps₅ (saves.edx known)).mono fun _ t₆ ⟨course₆, same₆, keeps₆⟩ => ⟨course₆, fun p part => ?_⟩
    obtain ⟨r, o, eq⟩ : ∃ r o, out.place? = some (r, o) := by
      cases place with
      | indirect => exact absurd rfl (direct _)
      | direct eq => exact ⟨_, _, eq⟩
    obtain ⟨k, rfl, -⟩ := (parts_direct eq).1 part
    exact keeps₆ _ nofun (keeps₅ _ nofun (e₄.gains _ ⟨direct, (parts_direct eq).2 ((parts_direct eq).1 part)⟩))

/-- **Dividing integers**: the quotient is known, and `eax` and `edx` are
what they were. -/
theorem integerDivision_results (ready : R.Ready K s) (left : R.Input K s .general 1 lhs.location)
    (right : R.Input K s .general 1 rhs.location) (output : R.Output K s .general 1 out)
    (direct : ∀ r, out ≠ .indirectRegister r) :
    Results (integerDivision out lhs rhs) s fun _ t => R.Course K s t [] [] ∧ R.Knows t 1 out := by
  have eax : 0 ∈ RegisterClass.general.pool := by decide
  have edx : 2 ∈ RegisterClass.general.pool := by decide
  unfold integerDivision
  refine (divisionSlots_results ready).bind ?_
  rintro _ t₁ ⟨course₁, slots, x, rfl⟩
  have ready₁ := course₁.ready ready
  refine (saveScratch_results ready₁ ⟨x, slots, .inl rfl⟩ eax).bind fun _ t₂ ⟨course₂, low, _⟩ => ?_
  have ready₂ := course₂.ready ready₁
  have slots := division_course slots course₂.toPath
  refine (saveScratch_results ready₂ ⟨x, slots, .inr (.inl rfl)⟩ edx).bind
    fun _ t₃ ⟨course₃, high, others⟩ => ?_
  have ready₃ := course₃.ready ready₂
  have course : R.Course K s t₃ [] [] := (course₁.step course₂).step course₃
  have kept (s : LoweringState) {r : Nat} (small : r < 8) : R.Kept s (.general r) := small
  have saves : Saves R s t₃ x :=
    { slots := division_course slots course₃.toPath
      eax := fun known => others x (.inr (Nat.le_refl _)) (low (course₁.knows _ (kept _ (by decide)) known))
      edx := fun known => high (course₂.knows _ (kept _ (by decide))
        (course₁.knows _ (kept _ (by decide)) known)) }
  have right₃ := right.course ready.fine course.toPath
  rcases right₃.source.cases with ⟨register, id, pool, eq⟩ | ⟨memory, _⟩
  · rw [if_pos register, eq]
    have place := Scratch.place ready₃.fine ⟨x, saves.slots, .inr (.inr rfl)⟩ true
    refine (stores_results ready₃ (c := .general) rfl pool (eq ▸ right₃.source.known) place nofun).bind
      fun _ t₄ ⟨e₄, _⟩ => ?_
    exact divide_results (course.step e₄.course) ready (saves.emits e₄) left
      ⟨.inr (e₄.course.toPath.place place.read), fun p part => e₄.gains p ⟨nofun, part⟩⟩ nofun output direct
  · rw [if_neg (by rw [memory]; decide)]
    exact divide_results course ready saves left right₃.source right₃.held output direct

/-- A pooled constant stays. -/
theorem pooled_leads {t : LoweringState} {k : Constant × Nat} (h : s.Leads t registers held)
    (pooled : k ∈ s.constants.slots) : k ∈ t.constants.slots := by
  obtain ⟨added, eq, -⟩ := h.constants
  exact eq ▸ List.mem_append_left added pooled

/-! ## Integers and signs -/

/-- **What an operation comes to**: its result is known, and nothing is left
behind. -/
abbrev Computes (R : Regime) (K : Nat → Prop) (s t : LoweringState) (n : Nat) (out : Location) : Prop :=
  R.Course K s t [] [] ∧ R.Knows t n out

theorem Leaves.computes (h : Leaves R K s t n out) : Computes R K s t n out := ⟨h.1.course, h.2⟩

theorem Moves.computes (moves : Moves R K s t c n out) (direct : ∀ r, out ≠ .indirectRegister r) :
    Computes R K s t n out := ⟨moves.emits.course, moves.knows direct⟩

/-- **Changing an integer** in an accumulator. -/
theorem integer_results (ready : R.Ready K s) {f : Location → Lower Unit} {avoid : List Location}
    (input : R.Input K s .general 1 src) (output : R.Output K s .general 1 out)
    (direct : ∀ r, out ≠ .indirectRegister r)
    (step : ∀ id ∈ RegisterClass.general.pool, ∀ t held, R.Path K s t [] held → R.Ready K t →
      R.Known t (.general id) → Results (f (.register id)) t fun _ u =>
        ∃ writes, R.Emits K t u writes (· = .general id)) :
    Results (do
      let (acc, lease) ← accumulator out .general avoid
      transfer .dword acc src
      f acc
      settle out acc lease .dword : Lower Unit) s fun _ t => Computes R K s t 1 out := by
  refine (compute_results .dword ready avoid input output fun id pool t held during known => ?_).mono
    fun _ t moves => moves.computes direct
  refine (step id pool t held during.course.toPath (during.ready ready)
    (known _ ⟨0, Nat.one_pos, rfl⟩)).mono fun _ u ⟨writes, e⟩ => ⟨during.emits e.toDoes fun _ _ => rfl, ?_⟩
  rintro _ ⟨k, small, rfl⟩
  exact e.gains _ rfl

/-- Computing with integers. -/
theorem scalarInt_results (ready : R.Ready K s) (op : BinaryOp)
    (left : R.Input K s .general 1 lhs.location) (right : R.Input K s .general 1 rhs.location)
    (output : R.Output K s .general 1 out) (direct : ∀ r, out ≠ .indirectRegister r) :
    Results (scalarInt op out lhs rhs) s fun _ t => Computes R K s t 1 out := by
  have compute (o : Opcode) (shape : o.shape? = some ⟨.general, .general, 1, 1, 1⟩)
      (narrow : o.form.wide = false) : Results (do
        let (acc, lease) ← accumulator out .general [out, lhs.location, rhs.location]
        transfer .dword acc lhs.location
        emit o acc rhs.location
        settle out acc lease .dword : Lower Unit) s fun _ t => Computes R K s t 1 out := by
    refine integer_results ready left output direct (f := fun acc => emit o acc rhs.location)
      fun id pool t held path ready' known => ?_
    refine (computes_results ready' shape pool (fun p ⟨k, small, eq⟩ => ?_)
      (right.course ready.fine path).source (fun h => ?_) fun h => ?_).mono fun _ u e =>
        ⟨_, e.mono (fun _ h => h) ?_⟩
    · subst eq
      exact known
    · exact absurd ((form_of_shape shape).2.2.2.2.2 h) (by decide)
    · rw [narrow] at h
      cases h
    · rintro _ rfl
      exact ⟨0, Nat.one_pos, rfl⟩
  unfold scalarInt
  cases op with
  | add => exact compute .add rfl rfl
  | subtract => exact compute .sub rfl rfl
  | multiply => exact compute .imul rfl rfl
  | divide => exact integerDivision_results ready left right output direct

/-- Inverting a truth value. -/
theorem invert_results (ready : R.Ready K s) (input : R.Input K s .general 1 v.location)
    (output : R.Output K s .general 1 out) (direct : ∀ r, out ≠ .indirectRegister r) :
    Results (invert out v) s fun _ t => Computes R K s t 1 out :=
  integer_results ready input output direct (f := fun acc => emitUnary .xorImm8 acc [1])
    fun _ pool _ _ _ ready' known =>
      (inPlace_results ready' (.inr (.inl rfl)) pool rfl known nofun).mono fun _ _ e => ⟨_, e⟩

/-- **Negating a value.** -/
theorem negate_results (ready : R.Ready K s) (numeric : v.ty.isScalar = true ∨ v.ty.isVector = true)
    (reads : R.Reads K s v) (writes : R.Writes K s v.ty out) (direct : ∀ r, out ≠ .indirectRegister r) :
    Results (negate out v) s fun _ t => Computes R K s t (v.ty.size / 4) out := by
  unfold negate
  split
  -- An integer is negated in a general register; any other value has its sign bits
  -- turned by a mask that is pooled.
  · next integral =>
    have int : RegisterClass.ofTy? v.ty = some .general ∧ v.ty.size / 4 = 1 := by
      revert integral
      cases v.ty <;> decide
    have input := reads.whole _ int.1
    have output := writes.whole _ int.1
    rw [int.2] at input output ⊢
    exact integer_results ready input output direct (f := fun acc => emitUnary .neg acc)
      fun _ pool _ _ _ ready' known =>
        (inPlace_results ready' (.inl rfl) pool rfl known nofun).mono fun _ _ e => ⟨_, e⟩
  · next notIntegral =>
    refine (during_constant (c := .simd) (.start ready) ready signMask).bind ?_
    rintro _ t ⟨during, course, source, exact, offset, rfl, pooled⟩
    have ready₁ := during.ready ready
    have reads := reads.course ready.fine course.toPath
    have writes := writes.course course.toPath ready
    by_cases vector : v.ty.isVector = true
    · have packed : Width.ofTy v.ty = .packed := by
        revert vector
        cases v.ty <;> decide
      rw [packed]
      refine (rows_results ready₁ vector writes fun row inside t₁ during₁ output => ?_).mono
        fun _ u leaves => ⟨during.course.step leaves.1.course, leaves.2⟩
      have ready₂ := during₁.ready ready₁
      have input := (row_input vector reads inside).course ready₁.fine during₁.course.toPath
      refine (compute_results .packed ready₂ _ input output
        (f := fun acc => emit .xorps acc (.globalMemory offset)) fun id pool t₂ held during₂ known => ?_).mono
          fun _ u moves => moves.leaves ready₂ (direct_offsetBy direct _)
      have path := (during₁.course.trans during₂.course).toPath
      have source := source_constant (R := R) (c := .simd) (n := 4) (during₂.ready ready₂).fine
        (pooled_leads path.leads pooled) rfl
      refine (packed_results (during₂.ready ready₂) rfl pool known source nofun).mono
        fun _ t₃ e => ⟨during₂.emits e.toDoes nofun, fun p part => e.gains p part⟩
    · have float : v.ty = .float := by
        revert numeric notIntegral vector
        cases v.ty <;> decide
      have input := reads.whole .simd (by rw [float]; rfl)
      have output := writes.whole .simd (by rw [float]; rfl)
      rw [float] at input output ⊢
      refine (forRows_results (I := fun row t₁ => (row = 0 ∧ t₁ = t) ∨
        (row = 1 ∧ Moves R K t t₁ .simd 1 out)) 1 (.inl ⟨rfl, rfl⟩) fun row inside t₁ h => ?_).mono
          fun _ u h => ?_
      · obtain rfl : row = 0 := by omega
        obtain rfl : t₁ = t := by simpa using h
        rw [Nat.zero_mul, offsetBy_zero, offsetBy_zero]
        refine (compute_results .single ready₁ _ input output
          (f := fun acc => emit .xorps acc (.globalMemory offset)) fun id pool t₂ held during₂ known => ?_).mono
            fun _ u moves => .inr ⟨rfl, moves⟩
        refine (flip_results (during₂.ready ready₁) pool (known _ ⟨0, Nat.one_pos, rfl⟩)
          (pooled_leads during₂.course.toPath.leads pooled)).mono
            fun _ t₃ e => ⟨during₂.emits e.toDoes nofun, fun p part => e.gains p part⟩
      · have moves : Moves R K t u .simd 1 out := by simpa using h
        exact ⟨during.course.step moves.emits.course, moves.knows direct⟩

/-! ## Operations on two operands -/

/-- **An operation on two operands** computes a value of the type that the
rules give. -/
theorem binary_results (ready : R.Ready K s) {op : BinaryOp} (joins : Parser.joins op lhs.ty rhs.ty = true)
    (readsL : R.Reads K s lhs) (readsR : R.Reads K s rhs)
    (exact : rhs.ty.isVector = true → R.ExactAt s rhs.location)
    (writes : R.Writes K s (lhs.ty.arith rhs.ty) out) (direct : ∀ r, out ≠ .indirectRegister r) :
    Results (binary op out (lhs.ty.arith rhs.ty) lhs rhs) s fun _ t =>
      Computes R K s t ((lhs.ty.arith rhs.ty).size / 4) out := by
  -- The operation is chosen by the types in this order, and each choice says more about
  -- the types that the next ones may use.
  have types (P : BinaryOp → Ty → Ty → Prop) (all : ∀ op l r, Parser.joins op l r = true → P op l r) :
      P op lhs.ty rhs.ty := all _ _ _ joins
  unfold binary
  split
  · next h =>
    have same : rhs.ty = lhs.ty ∧ lhs.ty.arith rhs.ty = lhs.ty := by
      revert h
      exact types (fun op l r => (op = .multiply ∧ l.isMatrix = true ∧ r.isMatrix = true) →
        r = l ∧ l.arith r = l) (by intro op l r; cases op <;> cases l <;> cases r <;> decide)
    rw [same.2] at writes ⊢
    exact (matrixProduct_leaves ready h.2.1 rfl same.1 readsL readsR writes direct).mono
      fun _ _ leaves => leaves.computes
  split
  · next notProduct h =>
    have row : lhs.ty.element? = some rhs.ty ∧ lhs.ty.arith rhs.ty = rhs.ty := by
      revert notProduct h
      exact types (fun op l r => ¬(op = .multiply ∧ l.isMatrix = true ∧ r.isMatrix = true) →
        (op = .multiply ∧ l.isMatrix = true ∧ r.isVector = true) → l.element? = some r ∧ l.arith r = r)
        (by intro op l r; cases op <;> cases l <;> cases r <;> decide)
    rw [row.2] at writes ⊢
    exact (matrixVector_leaves ready h.2.1 row.1 rfl readsL readsR (exact h.2.2) writes direct).mono
      fun _ _ leaves => leaves.computes
  split
  · next notProduct notApply h =>
    have scaled : lhs.ty.isMatrix = false ∧ lhs.ty.arith rhs.ty = lhs.ty := by
      revert h
      exact types (fun op l r => (l.isVector = true ∧ r.isScalar = true) →
        l.isMatrix = false ∧ l.arith r = l) (by intro op l r; cases op <;> cases l <;> cases r <;> decide)
    rw [scaled.2] at writes ⊢
    exact (vectorScalar_leaves ready h.1 scaled.1 rfl h.2 readsL readsR writes direct).mono
      fun _ _ leaves => leaves.computes
  split
  · next notProduct notApply notScale vector =>
    have same : rhs.ty = lhs.ty ∧ lhs.ty.arith rhs.ty = lhs.ty := by
      revert notProduct notApply notScale vector
      exact types (fun op l r => ¬(op = .multiply ∧ l.isMatrix = true ∧ r.isMatrix = true) →
        ¬(op = .multiply ∧ l.isMatrix = true ∧ r.isVector = true) →
        ¬(l.isVector = true ∧ r.isScalar = true) → l.isVector = true → r = l ∧ l.arith r = l)
        (by intro op l r; cases op <;> cases l <;> cases r <;> decide)
    rw [same.2] at writes ⊢
    exact (packed_leaves ready vector rfl same.1 readsL readsR (exact (same.1 ▸ vector)) writes direct).mono
      fun _ _ leaves => leaves.computes
  split
  · next notVector float =>
    have scalars : lhs.ty.isScalar = true ∧ rhs.ty.isScalar = true := by
      revert notVector
      exact types (fun op l r => ¬ l.isVector = true → l.isScalar = true ∧ r.isScalar = true)
        (by intro op l r; cases op <;> cases l <;> cases r <;> decide)
    rw [float] at writes ⊢
    exact (scalarFloat_leaves ready op scalars.1 scalars.2 readsL readsR (writes.whole _ rfl) direct).mono
      fun _ _ leaves => leaves.computes
  · next notVector notFloat =>
    have ints : lhs.ty = .int ∧ rhs.ty = .int := by
      revert notVector notFloat
      exact types (fun op l r => ¬ l.isVector = true → ¬ l.arith r = .float → l = .int ∧ r = .int)
        (by intro op l r; cases op <;> cases l <;> cases r <;> decide)
    have left := readsL.whole .general (by rw [ints.1]; rfl)
    have right := readsR.whole .general (by rw [ints.2]; rfl)
    rw [ints.1] at left
    rw [ints.2] at right
    rw [ints.1, ints.2] at writes ⊢
    exact scalarInt_results ready op left right (writes.whole _ rfl) direct

end Lower

end Shading
