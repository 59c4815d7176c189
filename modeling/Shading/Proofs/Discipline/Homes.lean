import Shading.Proofs.Discipline.Moves

/-!
# Where values stand

A value stands in a register, in a slot of its size, or behind an address
register that is held (`Regime.Stands`). From there it can be written, and
it can be read when it is known.
-/

namespace Shading

open LoweringState

namespace Regime

variable {R : Regime} {K K' : Nat → Prop} {s t u : LoweringState} {registers : List Location}
  {held : List Lease} {c : RegisterClass} {ty : Ty} {l : Location} {w : Bool} {v : Value}

/-- **The global variables are kept**: nothing is saved in them. -/
def KeepsGlobals (R : Regime) (s : LoweringState) : Prop :=
  R.Covers s → ∀ slot ∈ R.globals, ∀ k, R.bytesOf slot k → R.Kept s (.byte k)

theorem KeepsGlobals.leads (h : R.KeepsGlobals s) (sound : R.Sound)
    (leads : s.Leads t registers held) : R.KeepsGlobals t := fun covers slot hs k hk =>
  (h (covers.back leads) slot hs k hk).leads sound covers leads.ok leads

/-- **A place where a value of a type stands**, which may be written if `w`
says so. -/
structure Stands (R : Regime) (K : Nat → Prop) (s : LoweringState) (w : Bool) (ty : Ty) (l : Location) :
    Prop where
  fits : l.Fits ty
  keeps : s.Keeps ty.size l
  slot : ∀ r o, l.place? = some (r, o) → ∃ use slot, s.Uses use slot ∧ slot.Holds r o ty.size ∧
    slot.stop ≤ s.layout.sizeOf r ∧ (w = true → use.Writable R.assigned) ∧ use ≠ .spill
  held : ∀ id, l = .indirectRegister id → K id ∧ R.Known s (.general id)

theorem Stands.course (stands : R.Stands K s w ty l) (ready : R.Ready K s)
    (h : R.Path K s t registers held) : R.Stands K t w ty l where
  fits := stands.fits
  keeps := h.leads.keeps stands.keeps
  slot := fun r o place => by
    obtain ⟨use, slot, uses, holds, size, rest⟩ := stands.slot r o place
    exact ⟨use, slot, h.uses uses, holds, Nat.le_trans size (h.sizeOf_le _), rest⟩
  held := fun id eq => by
    obtain ⟨free, known⟩ := stands.held id eq
    exact ⟨free, h.knows _ (ready.lt free) known⟩

theorem Stands.weaken (stands : R.Stands K s w ty l) (sub : ∀ r, K r → K' r) : R.Stands K' s w ty l :=
  { stands with held := fun id eq => (stands.held id eq).imp (sub id) fun h => h }

theorem Stands.read (stands : R.Stands K s w ty l) : R.Stands K s false ty l :=
  { stands with
    slot := fun r o place => by
      obtain ⟨use, slot, uses, holds, size, -, plain⟩ := stands.slot r o place
      exact ⟨use, slot, uses, holds, size, nofun, plain⟩ }

theorem Stands.opened (stands : R.Stands K s w ty l) : R.Stands K (Lower.opened s) w ty l where
  fits := stands.fits
  keeps := by cases l <;> exact stands.keeps
  slot := fun r o place => by
    obtain ⟨use, slot, uses, rest⟩ := stands.slot r o place
    exact ⟨use, slot, uses_opened uses, rest⟩
  held := fun id eq => (stands.held id eq).imp (fun h => h) Lower.shows_opened.2

/-- What has no storage stands nowhere. -/
theorem Stands.storage (stands : R.Stands K s w ty l) : ty.size ≠ 0 := by
  have fits := stands.fits
  cases l with
  | none => exact fits.elim
  | register id =>
    intro zero
    have := fits.1
    revert zero this
    cases ty <;> decide
  | simdRegister id =>
    intro zero
    have := fits.1
    revert zero this
    cases ty <;> decide
  | registerLane id shift =>
    rw [fits.1]
    decide
  | globalMemory o => exact fits.1
  | localMemory o => exact fits.1
  | indirectRegister id => exact fits.1

/-! ## Words of a place -/

theorem offsetBy_place {r : Region} {o : Nat} (place : l.place? = some (r, o)) (x : Nat) :
    (l.offsetBy x).place? = some (r, o + x) := by
  cases l <;> cases place <;> rfl

/-- Memory that is aligned for its type. -/
theorem Stands.aligned (stands : R.Stands K s w ty l) {r : Region} {o : Nat}
    (place : l.place? = some (r, o)) : o % BumpAllocator.alignmentOf ty.size = 0 := by
  have fits := stands.fits
  cases l <;> cases place
  · exact fits.2
  · exact fits.2

/-- **Words within a place at a known offset.** -/
theorem Stands.place (stands : R.Stands K s w ty l) {r : Region} {o : Nat}
    (place : l.place? = some (r, o)) {x n : Nat} (inside : x + 4 * n ≤ ty.size)
    (wide : n = 4 → 16 ≤ ty.size ∧ x % 16 = 0) : R.Place s w n (l.offsetBy x) := by
  obtain ⟨use, slot, uses, holds, size, writable, plain⟩ := stands.slot r o place
  refine .direct (offsetBy_place place x) uses ⟨holds.1, ?_, ?_⟩ size writable (fun four => ?_)
    fun spill => absurd spill plain
  · exact Nat.le_trans holds.2.1 (Nat.le_add_right _ _)
  · have := holds.2.2
    omega
  · obtain ⟨large, row⟩ := wide four
    have aligned := stands.aligned place
    rw [BumpAllocator.alignmentOf_wide large] at aligned
    omega

theorem keeps_offsetBy {size x n : Nat} {r : Region} {o : Nat} (place : l.place? = some (r, o))
    (keeps : s.Keeps size l) (inside : x + 4 * n ≤ size) : s.Keeps (4 * n) (l.offsetBy x) := by
  cases l <;> cases place
  · refine ⟨?_, fun y hy => ?_⟩
    · have := keeps.1
      omega
    · rcases keeps.2 y hy with h | h
      · exact .inl (by omega)
      · exact .inr (by omega)
  · have : _ + size ≤ s.localTop := keeps
    exact Nat.le_trans (by omega) this

/-- What a part of a place stands for. -/
theorem parts_offsetBy {r : Region} {o x m n : Nat} (place : l.place? = some (r, o))
    (inside : x + 4 * m ≤ 4 * n) {p : Part} (part : R.parts s m (l.offsetBy x) p) : R.parts s n l p := by
  obtain ⟨k, rfl, low, high⟩ := (parts_direct (offsetBy_place place x)).1 part
  refine (parts_direct place).2 ⟨k, rfl, ?_, ?_⟩ <;> cases r <;> simp only [offsetOf] at * <;> omega

/-- Words within a place can be written. -/
theorem Stands.output (stands : R.Stands K s true ty l) (fine : R.Fine s) {r : Region} {o : Nat}
    (place : l.place? = some (r, o)) {x n : Nat} (inside : x + 4 * n ≤ ty.size)
    (wide : n = 4 → 16 ≤ ty.size ∧ x % 16 = 0) : R.Output K s c n (l.offsetBy x) :=
  .direct fine (offsetBy_place place x) (stands.place place inside wide)
    (keeps_offsetBy place stands.keeps inside)

/-- **Words within a place can be read** if it is known. -/
theorem Stands.input (stands : R.Stands K s w ty l) (fine : R.Fine s) {r : Region} {o : Nat}
    (place : l.place? = some (r, o)) {x n : Nat} (inside : x + 4 * n ≤ ty.size)
    (wide : n = 4 → 16 ≤ ty.size ∧ x % 16 = 0) (known : R.Knows s n (l.offsetBy x)) :
    R.Input K s c n (l.offsetBy x) :=
  .direct fine (offsetBy_place place x) (stands.read.place place inside wide)
    (keeps_offsetBy place stands.keeps inside) known

/-- **A word of a row** can be read. -/
theorem Input.word (input : R.Input K s .simd 4 l) {r : Region} {o : Nat} (place : l.place? = some (r, o))
    {j : Nat} (inside : j < 4) : R.Input K s .simd 1 (l.offsetBy (j * 4)) where
  source :=
    { place := by
        rcases input.source.place with ⟨id, _, rfl⟩ | memory
        · cases place
        · cases memory with
          | indirect => cases place
          | direct place' uses holds size writable _ plain =>
            obtain ⟨rfl, rfl⟩ : _ = r ∧ _ = o := by simpa [place] using place'.symm
            refine .inr (.direct (offsetBy_place place _) uses ⟨holds.1, ?_, ?_⟩ size writable nofun plain)
            · exact Nat.le_trans holds.2.1 (Nat.le_add_right _ _)
            · have := holds.2.2
              omega
      known := fun p part => input.source.known p (parts_offsetBy place (by omega) part) }
  stays covers p part := input.stays covers p (parts_offsetBy place (by omega) part)
  held id eq := by
    have := offsetBy_place place (j * 4)
    rw [eq] at this
    cases this

theorem offsetBy_offsetBy (l : Location) (x y : Nat) : (l.offsetBy x).offsetBy y = l.offsetBy (x + y) := by
  cases l <;> simp [Location.offsetBy, Nat.add_assoc]

theorem offsetBy_zero (l : Location) : l.offsetBy 0 = l := by cases l <;> rfl

/-- **The parts behind an address are kept.** -/
theorem kept_indirect (fine : R.Fine s) (globals : R.KeepsGlobals s) (covers : R.Covers s) {id n : Nat}
    (small : id < 8) {p : Part} (part : R.parts s n (.indirectRegister id) p) : R.Kept s p := by
  rcases part with rfl | ⟨slot, origin, k, rfl, inside⟩
  · exact small
  · rcases fine.containers id slot origin with isGlobal | ⟨region, stop⟩
    · exact globals covers slot isGlobal k inside
    · obtain ⟨low, high⟩ := inside
      simp only [region, offsetOf] at low high
      refine ⟨fun x hx => .inr ?_, .inr (Nat.le_trans (Nat.le_add_right _ _) low)⟩
      obtain ⟨y, eq, -, stop, -⟩ := fine.ok.division _ hx
      simp only [DivisionSlots.at, DivisionSlots.mk.injEq, Location.globalMemory.injEq] at eq
      have := fine.ok.layout.globalTop
      have := covers.globalSize
      have := fine.regime.behind
      have stop : y + 12 ≤ s.layout.globalRegion.top := stop
      simp only [Layout.globalSize] at *
      omega

theorem words_of_class (ofTy : RegisterClass.ofTy? ty = some c) :
    4 * (ty.size / 4) = ty.size ∧ ty.size ≤ c.spillSize ∧ (ty.size / 4 = 4 → 16 ≤ ty.size) ∧
      ty.isMatrix = false := by
  revert ofTy
  cases ty <;> cases c <;> decide

/-- A matrix is in memory at a known offset. -/
theorem Stands.matrix (stands : R.Stands K s w ty l) (matrix : ty.isMatrix = true) :
    ∃ r o, l.place? = some (r, o) := by
  have fits := stands.fits
  have register (c : RegisterClass) : RegisterClass.ofTy? ty ≠ some c := fun ofTy => by
    rw [(words_of_class ofTy).2.2.2] at matrix
    cases matrix
  cases l with
  | none => exact fits.elim
  | register id => exact absurd fits.1 (register _)
  | simdRegister id => exact absurd fits.1 (register _)
  | registerLane id shift =>
    rw [fits.1] at matrix
    cases matrix
  | globalMemory o => exact ⟨.global, o, rfl⟩
  | localMemory o => exact ⟨.local, o, rfl⟩
  | indirectRegister id =>
    rw [fits.2.1] at matrix
    cases matrix

theorem size_matrix (matrix : ty.isMatrix = true) : ty.size = 16 * ty.elementCount := by
  revert matrix
  cases ty <;> decide

/-- **A place can be written** that is no lane. -/
theorem Stands.writes (stands : R.Stands K s true ty l) (ready : R.Ready K s) (globals : R.KeepsGlobals s)
    (operand : l.IsOperand) : R.Writes K s ty l where
  memory := stands.matrix
  whole := fun c ofTy => by
    obtain ⟨words, spill, wide, -⟩ := words_of_class ofTy
    have fits := stands.fits
    have direct {r : Region} {o : Nat} (place : l.place? = some (r, o)) : R.Output K s c (ty.size / 4) l := by
      have := stands.output (c := c) ready.fine place (x := 0) (n := ty.size / 4) (by omega)
        fun four => ⟨wide four, rfl⟩
      rwa [offsetBy_zero] at this
    cases l with
    | none => exact fits.elim
    | register id =>
      rw [fits.1] at ofTy
      cases ofTy
      exact .register (c := .general) fits.2 (by omega)
    | simdRegister id =>
      rw [fits.1] at ofTy
      cases ofTy
      exact .register (c := .simd) fits.2 (by omega)
    | registerLane id shift => exact operand.elim
    | globalMemory o => exact direct rfl
    | localMemory o => exact direct rfl
    | indirectRegister id =>
      exact ⟨.inr (.indirect fits.2.2), fun covers p part =>
        kept_indirect ready.fine globals covers (pool_lt fits.2.2) part, fun r eq => stands.held r eq⟩
  rows := fun matrix row inside => by
    obtain ⟨r, o, place⟩ := stands.matrix matrix
    have size := size_matrix matrix
    exact stands.output ready.fine place (by omega) fun _ => ⟨by omega, by omega⟩

/-- **A place can be read** that is no lane, if it is known. -/
theorem Stands.reads {v : Value} (stands : R.Stands K s w v.ty v.location) (ready : R.Ready K s)
    (globals : R.KeepsGlobals s) (operand : v.location.IsOperand)
    (known : R.Knows s (v.ty.size / 4) v.location) : R.Reads K s v where
  memory := stands.matrix
  whole := fun c ofTy => by
    obtain ⟨words, spill, wide, -⟩ := words_of_class ofTy
    have fits := stands.fits
    have direct {r : Region} {o : Nat} (place : v.location.place? = some (r, o)) :
        R.Input K s c (v.ty.size / 4) v.location := by
      have := stands.input (c := c) ready.fine place (x := 0) (n := v.ty.size / 4) (by omega)
        (fun four => ⟨wide four, rfl⟩) (by rwa [offsetBy_zero])
      rwa [offsetBy_zero] at this
    cases eq : v.location with
    | none =>
      rw [eq] at fits
      exact fits.elim
    | register id =>
      rw [eq] at fits known
      rw [fits.1] at ofTy
      cases ofTy
      exact .register (c := .general) fits.2 (by omega) known
    | simdRegister id =>
      rw [eq] at fits known
      rw [fits.1] at ofTy
      cases ofTy
      exact .register (c := .simd) fits.2 (by omega) known
    | registerLane id shift =>
      rw [eq] at operand
      exact operand.elim
    | globalMemory o => exact eq ▸ direct (by rw [eq]; rfl)
    | localMemory o => exact eq ▸ direct (by rw [eq]; rfl)
    | indirectRegister id =>
      rw [eq] at fits known
      exact ⟨⟨.inr (.indirect fits.2.2), known⟩, fun covers p part =>
        kept_indirect ready.fine globals covers (pool_lt fits.2.2) part,
        fun r same => (stands.held r (eq.trans same)).1⟩
  rows := fun matrix row inside => by
    obtain ⟨r, o, place⟩ := stands.matrix matrix
    have size := size_matrix matrix
    refine stands.input ready.fine place (by omega) (fun _ => ⟨by omega, by omega⟩) fun p part => ?_
    exact known p (parts_offsetBy place (by omega) part)

/-! ## Temporaries -/

/-- **A temporary stands** where it was placed. -/
theorem stands_placed {out : Location} (placed : Lower.Placed R K' s t ty out)
    (deep : 2 ≤ (Transcript.frames s.transcript).length) : R.Stands K t true ty out where
  fits := placed.places.fits
  keeps := placed.places.keeps
  slot := fun r o place => by
    rcases placed.temporary with ⟨c, id, rfl⟩ | ⟨o', rfl⟩
    · cases c <;> cases place
    · cases place
      have frames := placed.frames
      have mem : (⟨.local, o, ty.size⟩ : Slot) ∈ Transcript.temporaries t.transcript := by
        rw [Transcript.temporaries, frames]
        obtain ⟨f, g, fs, eq⟩ : ∃ f g fs, Transcript.frames s.transcript = f :: g :: fs := by
          rcases h : Transcript.frames s.transcript with - | ⟨f, - | ⟨g, fs⟩⟩
          · simp [h] at deep
          · simp [h] at deep
          · exact ⟨f, g, fs, rfl⟩
        rw [eq]
        simp [Transcript.addSlots, Location.slot?]
      exact ⟨.temporary, _, .temporary mem rfl, ⟨rfl, Nat.le_refl _, Nat.le_refl _⟩, placed.layout o rfl,
        fun _ => trivial, by rintro ⟨⟩⟩
  held := fun id eq => by
    rcases placed.temporary with ⟨c, i, rfl⟩ | ⟨o, rfl⟩
    · cases c <;> cases eq
    · cases eq

end Regime

end Shading
