import Shading.Proofs.Discipline.Jumps
import Shading.Proofs.Lowering.Move

/-!
# Values along a course

A value that can be read at a state (`Regime.Input`) can be read further
on, and a place that can be written (`Regime.Output`) can be written,
since what they rely on is kept: bytes of slots in use, lanes of
registers, and address registers that are held.
-/

namespace Shading

open LoweringState

namespace Regime

variable {R : Regime} {K K' : Nat → Prop} {s t u : LoweringState} {registers : List Location}
  {held : List Lease} {c : RegisterClass} {n : Nat} {l : Location} {use : SlotUse} {slot : Slot}
  {w : Bool}

/-! ## Slots along a path -/

theorem Path.temporaries (h : R.Path K s t registers held)
    (mem : slot ∈ Transcript.temporaries s.transcript) : slot ∈ Transcript.temporaries t.transcript := by
  obtain ⟨slots, eq⟩ := h.frames
  rw [Transcript.temporaries, eq]
  exact Transcript.mem_temporaries_addSlots mem

/-- **Slots stay** along a path. -/
theorem Path.uses (h : R.Path K s t registers held) (uses : s.Uses use slot) : t.Uses use slot := by
  obtain ⟨added, constants, -⟩ := h.leads.constants
  unfold LoweringState.Uses at uses ⊢
  cases uses with
  | symbol known isVariable visible place =>
    exact .symbol (h.leads.declarations ▸ known) isVariable (h.leads.function ▸ visible) place
  | temporary live own => exact .temporary (h.temporaries live) own
  | spill saved => exact .spill (Transcript.spills_of_suffix h.transcript saved)
  | division known one place =>
    refine .division ?_ one place
    rcases h.leads.division with same | ⟨none, -⟩
    · exact same.trans known
    · rw [none] at known
      cases known
  | constant pooled => exact .constant (constants ▸ List.mem_append_left _ pooled)

theorem Path.sizeOf_le (h : R.Path K s t registers held) (r : Region) :
    s.layout.sizeOf r ≤ t.layout.sizeOf r := by
  cases r
  · exact h.leads.layout.globalHigh
  · exact h.leads.layout.localHigh

/-- Memory that an instruction may name. -/
theorem Path.place (h : R.Path K s t registers held) (place : R.Place s w n l) : R.Place t w n l := by
  cases place with
  | indirect pool => exact .indirect pool
  | direct place uses holds size writable aligned plain =>
    exact .direct place (h.uses uses) holds (Nat.le_trans size (h.sizeOf_le _)) writable aligned plain

/-- The parts of a location stay the same while its address register is
held. -/
theorem Path.parts (h : R.Path K s t registers held) (heldAt : ∀ id, l = .indirectRegister id → K id)
    (p : Part) : R.parts t n l p ↔ R.parts s n l p := by
  cases l with
  | indirectRegister id =>
    simp only [Regime.parts, h.origins id (heldAt id rfl)]
  | _ => exact Iff.rfl

/-! ## Values -/

/-- **Words that can be read** at a location, now and later. -/
structure Input (R : Regime) (K : Nat → Prop) (s : LoweringState) (c : RegisterClass) (n : Nat)
    (l : Location) : Prop where
  source : R.Source s c n l
  stays : R.Covers s → ∀ p, R.parts s n l p → R.Kept s p
  held : ∀ id, l = .indirectRegister id → K id

/-- **Words that can be written** at a location, now and later. -/
structure Output (R : Regime) (K : Nat → Prop) (s : LoweringState) (c : RegisterClass) (n : Nat)
    (l : Location) : Prop where
  place : (∃ id ∈ c.pool, l = c.location id) ∨ R.Place s true n l
  stays : R.Covers s → ∀ p, R.parts s n l p → R.Kept s p
  held : ∀ id, l = .indirectRegister id → K id ∧ R.Known s (.general id)

/-- What is known of a location is known further on. -/
theorem Path.knows_parts (h : R.Path K s t registers held)
    (stays : R.Covers s → ∀ p, R.parts s n l p → R.Kept s p)
    (heldAt : ∀ id, l = .indirectRegister id → K id) (known : R.Knows s n l) : R.Knows t n l :=
  fun p part covers => by
    have part := (h.parts heldAt p).1 part
    exact h.knows p (stays (covers.back h.leads) p part) (known p part) covers

theorem Input.course (input : R.Input K s c n l) (fine : R.Fine s) (h : R.Path K s t registers held) :
    R.Input K t c n l where
  source :=
    { place := input.source.place.imp id h.place
      known := h.knows_parts input.stays input.held input.source.known }
  stays := fun covers p part =>
    (input.stays (covers.back h.leads) p ((h.parts input.held p).1 part)).leads fine.regime covers h.leads.ok
      h.leads
  held := input.held

theorem Output.course (output : R.Output K s c n l) (h : R.Path K s t registers held) (ready : R.Ready K s) :
    R.Output K t c n l where
  place := output.place.imp id h.place
  stays := fun covers p part =>
    (output.stays (covers.back h.leads) p
      ((h.parts (fun id eq => (output.held id eq).1) p).1 part)).leads ready.fine.regime covers h.leads.ok
      h.leads
  held := fun id eq => by
    obtain ⟨free, known⟩ := output.held id eq
    exact ⟨free, h.knows _ (ready.lt free) known⟩

/-- The parts of a register are kept. -/
theorem kept_register {id : Nat} (pool : id ∈ c.pool) (four : 4 * n ≤ c.spillSize) {p : Part}
    (part : R.parts s n (c.location id) p) : R.Kept s p := by
  rw [parts_location] at part
  obtain ⟨k, hk, rfl⟩ := part
  exact kept_part pool (by omega)

/-- A register of a class can be written. -/
theorem Output.register {id : Nat} (pool : id ∈ c.pool) (four : 4 * n ≤ c.spillSize) :
    R.Output K s c n (c.location id) :=
  ⟨.inl ⟨id, pool, rfl⟩, fun _ _ part => kept_register pool four part, fun r eq => by cases c <;> cases eq⟩

/-- What is known of a place is known further on. -/
theorem Output.knows (output : R.Output K s c n l) (h : R.Path K s t registers held)
    (known : R.Knows s n l) : R.Knows t n l :=
  h.knows_parts output.stays (fun id eq => (output.held id eq).1) known

/-- A register of which enough is known can be read. -/
theorem Input.register {id : Nat} (pool : id ∈ c.pool) (four : 4 * n ≤ c.spillSize)
    (known : R.Knows s n (c.location id)) : R.Input K s c n (c.location id) where
  source := ⟨.inl ⟨id, pool, rfl⟩, known⟩
  stays := fun _ _ part => kept_register pool four part
  held := fun r eq => by cases c <;> cases eq

/-- The bytes of memory that is kept. -/
theorem kept_bytes (fine : R.Fine s) (covers : R.Covers s) {r : Region} {o w k : Nat}
    (place : l.place? = some (r, o)) (keeps : s.Keeps w l) (low : R.offsetOf r o ≤ k)
    (high : k < R.offsetOf r o + w) : R.Kept s (.byte k) := by
  cases l <;> cases place
  · exact Path.kept_of_keeps keeps low high
  · have low : R.localOffset + o ≤ k := low
    refine ⟨fun x hx => .inr ?_, .inr (Nat.le_trans (Nat.le_add_right _ _) low)⟩
    obtain ⟨y, eq, -, stop, -⟩ := fine.ok.division _ hx
    simp only [DivisionSlots.at, DivisionSlots.mk.injEq, Location.globalMemory.injEq] at eq
    have := fine.ok.layout.globalTop
    have := covers.globalSize
    have := fine.regime.behind
    have stop : y + 12 ≤ s.layout.globalRegion.top := stop
    simp only [Layout.globalSize] at *
    omega

/-- **Memory at a known offset that is kept** can be read if it is known. -/
theorem Input.direct (fine : R.Fine s) {r : Region} {o : Nat} (place : l.place? = some (r, o))
    (memory : R.Place s false n l) (keeps : s.Keeps (4 * n) l) (known : R.Knows s n l) :
    R.Input K s c n l where
  source := ⟨.inr memory, known⟩
  stays := fun covers p part => by
    obtain ⟨k, rfl, low, high⟩ := (parts_direct place).1 part
    exact kept_bytes fine covers place keeps low high
  held := fun id eq => by
    rw [eq] at place
    cases place

/-- **Memory at a known offset that is kept** can be written. -/
theorem Output.direct (fine : R.Fine s) {r : Region} {o : Nat} (place : l.place? = some (r, o))
    (memory : R.Place s true n l) (keeps : s.Keeps (4 * n) l) : R.Output K s c n l where
  place := .inr memory
  stays := fun covers p part => by
    obtain ⟨k, rfl, low, high⟩ := (parts_direct place).1 part
    exact kept_bytes fine covers place keeps low high
  held := fun id eq => by
    rw [eq] at place
    cases place

/-! ## Scopes -/

theorem uses_opened (uses : s.Uses use slot) : (Lower.opened s).Uses use slot := by
  unfold LoweringState.Uses at uses ⊢
  cases uses with
  | symbol known isVariable visible place => exact .symbol known isVariable visible place
  | temporary live own =>
    refine .temporary ?_ own
    change slot ∈ (([] : List Slot) :: Transcript.frames s.transcript).dropLast.flatten
    cases fs : Transcript.frames s.transcript with
    | nil => rw [Transcript.temporaries, fs] at live; cases live
    | cons f fs' =>
      rw [Transcript.temporaries, fs] at live
      simpa using live
  | spill saved => exact .spill saved
  | division known one place => exact .division known one place
  | constant pooled => exact .constant pooled

/-- **A value that can be read**: in whole, or in rows. -/
structure Reads (R : Regime) (K : Nat → Prop) (s : LoweringState) (v : Value) : Prop where
  memory : v.ty.isMatrix = true → ∃ r o, v.location.place? = some (r, o)
  whole : ∀ c, RegisterClass.ofTy? v.ty = some c → R.Input K s c (v.ty.size / 4) v.location
  rows : v.ty.isMatrix = true → ∀ row < v.ty.elementCount,
    R.Input K s .simd 4 (v.location.offsetBy (row * 16))

/-- **A place for a type that can be written**, in whole or in rows. -/
structure Writes (R : Regime) (K : Nat → Prop) (s : LoweringState) (ty : Ty) (l : Location) : Prop where
  memory : ty.isMatrix = true → ∃ r o, l.place? = some (r, o)
  whole : ∀ c, RegisterClass.ofTy? ty = some c → R.Output K s c (ty.size / 4) l
  rows : ty.isMatrix = true → ∀ row < ty.elementCount,
    R.Output K s .simd 4 (l.offsetBy (row * 16))

theorem Reads.course {v : Value} (reads : R.Reads K s v) (fine : R.Fine s)
    (h : R.Path K s t registers held) : R.Reads K t v :=
  ⟨reads.memory, fun c ofTy => (reads.whole c ofTy).course fine h,
    fun matrix row inside => (reads.rows matrix row inside).course fine h⟩

theorem Writes.course {ty : Ty} (writes : R.Writes K s ty l) (h : R.Path K s t registers held)
    (ready : R.Ready K s) : R.Writes K t ty l :=
  ⟨writes.memory, fun c ofTy => (writes.whole c ofTy).course h ready,
    fun matrix row inside => (writes.rows matrix row inside).course h ready⟩

end Regime

end Shading
