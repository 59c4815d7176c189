import Shading.Proofs.Discipline.Emission

/-!
# Operands of emitted instructions

A location stands for parts of the machine: lanes of a register, bytes of
a region, or an address with the container that it points into
(`Regime.parts`). A location that words can be read from
(`Regime.Source`) is one that both machines of a pair read alike.
-/

namespace Shading

open LoweringState

/-- The place of memory at a known offset. -/
def Location.place? : Location → Option (Region × Nat)
  | .globalMemory offset => some (.global, offset)
  | .localMemory offset => some (.local, offset)
  | _ => Option.none

theorem Location.slot?_eq_some {l : Location} {size : Nat} {slot : Slot} :
    l.slot? size = some slot ↔ ∃ r o, l.place? = some (r, o) ∧ slot = ⟨r, o, size⟩ := by
  cases l <;> simp [slot?, place?, eq_comm]

namespace Regime

variable (R : Regime)

/-- **The parts of a machine that a location stands for**: so many words,
or all that an address may lead to. -/
def parts (s : LoweringState) (n : Nat) : Location → Part → Prop
  | .none, _ => False
  | .register id, p => RegisterClass.general.parts id n p
  | .simdRegister id, p => RegisterClass.simd.parts id n p
  | .registerLane id _, p => RegisterClass.simd.parts id 4 p
  | .globalMemory o, p => ∃ k, p = .byte k ∧ o ≤ k ∧ k < o + 4 * n
  | .localMemory o, p => ∃ k, p = .byte k ∧ R.localOffset + o ≤ k ∧ k < R.localOffset + o + 4 * n
  | .indirectRegister id, p => p = .general id ∨
      ∃ slot, Transcript.origin? R.globals s.transcript id = some slot ∧
        ∃ k, p = .byte k ∧ R.bytesOf slot k

/-- **What is at a location is known.** -/
def Knows (s : LoweringState) (n : Nat) (l : Location) : Prop := ∀ p, R.parts s n l p → R.Known s p

/-- **Memory of so many words** that an instruction may name, and write if
`writes` says so. Only what saves registers names the slots for that. -/
inductive Room (s : LoweringState) (saves writes : Bool) (n : Nat) : Location → Prop where
  | indirect {id : Nat} (pool : id ∈ RegisterClass.general.pool) : Room s saves writes n (.indirectRegister id)
  | direct {l : Location} {r : Region} {o : Nat} {use : SlotUse} {slot : Slot}
      (place : l.place? = some (r, o)) (uses : s.Uses use slot) (holds : slot.Holds r o (4 * n))
      (size : slot.stop ≤ s.layout.sizeOf r) (writable : writes = true → use.Writable R.assigned)
      (aligned : n = 4 → o % 16 = 0) (plain : use = .spill → saves = true) : Room s saves writes n l

/-- Memory that the operations of a program name. -/
abbrev Place (s : LoweringState) (writes : Bool) (n : Nat) (l : Location) : Prop := R.Room s false writes n l

/-- **Words that can be read at a location** as an operand of a class. -/
structure Source (s : LoweringState) (c : RegisterClass) (n : Nat) (l : Location) : Prop where
  place : (∃ id ∈ c.pool, l = c.location id) ∨ R.Place s false n l
  known : R.Knows s n l

/-- An address at a location is aligned, if there is one. -/
def ExactAt (s : LoweringState) (l : Location) : Prop :=
  ∀ r, l = .indirectRegister r → R.Shows s (R.Exact r)

end Regime

namespace Regime

variable {R : Regime} {s t : LoweringState} {i : Instruction Nat} {a b : Machine} {K : Nat → Prop}
  {n : Nat} {c : RegisterClass} {l : Location} {p : Operand Nat} {v w : Bool}

theorem pool_lt {id : Nat} (h : id ∈ c.pool) : id < 8 := by
  cases c <;> simp only [RegisterClass.pool, List.mem_cons, List.not_mem_nil, or_false] at h <;> omega

theorem general_ne_base {id : Nat} (h : id ∈ RegisterClass.general.pool) : id ≠ localBaseRegister := by
  rintro rfl
  revert h
  decide

/-! ## Operands of locations -/

theorem operandOf_location (c : RegisterClass) (id : Nat) :
    Lower.operandOf (c.location id) = .ok (.register id) := by cases c <;> rfl

theorem registerField_location (c : RegisterClass) (id : Nat) :
    Lower.registerField (c.location id) = .ok id := by cases c <;> rfl

theorem operandOf_place {r : Region} {o : Nat} (place : l.place? = some (r, o))
    (operand : Lower.operandOf l = .ok p) : p.place? = some (r, o) := by
  cases l <;> simp_all [Location.place?, Lower.operandOf] <;> subst operand <;>
    simp_all [Operand.place?]

theorem operandOf_indirect {id : Nat} (operand : Lower.operandOf (.indirectRegister id) = .ok p) :
    p = .indirect id := (Except.ok.inj operand).symm

theorem eq_of_operandOf_indirect {id : Nat} (operand : Lower.operandOf l = .ok (.indirect id)) :
    l = .indirectRegister id := by
  cases l <;> simp_all [Lower.operandOf]

/-- The operand of a place in memory. -/
theorem Room.operand (h : R.Room s v w n l) : ∃ p, Lower.operandOf l = .ok p := by
  cases h with
  | indirect pool => exact ⟨_, rfl⟩
  | direct place => cases l <;> simp_all [Location.place?, Lower.operandOf]

theorem Room.not_register (h : R.Room s v w n l) (operand : Lower.operandOf l = .ok p) (id : Nat) :
    p ≠ .register id := by
  cases h with
  | indirect pool =>
    rw [operandOf_indirect operand]
    nofun
  | direct place =>
    rintro rfl
    have := operandOf_place place operand
    simp [Operand.place?] at this

/-- A place that may be written may be read. -/
theorem Room.read (h : R.Room s v w n l) : R.Room s v false n l := by
  cases h with
  | indirect pool => exact .indirect pool
  | direct place uses holds size _ aligned plain => exact .direct place uses holds size (by simp) aligned plain

/-- **No operation of a program loads a borrowed register again.** -/
theorem Place.other (h : R.Place s w n l) (fine : R.Fine s) (operand : Lower.operandOf l = .ok i.rm)
    (words : 0 < n) {x : Lease} {avoid : List Location} (taken : .leased x avoid ∈ s.transcript) :
    x.reload? ≠ some i := by
  cases h with
  | indirect pool =>
    refine Lease.reload?_ne_of_rm fun o rm => ?_
    rw [operandOf_indirect operand] at rm
    cases rm
  | @direct _ r o use slot place uses holds _ _ _ plain =>
    have rm := operandOf_place place operand
    cases r with
    | «local» =>
      refine Lease.reload?_ne_of_rm fun o' isGlobal => ?_
      rw [isGlobal] at rm
      cases rm
    | global =>
      refine fine.other uses (fun spill => Bool.false_ne_true (plain spill)) holds (by omega) taken (o := o) ?_
      revert rm
      cases i.rm <;> rintro ⟨⟩
      rfl

theorem Source.operand (h : R.Source s c n l) : ∃ p, Lower.operandOf l = .ok p := by
  rcases h.place with ⟨id, -, rfl⟩ | place
  · exact ⟨_, operandOf_location c id⟩
  · exact place.operand

/-- **An instruction on a place in memory** is one that may be emitted. -/
theorem allowed_place {o : Opcode} {reg : Nat} {immediate : List UInt8} (small : reg < 8)
    (length : immediate.length = o.form.immediate) (place : R.Room s v o.writesOperand n l)
    (operand : Lower.operandOf l = .ok p) (reach : o.reach ≤ 4 * n) (onRegister : o.onRegister = false)
    (spares : ¬ Machine.writesGeneral ⟨o, reg, p, immediate⟩ localBaseRegister)
    (wide : o.isAligned = true → n = 4) :
    Instruction.Allowed s.Uses R.assigned s.layout ⟨o, reg, p, immediate⟩ where
  reg := small
  immediate := length
  register := fun id h => absurd h (place.not_register operand id)
  address := fun id h => by
    cases place with
    | indirect pool =>
      rw [operandOf_indirect operand] at h
      cases h
      exact pool
    | direct place =>
      have := operandOf_place place operand
      simp only at h
      rw [h] at this
      cases this
  whole := fun h => by
    rw [onRegister] at h
    cases h
  spares := spares
  slot := fun r q h => by
    cases place with
    | indirect pool =>
      rw [operandOf_indirect operand] at h
      cases h
    | direct place uses holds size writable =>
      have := operandOf_place place operand
      simp only at h
      rw [h] at this
      cases this
      obtain ⟨region, start, stop⟩ := holds
      exact ⟨_, _, uses, ⟨region, start, by simp only at stop ⊢; omega⟩, size, writable⟩
  aligned := fun h r q at_ => by
    cases place with
    | indirect pool =>
      rw [operandOf_indirect operand] at at_
      cases at_
    | direct place _ _ _ _ aligned _ =>
      have := operandOf_place place operand
      simp only at at_
      rw [at_] at this
      cases this
      exact aligned (wide h)

/-- An instruction on a register is one that may be emitted. -/
theorem allowed_register {uses : SlotUse → Slot → Prop} {assigned : SymbolId → Prop} {layout : Layout}
    {o : Opcode} {reg id : Nat} {immediate : List UInt8} (small : reg < 8) (small' : id < 8)
    (length : immediate.length = o.form.immediate)
    (spares : ¬ Machine.writesGeneral ⟨o, reg, .register id, immediate⟩ localBaseRegister) :
    Instruction.Allowed uses assigned layout ⟨o, reg, .register id, immediate⟩ where
  reg := small
  immediate := length
  register := fun j h => by cases h; exact small'
  address := fun j h => by cases h
  whole := fun _ => ⟨id, rfl⟩
  spares := spares
  slot := fun r q h => by cases h
  aligned := fun _ r q h => by cases h

/-! ## The same operand -/

/-- The block of both machines of a pair is at one place. -/
theorem Both.aligned (h : R.Both a b) : a.Aligned b :=
  ⟨h.1.base.trans h.2.1.base.symm, h.1.size.trans h.2.1.size.symm⟩

/-- **The parts of memory at a known offset** are the bytes there. -/
theorem parts_direct {r : Region} {o : Nat} (place : l.place? = some (r, o)) {q : Part} :
    R.parts s n l q ↔ ∃ k, q = .byte k ∧ R.offsetOf r o ≤ k ∧ k < R.offsetOf r o + 4 * n := by
  cases l <;> simp only [Location.place?, Option.some.injEq, Prod.mk.injEq, reduceCtorEq] at place <;>
    obtain ⟨rfl, rfl⟩ := place <;> rfl

/-- Both machines find an operand at one address. -/
theorem address_congr (place : R.Room s v w n l) (operand : Lower.operandOf l = .ok i.rm)
    (located : ∀ id, i.rm = .indirect id → R.Known s (.general id)) (covers : R.Covers s)
    (reaches : R.Reaches s (.running a b)) (both : R.Both a b) :
    a.operandAddress? i = b.operandAddress? i := by
  cases place with
  | indirect pool =>
    have rm := operandOf_indirect operand
    have same : a.general64 _ = b.general64 _ := located _ rm covers a b reaches
    rw [Machine.operandAddress?_indirect rm, Machine.operandAddress?_indirect rm, same]
  | direct place => exact operandAddress_congr both.1 both.2.1 (operandOf_place place operand)

/-- **The bytes at the operand of an instruction that is carried out** are
parts of its location. -/
theorem parts_of_address (fine : R.Fine s) (contained : R.Contained) (covers : R.Covers s)
    (both : R.Both a b) (place : R.Room s v w n l) (operand : Lower.operandOf l = .ok i.rm)
    (permits : R.permits a i (Transcript.container? R.globals s.transcript i) = true)
    (reach : i.opcode.reach = 4 * n) (words : 0 < n) {x : Nat} (address : a.operandAddress? i = some x)
    (spans : a.Spans x i.opcode.reach) {k : Nat} (at_ : a.bytesAt x (4 * n) k) :
    R.parts s n l (.byte k) := by
  obtain ⟨low, high⟩ := at_
  rw [both.1.base] at low high
  cases place with
  | @indirect id pool =>
    have rm := operandOf_indirect operand
    rw [Machine.operandAddress?_indirect rm] at address
    obtain rfl := Option.some.inj address
    obtain ⟨slot, container, from_, to_⟩ := contained.inside a i _ id permits rm (by omega)
    rw [Transcript.container?, rm] at container
    exact .inr ⟨slot, container, k, rfl, by omega, by omega⟩
  | direct place uses holds size =>
    have place' := operandOf_place place operand
    have size := Nat.le_trans size (covers.sizeOf_le _)
    have stop := Nat.le_trans holds.2.2 size
    obtain rfl := operandAddress_eq fine.regime.behind covers.fits both.1 place' (reach ▸ stop) (by omega) address spans
    exact (parts_direct place).2 ⟨k, rfl, by omega, by omega⟩

/-- **A location that can be read is the same operand** on both machines,
when the first one carries out the instruction. -/
theorem Source.same (h : R.Source s c n l) (fine : R.Fine s) (contained : R.Contained)
    (operand : Lower.operandOf l = .ok i.rm) (covers : R.Covers s)
    (reaches : R.Reaches s (.running a b)) (both : R.Both a b)
    (permits : R.permits a i (Transcript.container? R.globals s.transcript i) = true)
    (reach : i.opcode.reach = 4 * n) (words : 0 < n)
    (spans : ∀ x, a.operandAddress? i = some x → a.Spans x i.opcode.reach) :
    a.SameOperand b i.anchor c n i.anchored.rm := by
  have located (place : R.Place s false n l) (id : Nat) (rm : i.rm = .indirect id) :
      R.Known s (.general id) := by
    cases place with
    | indirect pool =>
      have := operandOf_indirect operand
      rw [rm] at this
      cases this
      exact h.known _ (.inl rfl)
    | direct place =>
      have := operandOf_place place operand
      rw [rm] at this
      cases this
  refine ⟨fun id register q hq => ?_, fun x address => ?_⟩
  · have rm : i.rm = .register id := by
      obtain ⟨opcode, reg, rm, immediate⟩ := i
      cases rm <;> simp_all [Instruction.anchored, Instruction.map, Operand.map]
    rcases h.place with ⟨id', -, rfl⟩ | place
    · rw [operandOf_location, rm] at operand
      cases operand
      exact h.known q (by cases c <;> exact hq) covers a b reaches
    · rw [rm] at operand
      exact absurd rfl (place.not_register operand id)
  · rcases h.place with ⟨id', -, rfl⟩ | place
    · rw [operandOf_location] at operand
      have rm := (Except.ok.inj operand).symm
      have : a.operandAddress? i = some x := address
      rw [Machine.operandAddress?_register rm] at this
      cases this
    · have address : a.operandAddress? i = some x := address
      refine ⟨?_, fun k at_ => ?_⟩
      · have := address_congr place operand (located place) covers reaches both
        exact this.symm.trans address
      · exact h.known _ (parts_of_address fine contained covers both place operand permits reach words
          address (spans x address) at_) covers a b reaches

/-! ## Alignment -/

/-- **The operand of a packed instruction is aligned**: at a known offset,
or by its address register. -/
theorem isMisaligned_eq (fine : R.Fine s) {uses : SlotUse → Slot → Prop}
    (allowed : i.Allowed uses R.assigned s.layout) (covers : R.Covers s)
    (reaches : R.Reaches s (.running a b)) (both : R.Both a b) (high : 2 ^ 32 ≤ R.base)
    (exact : i.opcode.isAligned = true → ∀ id, i.rm = .indirect id → R.Shows s (R.Exact id)) :
    a.isMisaligned i = false := by
  unfold Machine.isMisaligned
  cases isAligned : i.opcode.isAligned with
  | false => rfl
  | true =>
    rw [Bool.true_and]
    rcases i.rm.cases_place with ⟨id, rm⟩ | ⟨id, rm⟩ | ⟨r, o, place⟩
    · rw [Machine.operandAddress?_register rm]
      rfl
    · rw [Machine.operandAddress?_indirect rm]
      have := exact isAligned id rm covers a b reaches high
      simp [this]
    · cases address : a.operandAddress? i with
      | none => rfl
      | some x =>
        have := aligned_of_place fine.regime both.1 place (allowed.aligned isAligned r o place) address
        simp [this]

/-- **How a pair carries out an instruction** is shown for pairs that keep
to the containers, and for machines that carry it out. -/
theorem carries_of {lost gained : Part → Prop} (fine : R.Fine s) {uses : SlotUse → Slot → Prop}
    (allowed : i.Allowed uses R.assigned s.layout)
    (exact : i.opcode.isAligned = true → ∀ id, i.rm = .indirect id → R.Shows s (R.Exact id))
    (follows : R.Contained → R.Covers s → ∀ a b, R.Reaches s (.running a b) → R.Both a b →
      R.permits a i (Transcript.container? R.globals s.transcript i) = true →
      (∀ x, a.operandAddress? i = some x → i.opcode.reach ≠ 0 → a.Spans x i.opcode.reach) →
      Follows (a.perform R.rsqrt i) (b.perform R.rsqrt i) fun a' b' =>
        (∀ p, ¬ lost p → a.Same b p → a'.Same b' p) ∧ ∀ p, gained p → a'.Same b' p) :
    R.Carries s i lost gained := by
  intro covers a b reaches both permits
  refine ⟨fun high => isMisaligned_eq fine allowed covers reaches both high exact, ?_⟩
  rcases fine.regime.kind with identical | contained
  · obtain ⟨a₀, b₀, start, run⟩ := reaches
    obtain rfl := identical.eq_of_run (l := 0) start (.inl run)
    exact fun a' run => ⟨a', run, fun p _ _ => by cases p <;> rfl, fun p _ => by cases p <;> rfl⟩
  · intro a' run
    exact follows contained covers a b reaches both permits
      (fun x address access => Machine.execute_spans run address access) a' run

end Regime

end Shading
