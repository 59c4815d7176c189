import Shading.Proofs.Discipline.Course

/-!
# Emitting an instruction

An instruction that a lowering may emit (`Regime.Admits`) leads from a
state that keeps the rules to another one (`Admits.course`): it writes no
constant and not the base of the local region, both machines of a pair
carry it out or the first one does not, and what is known afterwards is
what it computes from what was known. All of this is true as well of the
instruction that loads a borrowed register again (`Regime.Carried`), which
is emitted nowhere but at the end of a lease.
-/

namespace Shading

open LoweringState

/-! ## Addresses of operands -/

theorem signedValue_small {d : Nat} (h : d < 2 ^ 31) : signedValue 32 d = d := by
  rw [signedValue, Int.bmod_def]
  split <;> omega

theorem signedValue_large {d : Nat} (h : 2 ^ 31 ≤ d) (h' : d < 2 ^ 32) :
    signedValue 32 d = (d : Int) - 2 ^ 32 := by
  rw [signedValue, Int.bmod_def]
  split <;> omega

/-- The bytes of a region that are in use. -/
def Regime.sizeOf (R : Regime) : Region → Nat
  | .global => R.globalSize
  | .local => R.localSize

namespace Machine

theorem operandAddress?_globalAt {m : Machine} {i : Instruction Nat} {o : Nat} (h : i.rm = .globalAt o) :
    m.operandAddress? i = some (((m.base + o : Nat) + signedValue 32 0) % addressCount).toNat := by
  obtain ⟨opcode, reg, rm, immediate⟩ := i
  cases h
  rfl

theorem operandAddress?_localAt {m : Machine} {i : Instruction Nat} {o : Nat} (h : i.rm = .localAt o) :
    m.operandAddress? i =
      some (((m.general64 localBaseRegister).toNat + signedValue 32 o) % addressCount).toNat := by
  obtain ⟨opcode, reg, rm, immediate⟩ := i
  cases h
  rfl

theorem operandAddress?_indirect {m : Machine} {i : Instruction Nat} {id : Nat}
    (h : i.rm = .indirect id) : m.operandAddress? i = some (m.general64 id).toNat := by
  obtain ⟨opcode, reg, rm, immediate⟩ := i
  cases h
  rfl

theorem operandAddress?_register {m : Machine} {i : Instruction Nat} {id : Nat}
    (h : i.rm = .register id) : m.operandAddress? i = none := by
  obtain ⟨opcode, reg, rm, immediate⟩ := i
  cases h
  rfl

/-- Placing an operand does not change which general register is written. -/
theorem writesGeneral_anchored {i : Instruction Nat} {id : Nat} :
    writesGeneral i.anchored id ↔ writesGeneral i id := by
  obtain ⟨opcode, reg, rm, immediate⟩ := i
  cases opcode <;> cases rm <;> simp [writesGeneral, Instruction.anchored, Instruction.map, Operand.map]

/-- The base of the local region stays where no instruction writes it. -/
theorem localBase_perform {m m' : Machine} {i : Instruction Nat} {rsqrt : Word → Word}
    (small : ∀ id, writesGeneral i id → id < 8) (spares : ¬ writesGeneral i localBaseRegister)
    (run : m.perform rsqrt i = .ok m') : m'.general64 localBaseRegister = m.general64 localBaseRegister := by
  rcases execute_spares run localBaseRegister with same | ⟨j, writes, index, -⟩
  · exact same
  · rw [writesGeneral_anchored] at writes
    have small := small j writes
    have : j = localBaseRegister := by
      unfold localBaseRegister at index ⊢
      omega
    exact absurd (this ▸ writes) spares

end Machine

/-- An instruction writes its register, its operand or those of a
division. -/
theorem Machine.cases_of_writes {i : Instruction Nat} {id : Nat} (h : writesGeneral i id) :
    i.reg = id ∨ i.rm = .register id ∨ id = 0 ∨ id = 2 := by
  obtain ⟨opcode, reg, rm, immediate⟩ := i
  cases opcode <;> simp_all [writesGeneral]

theorem Instruction.Allowed.lt_of_writes {uses : SlotUse → Slot → Prop} {assigned : SymbolId → Prop}
    {l : Layout} {i : Instruction Nat} (h : i.Allowed uses assigned l) {id : Nat}
    (writes : Machine.writesGeneral i id) : id < 8 := by
  rcases Machine.cases_of_writes writes with rfl | register | rfl | rfl
  · exact h.reg
  · exact h.register id register
  · decide
  · decide

/-- Operands in memory are those at a known offset and those behind an
address register. -/
theorem Operand.cases_place (rm : Operand Nat) : (∃ id, rm = .register id) ∨
    (∃ id, rm = .indirect id) ∨ ∃ r o, rm.place? = some (r, o) := by
  cases rm <;> simp [Operand.place?]

/-- The scratch words of divisions are within their twelve bytes. -/
theorem DivisionSlots.within_at {x : Nat} {location : Location} {slot : Slot}
    (one : location = (DivisionSlots.at x).eax ∨ location = (DivisionSlots.at x).edx ∨
      location = (DivisionSlots.at x).divisor)
    (place : location.slot? 4 = some slot) : slot.stop ≤ x + 12 ∧ x ≤ slot.offset := by
  rcases one with rfl | rfl | rfl <;>
    simp only [DivisionSlots.at, Location.slot?, Option.some.injEq] at place <;>
    subst place <;> simp only [Slot.stop] <;> omega

namespace Regime

variable {R : Regime} {s t : LoweringState} {i : Instruction Nat} {a b a' b' : Machine} {K : Nat → Prop}

/-- **An operand at a known offset** that is in the block lies there. -/
theorem operandAddress_eq (behind : R.globalSize ≤ R.localOffset) (fits : R.Fits) (grounds : R.Grounds a) {r : Region} {o n x : Nat}
    (place : i.rm.place? = some (r, o)) (bound : o + n ≤ R.sizeOf r) (reach : 0 < n)
    (address : a.operandAddress? i = some x) (spans : a.Spans x n) :
    x = R.base + R.offsetOf r o := by
  obtain ⟨low, high⟩ := spans
  rw [grounds.base] at low high
  rw [grounds.size] at high
  have whole := fits.whole
  have inside := fits.inside
  have limit := fits.reach
  cases h : i.rm with
  | register id => simp [h, Operand.place?] at place
  | indirect id => simp [h, Operand.place?] at place
  | globalAt offset =>
    simp only [h, Operand.place?, Option.some.injEq, Prod.mk.injEq] at place
    obtain ⟨rfl, rfl⟩ := place
    rw [Machine.operandAddress?_globalAt h, grounds.base, signedValue_small (by decide)] at address
    simp only [sizeOf] at bound
    have := Option.some.inj address
    unfold Machine.addressCount at this
    simp only [offsetOf]
    omega
  | localAt offset =>
    simp only [h, Operand.place?, Option.some.injEq, Prod.mk.injEq] at place
    obtain ⟨rfl, rfl⟩ := place
    rw [Machine.operandAddress?_localAt h, grounds.localBase] at address
    simp only [sizeOf] at bound
    have := Option.some.inj address
    unfold Machine.addressCount at this
    simp only [offsetOf]
    by_cases small : offset < 2 ^ 31
    · rw [signedValue_small small] at this
      omega
    · by_cases large : offset < 2 ^ 32
      · rw [signedValue_large (by omega) large] at this
        omega
      · omega

/-- Both machines of a pair find an operand at a known offset in one
place. -/
theorem operandAddress_congr (ha : R.Grounds a) (hb : R.Grounds b) {r : Region} {o : Nat}
    (place : i.rm.place? = some (r, o)) : a.operandAddress? i = b.operandAddress? i := by
  cases h : i.rm with
  | register id => simp [h, Operand.place?] at place
  | indirect id => simp [h, Operand.place?] at place
  | globalAt offset =>
    rw [Machine.operandAddress?_globalAt h, Machine.operandAddress?_globalAt h, ha.base, hb.base]
  | localAt offset =>
    rw [Machine.operandAddress?_localAt h, Machine.operandAddress?_localAt h, ha.localBase,
      hb.localBase]

/-- **An aligned offset is an aligned address.** -/
theorem aligned_of_place (sound : R.Sound) (grounds : R.Grounds a) {r : Region} {o : Nat}
    (place : i.rm.place? = some (r, o)) (aligned : o % 16 = 0) {x : Nat}
    (address : a.operandAddress? i = some x) : x % 16 = 0 := by
  have base := sound.aligned
  have localBase := sound.localAligned
  cases h : i.rm with
  | register id => simp [h, Operand.place?] at place
  | indirect id => simp [h, Operand.place?] at place
  | globalAt offset =>
    simp only [h, Operand.place?, Option.some.injEq, Prod.mk.injEq] at place
    obtain ⟨rfl, rfl⟩ := place
    rw [Machine.operandAddress?_globalAt h, grounds.base, signedValue_small (by decide)] at address
    have := Option.some.inj address
    unfold Machine.addressCount at this
    omega
  | localAt offset =>
    simp only [h, Operand.place?, Option.some.injEq, Prod.mk.injEq] at place
    obtain ⟨rfl, rfl⟩ := place
    rw [Machine.operandAddress?_localAt h, grounds.localBase] at address
    have := Option.some.inj address
    unfold Machine.addressCount signedValue at this
    rw [Int.bmod_def] at this
    split at this <;> omega

/-! ## What an instruction leaves alone -/

/-- An instruction that a lowering may emit leaves block and local region
where they are. -/
theorem Grounds.perform {uses : SlotUse → Slot → Prop} {l : Layout}
    (allowed : i.Allowed uses R.assigned l) (grounds : R.Grounds a)
    (run : a.perform R.rsqrt i = .ok a') : R.Grounds a' := by
  have frames := Machine.execute_frames run
  refine ⟨frames.base.trans grounds.base, frames.size.trans grounds.size, ?_⟩
  rw [Machine.localBase_perform (fun id => allowed.lt_of_writes) allowed.spares run]
  exact grounds.localBase

/-- **What may be written holds no constant.** -/
theorem Fine.apart_of_writable (fine : R.Fine s)
    (later : ∀ c ∈ R.constants, c ∈ s.constants.slots ∨ s.globalTop ≤ c.2) {use : SlotUse} {slot : Slot}
    (uses : s.Uses use slot) (writable : use.Writable R.assigned) (isGlobal : slot.region = .global)
    {c : Constant × Nat} (hc : c ∈ R.constants) :
    c.2 + c.1.size ≤ slot.offset ∨ slot.stop ≤ c.2 := by
  cases uses with
  | symbol known isVariable visible place =>
    rcases fine.housed _ _ _ known isVariable visible place with live | isGlobal'
    · rw [(fine.live _ live).1] at isGlobal
      cases isGlobal
    · exact .inr ((fine.regime.pooled c hc).2 _ isGlobal')
  | temporary live own =>
    rw [own] at isGlobal
    cases isGlobal
  | spill saved =>
    have saves := fine.spills _ saved
    rcases later c hc with now | behind
    · exact saves.constants c now
    · exact .inr (Nat.le_trans saves.below behind)
  | division known one place =>
    obtain ⟨x, rfl, -, stop, apart⟩ := fine.ok.division _ known
    have here := DivisionSlots.within_at one place
    rcases later c hc with now | behind
    · rcases apart c now with below | above
      · exact .inl (Nat.le_trans below here.2)
      · exact .inr (Nat.le_trans here.1 above)
    · exact .inr (Nat.le_trans here.1 (Nat.le_trans stop behind))
  | constant pooled => exact writable.elim

/-- **What else there is in global memory is no slot that a register was
saved in.** -/
theorem Fine.other (fine : R.Fine s) {use : SlotUse} {slot : Slot} (uses : s.Uses use slot) (plain : use ≠ .spill)
    {o n : Nat} (holds : slot.Holds .global o n) (words : 0 < n) {x : Lease} {avoid : List Location}
    (taken : .leased x avoid ∈ s.transcript) (rm : i.rm = .globalAt o) : x.reload? ≠ some i := by
  intro reload
  obtain ⟨c, id, offset, rfl, saved, -⟩ := x.reload?_eq_some.1 reload
  obtain rfl : offset = o := Operand.globalAt.inj rm
  have saves := fine.spills _ (Transcript.mem_spills taken saved)
  obtain ⟨region, start, stop⟩ := holds
  cases uses with
  | symbol known isVariable visible place =>
    rcases fine.housed _ _ _ known isVariable visible place with live | isGlobal
    · rw [(fine.live _ live).1] at region
      cases region
    · have : slot.stop ≤ offset := saves.globals _ isGlobal
      omega
  | temporary live own =>
    rw [own] at region
    cases region
  | spill => exact plain rfl
  | division known one place =>
    obtain ⟨x, rfl, -⟩ := fine.ok.division _ known
    have here := DivisionSlots.within_at one place
    have wide : 0 < c.spillSize := by cases c <;> exact Nat.zero_lt_succ _
    have := saves.division x known
    simp only [Slot.stop] at *
    omega
  | constant pooled =>
    have wide : 0 < c.spillSize := by cases c <;> exact Nat.zero_lt_succ _
    have := saves.constants _ pooled
    simp only [Slot.stop] at *
    omega

/-- **Slots of global memory** lie below what is free of it. -/
theorem Fine.below (fine : R.Fine s) {es : List LoweringEvent} (before : es <:+ s.transcript) {use : SlotUse}
    {slot : Slot} (uses : Shading.Uses s.declarations s.function s.constants s.divisionSlots es use slot)
    (region : slot.region = .global) : slot.stop ≤ s.globalTop := by
  cases uses with
  | symbol known isVariable visible place =>
    rcases fine.housed _ _ _ known isVariable visible place with live | isGlobal
    · rw [(fine.live _ live).1] at region
      cases region
    · exact fine.globals _ isGlobal
  | temporary live own =>
    rw [own] at region
    cases region
  | spill saved => exact (fine.spills _ (Transcript.spills_of_suffix before saved)).below
  | division known one place =>
    obtain ⟨x, rfl, -, stop, -⟩ := fine.ok.division _ known
    exact Nat.le_trans (DivisionSlots.within_at one place).1 stop
  | constant pooled => exact (fine.ok.pooled _ pooled).1

/-- **A register that is borrowed has not been loaded from its slot**, which
is new. -/
theorem Fine.fresh (fine : R.Fine s) {x : Lease} {l : Layout} {c : RegisterClass} {id : Nat} {avoid : List Location}
    (grants : s.layout.Grants l c avoid x id) {l' : Layout} (before : .emitted i l' ∈ s.transcript) :
    x.reload? ≠ some i := by
  intro reload
  obtain ⟨c', id', offset, rfl, saved, register⟩ := x.reload?_eq_some.1 reload
  have above : s.globalTop ≤ offset := by
    rcases grants.spill with ⟨none, -⟩ | ⟨-, o, spill, above, -⟩
    · simp [Lease.saved?, none] at saved
    · have : o = offset := by simpa [Lease.saved?, spill, Location.slot?, register] using saved
      exact this ▸ above
  obtain ⟨later, es, eq⟩ := List.append_of_mem before
  have suffix : (.emitted _ l' :: es) <:+ s.transcript := ⟨later, eq.symm⟩
  obtain ⟨use, slot, uses, ⟨region, start, stop⟩, -⟩ := (fine.allowed es _ l' suffix).slot .global offset rfl
  have below := fine.below ((List.suffix_cons _ _).trans suffix) uses region
  have reach : 0 < (Lower.spillWidth c').load.reach := by cases c' <;> exact Nat.zero_lt_succ _
  simp only at stop
  omega

/-- What is handed out so far lies in the regions of the regime. -/
theorem Covers.sizeOf_le (covers : R.Covers s) (r : Region) : s.layout.sizeOf r ≤ R.sizeOf r := by
  cases r with
  | global => exact covers.globalSize
  | «local» => exact covers.localSize

/-- **An instruction that a lowering may emit leaves the constants
alone**, on a machine that keeps to the containers. -/
theorem HoldsConstants.perform (fine : R.Fine s) (covers : R.Covers s)
    (allowed : i.Allowed s.Uses R.assigned s.layout) (grounds : R.Grounds a)
    (inside : ∀ id, i.rm = .indirect id → i.opcode.reach ≠ 0 →
      ∃ slot, Transcript.container? R.globals s.transcript i = some slot ∧
        R.base + R.offsetOf slot.region slot.offset ≤ (a.general64 id).toNat ∧
        (a.general64 id).toNat + i.opcode.reach ≤
          R.base + R.offsetOf slot.region slot.offset + slot.size)
    (holds : R.HoldsConstants a) (run : a.perform R.rsqrt i = .ok a') : R.HoldsConstants a' := by
  intro c hc k hk
  rw [← holds c hc k hk]
  refine (Machine.execute_frames run).bytes _ ?_
  rintro ⟨writes, x, address, at_⟩
  have address : a.operandAddress? i = some x := address
  have writes : i.opcode.writesOperand = true := writes
  have access : i.opcode.reach ≠ 0 := by
    intro none
    revert writes none
    cases i.opcode <;> simp [Opcode.writesOperand, Opcode.reach]
  have spans := Machine.execute_spans run address access
  obtain ⟨low, high⟩ := at_
  rw [grounds.base] at low high
  have high : R.base + (c.2 + k) < x + i.opcode.reach := high
  have pooled := fine.regime.pooled c hc
  have behind := fine.regime.behind
  -- The pool lies behind all slots. A register takes no bytes; an address in a register
  -- stays in the slot it was made for; a place that is named is a slot that the code
  -- may write.
  rcases i.rm.cases_place with ⟨id, h⟩ | ⟨id, h⟩ | ⟨r, o, place⟩
  · rw [Machine.operandAddress?_register h] at address
    cases address
  · rw [Machine.operandAddress?_indirect h] at address
    obtain rfl := Option.some.inj address
    obtain ⟨slot, container, from_, to_⟩ := inside id h access
    rw [Transcript.container?, h] at container
    rcases fine.containers id slot container with isGlobal | ⟨isLocal, -⟩
    · have := pooled.2 slot isGlobal
      rw [(fine.regime.global slot isGlobal).1] at from_ to_
      simp only [offsetOf, Slot.stop] at *
      omega
    · rw [isLocal] at from_
      simp only [offsetOf] at from_
      omega
  · obtain ⟨use, slot, uses, ⟨region, start, stop⟩, size, writable⟩ := allowed.slot r o place
    have size := Nat.le_trans size (covers.sizeOf_le r)
    obtain rfl := operandAddress_eq fine.regime.behind covers.fits grounds place (Nat.le_trans stop size)
      (Nat.pos_of_ne_zero access) address spans
    cases r with
    | «local» =>
      simp only [offsetOf] at low
      omega
    | global =>
      have := fine.apart_of_writable covers.later uses (writable writes) region hc
      simp only [offsetOf] at low high
      omega

/-! ## The instruction and the runs -/

/-- The code after an instruction has been written. -/
theorem code_wrote (fine : R.Fine s) (text : String) : R.code (Lower.wrote s i text) =
    R.code s ++ [(.instruction i text, Transcript.container? R.globals s.transcript i)] := by
  have count : (s.assembly.entries.filterMap CodeEntry.instruction?).length =
      (Transcript.containers R.globals s.transcript).length := by
    rw [fine.instructions, Transcript.length_containers]
  exact withContainers_append count

/-- Where an instruction leads was led to before. -/
theorem reaches_wrote (fine : R.Fine s) {text : String} {pair : Pair}
    (reaches : R.Reaches (Lower.wrote s i text) pair) : ∃ before, R.Reaches s before ∧
      Pair.step R before (.instruction i text, Transcript.container? R.globals s.transcript i) = pair := by
  obtain ⟨a, b, start, run⟩ := reaches
  rw [code_wrote fine, Pair.run_concat] at run
  exact ⟨_, ⟨a, b, start, rfl⟩, run⟩

/-- **What a pair of machines makes of an instruction**: if it is
permitted, its operand is aligned where it has to be, and the second
machine follows the first one. Only what is in `lost` may cease to be the
same, and what is in `gained` is the same. -/
def Carries (R : Regime) (s : LoweringState) (i : Instruction Nat) (lost gained : Part → Prop) : Prop :=
  R.Covers s → ∀ a b, R.Reaches s (.running a b) → R.Both a b →
    R.permits a i (Transcript.container? R.globals s.transcript i) = true →
    (2 ^ 32 ≤ R.base → a.isMisaligned i = false) ∧
    Follows (a.perform R.rsqrt i) (b.perform R.rsqrt i) fun a' b' =>
      (∀ p, ¬ lost p → a.Same b p → a'.Same b' p) ∧ ∀ p, gained p → a'.Same b' p

/-- **An instruction that pairs of machines carry out.** -/
structure Carried (R : Regime) (K : Nat → Prop) (s : LoweringState) (i : Instruction Nat)
    (lost gained : Part → Prop) : Prop where
  allowed : i.Allowed s.Uses R.assigned s.layout
  /-- Both machines have one address. -/
  located : ∀ id, i.rm = .indirect id → R.Known s (.general id)
  carries : R.Carries s i lost gained
  /-- A register that is held gets no address. -/
  narrow : ∀ id, K id → Machine.writesGeneral i id → i.opcode.form.wide = false

/-- **An instruction that a lowering may emit**, and that is not there to
load a borrowed register again. -/
structure Admits (R : Regime) (K : Nat → Prop) (s : LoweringState) (i : Instruction Nat)
    (lost gained : Part → Prop) : Prop extends R.Carried K s i lost gained where
  other : ∀ x avoid, .leased x avoid ∈ s.transcript → x.reload? ≠ some i

namespace Carried

variable {lost gained : Part → Prop}

/-- A pair that goes on after an instruction went on before. -/
theorem running (carried : R.Carried K s i lost gained) (fine : R.Fine s) (covers : R.Covers s)
    {text : String} (reaches : R.Reaches (Lower.wrote s i text) (.running a' b')) :
    ∃ a b, R.Reaches s (.running a b) ∧ R.Both a b ∧
      R.permits a i (Transcript.container? R.globals s.transcript i) = true ∧
      a.perform R.rsqrt i = .ok a' ∧ b.perform R.rsqrt i = .ok b' ∧
      (∀ p, ¬ lost p → a.Same b p → a'.Same b' p) ∧ ∀ p, gained p → a'.Same b' p := by
  obtain ⟨before, earlier, step⟩ := reaches_wrote fine reaches
  cases before with
  | running a b =>
    have both := fine.grounded covers a b (.inl earlier)
    simp only [Pair.step, Pair.perform] at step
    split at step
    · next permits =>
      split at step
      · cases step
      · obtain ⟨-, follows⟩ := carried.carries covers a b earlier both permits
        cases ha : a.perform R.rsqrt i with
        | error f => simp [ha] at step
        | ok x =>
          obtain ⟨y, hb, keeps, gains⟩ := follows x ha
          simp only [ha, hb, Pair.running.injEq] at step
          obtain ⟨rfl, rfl⟩ := step
          exact ⟨a, b, earlier, both, permits, ha, hb, keeps, gains⟩
    · cases step
  | seeking l a b => cases step
  | returned a b => cases step
  | stopped => cases step
  | parted => cases step

theorem reaches_seeking (fine : R.Fine s) {text : String} {l : Nat}
    (reaches : R.Reaches (Lower.wrote s i text) (.seeking l a b)) : R.Reaches s (.seeking l a b) := by
  obtain ⟨before, reaches, step⟩ := reaches_wrote fine reaches
  cases before with
  | running a b =>
    simp only [Pair.step, Pair.perform] at step
    split at step
    · split at step
      · cases step
      · split at step <;> cases step
    · cases step
  | seeking l a b => exact step ▸ reaches
  | returned a b => cases step
  | stopped => cases step
  | parted => cases step

theorem reaches_returned (fine : R.Fine s) {text : String}
    (reaches : R.Reaches (Lower.wrote s i text) (.returned a b)) : R.Reaches s (.returned a b) := by
  obtain ⟨before, reaches, step⟩ := reaches_wrote fine reaches
  cases before with
  | running a b =>
    simp only [Pair.step, Pair.perform] at step
    split at step
    · split at step
      · cases step
      · split at step <;> cases step
    · cases step
  | seeking l a b => cases step
  | returned a b => exact step ▸ reaches
  | stopped => cases step
  | parted => cases step

theorem admitted (carried : R.Carried K s i lost gained) (fine : R.Fine s) (covers : R.Covers s)
    {text : String} : ¬ R.Reaches (Lower.wrote s i text) .parted := by
  intro reaches
  obtain ⟨before, reaches, step⟩ := reaches_wrote fine reaches
  cases before with
  | running a b =>
    have both := fine.grounded covers a b (.inl reaches)
    simp only [Pair.step, Pair.perform] at step
    split at step
    · next permits =>
      obtain ⟨aligned, follows⟩ := carried.carries covers a b reaches both permits
      split at step
      · next misaligned =>
        simp only [Bool.and_eq_true, decide_eq_true_eq] at misaligned
        rw [aligned misaligned.1] at misaligned
        cases misaligned.2
      · cases ha : a.perform R.rsqrt i with
        | error f => simp [ha] at step
        | ok x =>
          obtain ⟨y, hb, -⟩ := follows x ha
          simp [ha, hb] at step
    · cases step
  | seeking l a b => cases step
  | returned a b => cases step
  | stopped => cases step
  | parted => exact fine.admitted covers reaches

/-- Both machines of a pair stay in good order. -/
theorem both (carried : R.Carried K s i lost gained) (fine : R.Fine s) (covers : R.Covers s)
    (reaches : R.Reaches s (.running a b)) (before : R.Both a b)
    (permits : R.permits a i (Transcript.container? R.globals s.transcript i) = true)
    (ha : a.perform R.rsqrt i = .ok a') (hb : b.perform R.rsqrt i = .ok b') : R.Both a' b' := by
  obtain ⟨groundsA, groundsB, constants⟩ := before
  refine ⟨groundsA.perform carried.allowed ha, groundsB.perform carried.allowed hb, fun contained => ?_⟩
  obtain ⟨holdsA, holdsB⟩ := constants contained
  have inside := fun id rm access => contained.inside a i _ id permits rm access
  refine ⟨holdsA.perform fine covers carried.allowed groundsA inside ha,
    holdsB.perform fine covers carried.allowed groundsB (fun id rm access => ?_) hb⟩
  have same : a.general64 id = b.general64 id := carried.located id rm covers a b reaches
  rw [← same]
  exact inside id rm access

/-- The slots that address registers point into. -/
theorem containers (fine : R.Fine s) {r : Nat} {slot : Slot} {l : Layout}
    (h : Transcript.origin? R.globals (.emitted i l :: s.transcript) r = some slot) :
    slot ∈ R.globals ∨ (slot.region = .local ∧ slot.stop ≤ s.layout.localSize) := by
  simp only [Transcript.origin?] at h
  split at h
  · split at h
    · obtain ⟨⟨region, offset⟩, -, found⟩ := Option.bind_eq_some_iff.1 h
      rcases List.mem_append.1 (Slot.mem_of_at? found) with live | isGlobal
      · obtain ⟨isLocal, stop⟩ := fine.live slot live
        exact .inr ⟨isLocal, Nat.le_trans stop fine.ok.layout.localTop⟩
      · exact .inl isGlobal
    · exact fine.containers _ slot h
    · exact fine.containers _ slot h
  · exact fine.containers _ slot h

/-- **The state after an instruction keeps the rules.** -/
theorem fine (carried : R.Carried K s i lost gained) (fine : R.Fine s) (text : String) :
    R.Fine (Lower.wrote s i text) where
  regime := fine.regime
  ok := (Lower.leads_wrote fine.ok i text).ok
  entries := fine.entries.concat rfl
  instructions := by
    change (s.assembly.entries ++ [CodeEntry.instruction i text]).filterMap _ = _ ++ [i]
    rw [List.filterMap_append, fine.instructions]
    rfl
  allowed := fun es j l suffix => by
    rcases List.suffix_cons_iff.1 suffix with eq | suffix
    · simp only [List.cons.injEq, LoweringEvent.emitted.injEq] at eq
      obtain ⟨⟨rfl, rfl⟩, rfl⟩ := eq
      exact carried.allowed
    · exact fine.allowed es j l suffix
  apart := fine.apart
  live := fine.live
  housed := fine.housed
  spills := fun slot hs => (fine.spills slot hs).leads (Lower.leads_wrote fine.ok i text)
  globals := fine.globals
  containers := fun _ _ h => containers fine h
  admitted := fun covers => carried.admitted fine (covers.back (Lower.leads_wrote fine.ok i text))
  grounded := fun covers a' b' progress => by
    have covers := covers.back (Lower.leads_wrote fine.ok i text)
    rcases progress with reaches | ⟨l, reaches⟩
    · obtain ⟨a, b, reaches, both, permits, ha, hb, -⟩ := carried.running fine covers reaches
      exact carried.both fine covers reaches both permits ha hb
    · exact fine.grounded covers a' b' (.inr ⟨l, reaches_seeking fine reaches⟩)
  returned := fun covers a' b' reaches =>
    fine.returned (covers.back (Lower.leads_wrote fine.ok i text)) a' b' (reaches_returned fine reaches)

/-- **What an instruction computes is known.** -/
theorem gains (carried : R.Carried K s i lost gained) (fine : R.Fine s) (text : String) {p : Part}
    (h : gained p) : R.Known (Lower.wrote s i text) p := fun covers a' b' reaches => by
  have covers := covers.back (Lower.leads_wrote fine.ok i text)
  obtain ⟨a, b, -, -, -, -, -, -, gains⟩ := carried.running fine covers reaches
  exact gains p h

/-- What was known still is, unless it is lost. -/
theorem keeps (carried : R.Carried K s i lost gained) (fine : R.Fine s) (text : String) {p : Part}
    (h : ¬ lost p) (known : R.Known s p) : R.Known (Lower.wrote s i text) p :=
  fun covers a' b' reaches => by
    have covers := covers.back (Lower.leads_wrote fine.ok i text)
    obtain ⟨a, b, reaches, -, -, -, -, keeps, -⟩ := carried.running fine covers reaches
    exact keeps p h (known covers a b reaches)

/-- A general register that an instruction does not write. -/
theorem spared {uses : SlotUse → Slot → Prop} {l : Layout} (allowed : i.Allowed uses R.assigned l)
    {r : Nat} (small : r < 8) (run : a.perform R.rsqrt i = .ok a') :
    a'.general64 r = a.general64 r ∨ Machine.writesGeneral i r ∧
      (i.opcode.form.wide = true ∨ (a'.general64 r).toNat < 2 ^ 32) := by
  rcases Machine.execute_spares run r with same | ⟨j, writes, index, wide⟩
  · exact .inl same
  · rw [Machine.writesGeneral_anchored] at writes
    have below := allowed.lt_of_writes writes
    obtain rfl : j = r := by omega
    exact .inr ⟨writes, wide⟩

/-- **A register that is not written keeps its alignment.** -/
theorem exact (carried : R.Carried K s i lost gained) (fine : R.Fine s) (text : String) {r : Nat}
    (small : r < 8) (other : ¬ Machine.writesGeneral i r) (h : R.Shows s (R.Exact r)) :
    R.Shows (Lower.wrote s i text) (R.Exact r) := fun covers a' b' reaches => by
  have covers := covers.back (Lower.leads_wrote fine.ok i text)
  obtain ⟨a, b, reaches, -, -, ha, -⟩ := carried.running fine covers reaches
  rcases spared carried.allowed small ha with same | ⟨writes, -⟩
  · intro high
    rw [same]
    exact h covers a b reaches high
  · exact absurd writes other

/-- Where an address register points is a matter of instructions on
addresses. -/
theorem origin (globals : List Slot) (es : List LoweringEvent) (l : Layout) {r : Nat}
    (narrow : Machine.writesGeneral i r → i.opcode.form.wide = false) :
    Transcript.origin? globals (.emitted i l :: es) r = Transcript.origin? globals es r := by
  simp only [Transcript.origin?]
  split
  · next same =>
    obtain ⟨opcode, reg, rm, immediate⟩ := i
    dsimp only at same narrow ⊢
    subst same
    split
    · exact absurd (narrow rfl) (by decide)
    · exact absurd (narrow rfl) (by decide)
    · rfl
  · rfl

/-- What becomes of the registers that are held. -/
theorem soft (carried : R.Carried K s i lost gained) (fine : R.Fine s) (text : String) {r : Nat}
    (small : r < 8) (held : K r) (h : R.Shows s (R.Soft r)) :
    R.Shows (Lower.wrote s i text) (R.Soft r) := fun covers a' b' reaches high => by
  have covers := covers.back (Lower.leads_wrote fine.ok i text)
  obtain ⟨a, b, reaches, -, -, ha, -⟩ := carried.running fine covers reaches
  rcases spared carried.allowed small ha with same | ⟨writes, wide | short⟩
  · rw [same]
    exact h covers a b reaches high
  · rw [carried.narrow r held writes] at wide
    cases wide
  · exact .inr short

/-- **A walk goes on with an instruction**, if what is lost was not relied
on, or is known again. -/
theorem walk {s₀ : LoweringState} {registers : List Location} {held : List Lease}
    (carried : R.Carried K s i lost gained) (ready : R.Ready K s) (text : String)
    (h : R.Walk K s₀ s registers held) (bytes : ∀ j, lost (.byte j) → ¬ R.Kept s (.byte j))
    (recovers : ∀ p, lost p → R.Kept s₀ p → R.Known s₀ p → R.Known (Lower.wrote s i text) p) :
    R.Walk K s₀ (Lower.wrote s i text) registers held where
  leads := h.leads.step (Lower.leads_wrote ready.fine.ok i text)
  fine := carried.fine ready.fine text
  code := by
    obtain ⟨new, eq, young⟩ := h.code
    refine ⟨new ++ _, by rw [code_wrote ready.fine, eq, List.append_assoc], fun e he l hl => ?_⟩
    rcases List.mem_append.1 he with he | he
    · exact young e he l hl
    · rw [List.mem_singleton.1 he] at hl
      rcases hl with hl | hl <;> cases hl
  transcript := h.transcript.trans (List.suffix_cons _ _)
  frames := h.frames
  origins := fun r hr => (origin _ _ _ (carried.narrow r hr)).trans (h.origins r hr)
  knows := fun p kept known => by
    by_cases out : lost p
    · exact recovers p out kept known
    · exact carried.keeps ready.fine text out (h.knows p kept known)
  soft := fun r hr soft => carried.soft ready.fine text (ready.lt hr) hr (h.soft r hr soft)
  saved := fun x hx c id o pool location spill => by
    obtain ⟨keeps, mem, known⟩ := h.saved x hx c id o pool location spill
    refine ⟨(Lower.leads_wrote ready.fine.ok i text).keeps keeps, mem, fun k hk same j low high => ?_⟩
    refine carried.keeps ready.fine text (fun out => bytes j out ?_) (known k hk same j low high)
    exact Path.kept_of_keeps keeps (by omega) (by omega)

end Carried

/-- An instruction is no jump. -/
theorem Course.bound_wrote {s₀ : LoweringState} {registers : List Location} {held : List Lease}
    (h : R.Course K s₀ s registers held) (i : Instruction Nat) (text : String) (l : Nat)
    (young : s₀.assembly.labels < l)
    (jump : ∃ e ∈ (Lower.wrote s i text).assembly.entries, e.jump? = some l) :
    ∃ e ∈ (Lower.wrote s i text).assembly.entries, e.mark? = some l := by
  obtain ⟨e, he, hl⟩ := jump
  rcases List.mem_append.1 he with he | he
  · obtain ⟨e', he', hl'⟩ := h.bound l young ⟨e, he, hl⟩
    exact ⟨e', List.mem_append_left _ he', hl'⟩
  · rw [List.mem_singleton.1 he] at hl
    cases hl

namespace Admits

variable {lost gained : Part → Prop}

/-- **A course goes on with an instruction.** -/
theorem continues {s₀ : LoweringState} {registers : List Location} {held : List Lease}
    (admits : R.Admits K s i lost gained) (ready : R.Ready K s) (text : String)
    (h : R.Course K s₀ s registers held) (bytes : ∀ j, lost (.byte j) → ¬ R.Kept s (.byte j))
    (recovers : ∀ p, lost p → R.Kept s₀ p → R.Known s₀ p → R.Known (Lower.wrote s i text) p) :
    R.Course K s₀ (Lower.wrote s i text) registers held where
  toWalk := admits.walk ready text h.toWalk bytes recovers
  tidy := fun fixed vars o os tidy => by
    obtain ⟨o', grows, tidy⟩ := h.tidy fixed vars o os tidy
    exact ⟨o', grows, tidy.step (Lower.leads_wrote ready.fine.ok i text) (.inr ⟨i, rfl, admits.other⟩)⟩
  bound := h.bound_wrote i text

/-- **Emitting an instruction is a course**, if nothing is lost that
others rely on. -/
theorem course (admits : R.Admits K s i lost gained) (ready : R.Ready K s) (text : String)
    (junk : ∀ p, lost p → ¬ R.Kept s p) : R.Course K s (Lower.wrote s i text) [] [] :=
  admits.continues ready text (.refl ready.fine) (fun _ out => junk _ out)
    fun p out kept _ => absurd kept (junk p out)

end Admits

end Regime

end Shading
