import Shading.Proofs.Discipline.Moves
import Shading.Proofs.Machine.Track

/-!
# What code may change

Code that is emitted for one purpose is followed on a machine that suits the
layout. What it may change is set down beforehand (`Permit`): places in
memory, and words of registers. Besides these it uses registers that were
free, and registers that it has leased, which are saved first (`Kept`).

An instruction that writes where it may keeps what is kept
(`Permit.Kept.perform`).
-/

namespace Shading

open LoweringState

namespace LoweringState

/-- The code written since an earlier state. -/
def codeSince (s s₀ : LoweringState) : List CodeEntry := s.assembly.entries.drop s₀.assembly.entries.length

/-- The slots handed out since an earlier state to save registers in. -/
def spillsSince (s s₀ : LoweringState) : List Slot :=
  Transcript.spills (s.transcript.take (s.transcript.length - s₀.transcript.length))

variable {s₀ s t : LoweringState}

theorem codeSince_of_append {es : List CodeEntry} (h : s.assembly.entries = s₀.assembly.entries ++ es) :
    s.codeSince s₀ = es := by rw [codeSince, h, List.drop_left]

@[simp] theorem codeSince_self (s : LoweringState) : s.codeSince s = [] := List.drop_length

/-- The code of a state goes on that of an earlier one. -/
theorem Leads.entries_eq {registers : List Location} {held : List Lease} (h : s₀.Leads s registers held) :
    s.assembly.entries = s₀.assembly.entries ++ s.codeSince s₀ := by
  obtain ⟨es, eq, -⟩ := h.assembly.entries
  rw [codeSince_of_append eq, eq]

theorem spillsSince_of_append {events : List LoweringEvent} (h : s.transcript = events ++ s₀.transcript) :
    s.spillsSince s₀ = Transcript.spills events := by
  rw [spillsSince, h, List.length_append, Nat.add_sub_cancel, List.take_left]

@[simp] theorem spillsSince_self (s : LoweringState) : s.spillsSince s = [] := by
  rw [spillsSince, Nat.sub_self]
  rfl

theorem spillsSince_append (suffix : s₀.transcript <:+ s.transcript) (events : List LoweringEvent)
    (h : t.transcript = events ++ s.transcript) : t.spillsSince s₀ = Transcript.spills events ++ s.spillsSince s₀ := by
  obtain ⟨before, eq⟩ := suffix
  rw [spillsSince_of_append eq.symm, spillsSince_of_append (by rw [h, ← eq, ← List.append_assoc]),
    Transcript.spills, Transcript.spills, Transcript.spills, List.filterMap_append]

/-- **A state has handed out and pooled no more** than a later one. -/
structure Within (s t : LoweringState) : Prop where
  globalTop : s.globalTop ≤ t.globalTop
  globalSize : s.layout.globalSize ≤ t.layout.globalSize
  localSize : s.layout.localSize ≤ t.layout.localSize
  kept : ∀ c ∈ s.constants.slots, c ∈ t.constants.slots

theorem Within.refl (s : LoweringState) : s.Within s := ⟨Nat.le_refl _, Nat.le_refl _, Nat.le_refl _, fun _ hc => hc⟩

theorem Within.trans {u : LoweringState} (h : s.Within t) (h' : t.Within u) : s.Within u :=
  ⟨Nat.le_trans h.globalTop h'.globalTop, Nat.le_trans h.globalSize h'.globalSize,
    Nat.le_trans h.localSize h'.localSize, fun c hc => h'.kept c (h.kept c hc)⟩

theorem Leads.within {registers : List Location} {held : List Lease} (h : s.Leads t registers held) : s.Within t := by
  refine ⟨h.globalTop_le, h.layout.globalHigh, h.layout.localHigh, fun c hc => ?_⟩
  obtain ⟨added, eq, -⟩ := h.constants
  exact eq ▸ List.mem_append_left _ hc

/-- **A state follows another one**: it has handed out more, and what it has
pooled since lies behind. -/
structure Follows (s t : LoweringState) : Prop extends s.Within t where
  added : ∀ c ∈ t.constants.slots, c ∈ s.constants.slots ∨ s.globalTop ≤ c.2

theorem Follows.of_layout (layout : t.layout = s.layout) (constants : t.constants = s.constants) : s.Follows t where
  globalTop := Nat.le_of_eq (by rw [globalTop, globalTop, layout])
  globalSize := Nat.le_of_eq (by rw [layout])
  localSize := Nat.le_of_eq (by rw [layout])
  kept := fun _ hc => constants ▸ hc
  added := fun _ hc => .inl (constants ▸ hc)

theorem Leads.follows {registers : List Location} {held : List Lease} (h : s.Leads t registers held) :
    s.Follows t where
  toWithin := h.within
  added := fun c hc => by
    obtain ⟨added, eq, above⟩ := h.constants
    exact (List.mem_append.1 (eq ▸ hc)).imp id (above c)

/-- **A machine suits the layout of a state**: the local region starts behind
the global one at an offset of the block, and has room there. -/
structure Suits (s : LoweringState) (L : Nat) (m : Machine) : Prop where
  grounded : m.Grounded L
  globals : s.layout.globalSize ≤ L
  locals : L + s.layout.localSize ≤ m.block.size
  reach : s.layout.localSize ≤ 2 ^ 31

theorem Suits.back {L : Nat} {m : Machine} (h : t.Suits L m) (within : s.Within t) : s.Suits L m where
  grounded := h.grounded
  globals := Nat.le_trans within.globalSize h.globals
  locals := Nat.le_trans (Nat.add_le_add_left within.localSize _) h.locals
  reach := Nat.le_trans within.localSize h.reach

end LoweringState

/-- A slot contains an offset of the block. -/
def Slot.Contains (slot : Slot) (k : Nat) : Prop := slot.offset ≤ k ∧ k < slot.stop

/-- The bytes of the block at a place in memory. -/
def Machine.takes (m : Machine) (L : Nat) : Location → Nat → Nat → Prop
  | .globalMemory o, n, k => o ≤ k ∧ k < o + n
  | .localMemory o, n, k => L + o ≤ k ∧ k < L + o + n
  | .indirectRegister id, n, k => m.bytesAt (m.general64 id).toNat n k
  | _, _, _ => False

/-! ## Permits -/

/-- **What the code since a state may change**, besides free registers and
the slots that it saves registers in. -/
structure Permit where
  start : LoweringState
  ok : start.Ok
  /-- So many bytes at a place in memory may be written. -/
  memory : Location → Nat → Prop
  /-- A word of a register may be written. -/
  register : RegisterClass → Nat → Nat → Prop
  /-- Whether operands may stand behind addresses. -/
  addressed : Prop
  /-- Whether the code relies on the pooled constants. -/
  pooled : Prop
  /-- Only registers that hold values. -/
  values : ∀ c id k, register c id k → id ∈ c.pool
  /-- Where constants are relied on, no memory may be written. -/
  alone : pooled → ∀ l n, ¬ memory l n

namespace Permit

variable {P : Permit} {s₁ s t : LoweringState} {L : Nat} {m : Machine}

/-- **A machine to start on**, for the code that leads to a state: what may
be written is none of the slots that registers are saved in. -/
structure Starts (P : Permit) (s : LoweringState) (L : Nat) (m : Machine) : Prop where
  suits : s.Suits L m
  clear : ∀ l n k, P.memory l n → m.takes L l n k → ∀ slot ∈ s.spillsSince P.start, ¬ slot.Contains k
  constants : P.pooled → ∀ c ∈ s.constants.slots, ∀ i < c.1.size, m.block.get (c.2 + i) = c.1.bytes.getD i 0

/-- **What is as it was** on the machine that the code leads to. -/
structure Kept (P : Permit) (s : LoweringState) (held : List Lease) (L : Nat) (m₀ m : Machine) : Prop where
  base : m.base = m₀.base
  size : m.block.size = m₀.block.size
  /-- Registers for no values, and registers that were leased, are the same
  in all their bits. -/
  wide : ∀ id < 8, id ∉ RegisterClass.general.pool ∨
      .register id ∈ P.start.layout.leased ∧ ¬ P.register .general id 0 →
    m.general64 id = m₀.general64 id
  register : ∀ c id k, id ∈ RegisterClass.pool c → id ∉ P.start.layout.free c → k < c.words →
    (∀ x ∈ held, x.location ≠ c.location id) → ¬ P.register c id k → m.content c id k = m₀.content c id k
  /-- Borrowed registers are saved. -/
  saved : ∀ x ∈ held, ∀ c id o k, x.location = RegisterClass.location c id → x.spill = some (.globalMemory o) →
    id ∉ P.start.layout.free c → k < c.words → ¬ P.register c id k → m.wordAt (o + 4 * k) = m₀.content c id k
  bytes : ∀ k, (∀ l n, P.memory l n → ¬ m₀.takes L l n k) → (∀ slot ∈ s.spillsSince P.start, ¬ slot.Contains k) →
    m.block.get k = m₀.block.get k

/-- A place in memory stands where a state has handed memory out. -/
def Bounds (P : Permit) (s₁ : LoweringState) (n : Nat) : Location → Prop
  | .globalMemory o => o + n ≤ s₁.globalTop
  | .localMemory o => o + n ≤ s₁.layout.localSize
  | .indirectRegister id => .register id ∈ P.start.layout.leased ∧ ¬ P.register .general id 0
  | _ => False

/-- **A register that may be written**: it is leased for the code, it was
free, or it is permitted. -/
def Owns (P : Permit) (held : List Lease) (c : RegisterClass) (id : Nat) : Prop :=
  id ∈ c.pool ∧ ((∃ x ∈ held, x.location = c.location id) ∨ id ∈ P.start.layout.free c ∨
    ∀ k < c.words, P.register c id k)

/-- A place that may be an operand: it stands behind an address only where
operands may. -/
def Reads (P : Permit) (l : Location) : Prop := P.addressed ∨ ∀ id, l ≠ .indirectRegister id

/-- A place that is a register that may be written. -/
def Own (P : Permit) (held : List Lease) (c : RegisterClass) (l : Location) : Prop :=
  ∃ id, l = c.location id ∧ P.Owns held c id

/-- **A place that may be written** as a value of a class and so many
bytes. -/
structure Admits (P : Permit) (s₁ : LoweringState) (held : List Lease) (out : Location) (c : RegisterClass) (n : Nat) :
    Prop where
  register : out.isRegister = true → P.Own held c out
  memory : out.isInMemory = true → P.memory out n ∧ P.Bounds s₁ n out
  reads : P.Reads out

theorem reads_location (P : Permit) (c : RegisterClass) (id : Nat) : P.Reads (c.location id) :=
  .inr (by cases c <;> rintro _ ⟨⟩)

theorem reads_global (P : Permit) (o : Nat) : P.Reads (.globalMemory o) := .inr (by rintro _ ⟨⟩)

theorem Reads.offsetBy {l : Location} (h : P.Reads l) (n : Nat) : P.Reads (l.offsetBy n) :=
  h.imp id fun direct id eq => direct id (by cases l <;> cases eq; rfl)

theorem Owns.mono {held held' : List Lease} {c : RegisterClass} {id : Nat} (h : P.Owns held c id)
    (sub : held ⊆ held') : P.Owns held' c id :=
  ⟨h.1, h.2.imp (fun ⟨x, hx, eq⟩ => ⟨x, sub hx, eq⟩) fun h => h⟩

theorem Own.mono {held held' : List Lease} {c : RegisterClass} {l : Location} (h : P.Own held c l)
    (sub : held ⊆ held') : P.Own held' c l := by
  obtain ⟨id, eq, owns⟩ := h
  exact ⟨id, eq, owns.mono sub⟩

theorem Own.reads {held : List Lease} {c : RegisterClass} {l : Location} (h : P.Own held c l) : P.Reads l := by
  obtain ⟨id, rfl, -⟩ := h
  exact P.reads_location c id

/-- A register that may be written, as a place. -/
theorem Own.admits {held : List Lease} {c : RegisterClass} {l : Location} (h : P.Own held c l) (n : Nat) :
    P.Admits s₁ held l c n where
  register := fun _ => h
  memory := fun memory => by
    obtain ⟨id, rfl, -⟩ := h
    cases c <;> cases memory
  reads := h.reads

theorem Admits.mono {held held' : List Lease} {c : RegisterClass} {n : Nat} {out : Location}
    (h : P.Admits s₁ held out c n) (sub : held ⊆ held') : P.Admits s₁ held' out c n where
  register := fun whole => (h.register whole).mono sub
  memory := h.memory
  reads := h.reads

theorem Starts.back (h : P.Starts t L m) (follows : s.Follows t)
    (spills : s.spillsSince P.start ⊆ t.spillsSince P.start) : P.Starts s L m where
  suits := h.suits.back follows.toWithin
  clear := fun l n k permitted takes slot hs => h.clear l n k permitted takes slot (spills hs)
  constants := fun pooled c hc => h.constants pooled c (follows.kept c hc)

theorem Kept.refl (P : Permit) (s : LoweringState) (L : Nat) (m : Machine) : P.Kept s [] L m m where
  base := rfl
  size := rfl
  wide := fun _ _ _ => rfl
  register := fun _ _ _ _ _ _ _ _ => rfl
  saved := by simp
  bytes := fun _ _ _ => rfl

namespace Kept

variable {held held' : List Lease} {m₀ : Machine}

theorem grounded (h : P.Kept s held L m₀ m) (suits : s.Suits L m₀) : m.Grounded L := by
  refine ⟨?_, by rw [h.base, h.size]; exact suits.grounded.whole⟩
  rw [h.wide localBaseRegister (by decide) (.inl (by decide)), h.base, suits.grounded.localBase]

/-- **What a region has handed out** is in the block. -/
theorem inside (h : P.Kept s held L m₀ m) (suits : t.Suits L m₀) (ok : t.Ok) {n : Nat} (stop : n ≤ t.globalTop) :
    n ≤ m.block.size :=
  calc n ≤ t.layout.globalSize := Nat.le_trans stop ok.layout.globalTop
    _ ≤ L := suits.globals
    _ ≤ m₀.block.size := Nat.le_trans (Nat.le_add_right _ _) suits.locals
    _ = m.block.size := h.size.symm

/-- More slots may have been handed out. -/
theorem mono (h : P.Kept s held L m₀ m) (spills : s.spillsSince P.start ⊆ t.spillsSince P.start) :
    P.Kept t held L m₀ m :=
  { h with bytes := fun k outside clear => h.bytes k outside fun slot hs => clear slot (spills hs) }

end Kept

end Permit

/-! ## Instructions that keep to a permit -/

/-- **An instruction that writes where it may.** -/
structure Permit.Emits (P : Permit) (s₁ : LoweringState) (held : List Lease) (i : Instruction Nat) : Prop where
  register : ∀ c id, i.Writes c id → P.Owns held c id
  memory : i.opcode.writesOperand = true → (∀ id, i.rm ≠ .register id) →
    ∃ l, Lower.operandOf l = .ok i.rm ∧ P.memory l i.opcode.reach ∧ P.Bounds s₁ i.opcode.reach l
  direct : P.addressed ∨ ∀ id, i.rm ≠ .indirect id

/-- What is written is a byte at least. -/
theorem Opcode.reach_pos {o : Opcode} (writes : o.writesOperand = true) : 0 < o.reach := by
  cases o <;> first | decide | cases writes

namespace Permit.Kept

variable {P : Permit} {s₁ s : LoweringState} {registers : List Location} {held : List Lease} {L : Nat}
  {m₀ m m' : Machine} {rsqrt : Word → Word} {i : Instruction Nat}

/-- **What an instruction writes in memory** is the place that it names. -/
theorem takes_of_written (kept : P.Kept s held L m₀ m) (suits : s.Suits L m₀) (within : s₁.Within s) (ok : s.Ok)
    {l : Location} {n : Nat} (operand : Lower.operandOf l = .ok i.rm) (bounds : P.Bounds s₁ n l) (positive : 0 < n)
    {a k : Nat} (address : m.operandAddress? i = some a) (at_ : m.bytesAt a n k) : m₀.takes L l n k := by
  have grounded := kept.grounded suits
  have whole := grounded.whole
  have size := kept.size
  have globals := Nat.le_trans ok.layout.globalTop suits.globals
  have locals := suits.locals
  unfold Machine.bytesAt at at_
  -- Both regions begin at a known distance from the base, so there the offset of the
  -- location decides. An address in a register is the one the register had at the start
  -- of the call, since it is leased and in no write of the call.
  cases l with
  | globalMemory o =>
    have rm : i.rm = .globalAt o := (Except.ok.inj operand).symm
    have bounds : o + n ≤ s₁.globalTop := bounds
    have top := within.globalTop
    simp only [LoweringState.globalTop] at bounds top
    rw [Machine.operandAddress?_globalAt rm,
      Machine.address_global whole (o := o) (n := n) (by omega) positive] at address
    obtain rfl := Option.some.inj address
    simp only [Machine.takes]
    omega
  | localMemory o =>
    have rm : i.rm = .localAt o := (Except.ok.inj operand).symm
    have bounds : o + n ≤ s₁.layout.localSize := bounds
    have high := within.localSize
    have reach := suits.reach
    rw [Machine.operandAddress?_localAt rm, signedValue_small (by omega), grounded.localBase] at address
    have same : ((m.base + L : Nat) : Int) + (o : Int) = ((m.base + (L + o) : Nat) : Int) := by omega
    rw [same, Machine.toNat_address (by omega)] at address
    obtain rfl := Option.some.inj address
    simp only [Machine.takes]
    omega
  | indirectRegister id =>
    have rm : i.rm = .indirect id := (Except.ok.inj operand).symm
    have leased : .register id ∈ P.start.layout.leased ∧ ¬ P.register .general id 0 := bounds
    rw [Machine.operandAddress?_indirect rm] at address
    obtain rfl := Option.some.inj address
    obtain ⟨c, j, pool, same, -⟩ := P.ok.layout.leased _ leased.1
    have small : id < 8 := by
      cases c <;> cases same
      exact Regime.pool_lt pool
    rw [kept.wide id small (.inr leased), kept.base] at at_
    exact at_
  | none => cases operand
  | register id =>
    have rm : i.rm = .register id := (Except.ok.inj operand).symm
    rw [Machine.operandAddress?_register rm] at address
    cases address
  | simdRegister id =>
    have rm : i.rm = .register id := (Except.ok.inj operand).symm
    rw [Machine.operandAddress?_register rm] at address
    cases address
  | registerLane id shift => cases operand

/-- **An instruction keeps to the permit** if it writes memory where it may,
and spares the words of registers that it has to. -/
theorem perform_of (kept : P.Kept s held L m₀ m) (starts : P.Starts s L m₀) (within : s₁.Within s) (ok : s.Ok)
    (slots : ∀ x ∈ held, ∀ c id o, x.location = RegisterClass.location c id → x.spill = some (.globalMemory o) →
      ⟨.global, o, c.spillSize⟩ ∈ s.spillsSince P.start)
    (run : m.perform rsqrt i = .ok m')
    (memory : i.opcode.writesOperand = true → (∀ id, i.rm ≠ .register id) →
      ∃ l, Lower.operandOf l = .ok i.rm ∧ P.memory l i.opcode.reach ∧ P.Bounds s₁ i.opcode.reach l)
    (wide : ∀ id < 8, id ∉ RegisterClass.general.pool ∨
        .register id ∈ P.start.layout.leased ∧ ¬ P.register .general id 0 →
      m'.general64 id = m.general64 id)
    (register : ∀ c id k, id ∈ RegisterClass.pool c → id ∉ P.start.layout.free c → k < c.words →
      (∀ x ∈ held, x.location ≠ c.location id) → ¬ P.register c id k → m'.content c id k = m.content c id k) :
    P.Kept s held L m₀ m' := by
  have frames := Machine.execute_frames run
  -- What is written in memory is permitted.
  have written {k : Nat} (outside : ∀ l n, P.memory l n → ¬ m₀.takes L l n k) :
      m'.block.get k = m.block.get k := by
    refine Machine.perform_bytes run fun a writes address at_ => ?_
    have operand : ∀ id, i.rm ≠ .register id := fun id rm => by
      rw [Machine.operandAddress?_register rm] at address
      cases address
    obtain ⟨l, operand, permitted, bounds⟩ := memory writes operand
    exact outside l _ permitted
      (kept.takes_of_written starts.suits within ok operand bounds (Opcode.reach_pos writes) address at_)
  refine ⟨frames.base.trans kept.base, frames.size.trans kept.size, ?_, ?_, ?_, ?_⟩
  · intro id small untouched
    exact (wide id small untouched).trans (kept.wide id small untouched)
  · intro c id k pool notFree word notHeld spared
    exact (register c id k pool notFree word notHeld spared).trans (kept.register c id k pool notFree word notHeld spared)
  · intro x hx c id o k location spill notFree word spared
    rw [← kept.saved x hx c id o k location spill notFree word spared, Machine.wordAt, Machine.wordAt]
    refine congrArg wordOfBytes (Block.getBytes_congr fun j low high => ?_)
    refine written fun l n permitted takes => ?_
    refine starts.clear l n j permitted takes _ (slots x hx c id o location spill) ⟨?_, ?_⟩
    · exact Nat.le_trans (Nat.le_add_right _ _) low
    · simp only [Slot.stop, c.spillSize_eq]
      omega
  · intro k outside clear
    rw [written outside]
    exact kept.bytes k outside clear

/-- **An instruction that writes where it may** keeps to the permit. -/
theorem perform (kept : P.Kept s held L m₀ m) (starts : P.Starts s L m₀) (within : s₁.Within s)
    (leads : P.start.Leads s registers held)
    (slots : ∀ x ∈ held, ∀ c id o, x.location = RegisterClass.location c id → x.spill = some (.globalMemory o) →
      ⟨.global, o, c.spillSize⟩ ∈ s.spillsSince P.start)
    (emits : P.Emits s₁ held i) (run : m.perform rsqrt i = .ok m') : P.Kept s held L m₀ m' := by
  refine kept.perform_of starts within leads.ok slots run emits.memory ?_ ?_
  · intro id small untouched
    refine Machine.perform_general64 run fun j writes same => ?_
    obtain ⟨pool, owned⟩ := emits.register .general j writes
    have := Regime.pool_lt pool
    obtain rfl : j = id := by omega
    obtain ⟨leased, spared⟩ := untouched.resolve_left fun out => out pool
    rcases owned with ⟨x, hx, location⟩ | free | permitted
    · exact leads.layout.not_leased hx (location ▸ leased)
    · obtain ⟨c, j', -, same', notFree⟩ := P.ok.layout.leased _ leased
      cases c <;> cases same'
      exact notFree free
    · exact spared (permitted 0 (by decide))
  · intro c id k pool notFree word notHeld spared
    refine Machine.perform_content run (fun j writes same => ?_) k
    obtain ⟨pool', owned⟩ := emits.register c j writes
    have := Regime.pool_lt pool
    have := Regime.pool_lt pool'
    obtain rfl : j = id := by omega
    rcases owned with ⟨x, hx, location⟩ | free | permitted
    · exact notHeld x hx location
    · exact notFree free
    · exact spared (permitted k word)

end Permit.Kept

end Shading
