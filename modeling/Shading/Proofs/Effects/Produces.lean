import Shading.Proofs.Effects.Operands

/-!
# What emitted code computes

Code that keeps to a permit is followed on one machine. It is carried out to
its end there, and what then holds is set down step by step (`Produces`): an
instruction is told by what it computes, and leaves all but one place alone
(`Machine.Touches`). What an operand holds when it is read is what it held at
the start, if the code withholds its place (`Permit.Withholds`).
-/

namespace Shading

open LoweringState Permit

/-! ## Places that are changed -/

namespace Machine

variable {m m' m'' : Machine} {rsqrt : Word → Word} {L n : Nat} {l : Location} {c : RegisterClass} {id : Nat}

/-- **Only one place may differ** between two machines. -/
structure Touches (m : Machine) (L : Nat) (l : Location) (n : Nat) (m' : Machine) : Prop where
  base : m'.base = m.base
  size : m'.block.size = m.block.size
  flags : m'.registers.flags = m.registers.flags
  general : ∀ j < 8, l ≠ .register j → m'.general64 j = m.general64 j
  simd : ∀ j < 8, l ≠ .simdRegister j → m'.simd j = m.simd j
  bytes : ∀ k, ¬ m.takes L l n k → m'.block.get k = m.block.get k

theorem Touches.refl (m : Machine) (L : Nat) (l : Location) (n : Nat) : m.Touches L l n m :=
  ⟨rfl, rfl, rfl, fun _ _ _ => rfl, fun _ _ _ => rfl, fun _ _ => rfl⟩

/-- **What computes into a register** touches that register. -/
theorem touches_of_written {o : Opcode} {p : Operand Nat} {immediate : List UInt8} (written : o.written? = some c)
    (keeps : o.keepsFlags = true) (small : id < 8) (run : m.perform rsqrt ⟨o, id, p, immediate⟩ = .ok m') :
    m.Touches L (c.location id) n m' := by
  obtain ⟨unchanged, kept, other⟩ := Opcode.inPlace?_of_written? written
  have frames := execute_frames run
  have writes {d : RegisterClass} {j k : Nat} (apart : c.location id ≠ d.location k) (word : k < 8)
      (writes : (⟨o, id, p, immediate⟩ : Instruction Nat).Writes d j) : j % 8 ≠ k % 8 := by
    rcases writes.cases other with ⟨same, rfl⟩ | ⟨inPlace, -⟩
    · obtain rfl := Option.some.inj (written.symm.trans same)
      rintro index
      exact apart (congrArg _ (by omega))
    · rw [unchanged] at inPlace
      cases inPlace
  refine ⟨frames.base, frames.size, perform_flags run keeps, fun j word apart => ?_, fun j word apart => ?_,
    fun k _ => ?_⟩
  · exact perform_general64 run fun i => writes (d := .general) apart word
  · exact execute_simd run fun i wrote => writes (d := .simd) apart word (Instruction.writes_anchored.1 wrote)
  · refine perform_bytes run fun a stores => ?_
    rw [kept] at stores
    cases stores

/-- The bytes of a place in memory. -/
theorem takes_iff (memory : l.isInMemory = true) (spans : m.Spans (m.addressOf L l) n) (k : Nat) :
    m.takes L l n k ↔ m.offsetAt L l ≤ k ∧ k < m.offsetAt L l + n := by
  obtain ⟨low, -⟩ := spans
  cases l with
  | globalMemory o =>
    simp only [takes, offsetAt, addressOf]
    omega
  | localMemory o =>
    simp only [takes, offsetAt, addressOf]
    omega
  | indirectRegister id =>
    simp only [takes, offsetAt, addressOf, bytesAt] at low ⊢
    omega
  | _ => cases memory

/-- **A store** touches the place that it writes. -/
theorem touches_of_store (memory : l.isInMemory = true) {bytes : List UInt8}
    (spans : m.Spans (m.addressOf L l) bytes.length) :
    m.Touches L l bytes.length { m with block := m.block.setBytes (m.offsetAt L l) bytes } := by
  refine ⟨rfl, Block.size_setBytes _ _ _, rfl, fun _ _ _ => rfl, fun _ _ _ => rfl, fun k outside => ?_⟩
  rw [takes_iff memory spans] at outside
  simp only [Block.get_setBytes]
  split
  · rw [List.getElem?_eq_none (by omega), Option.getD_none]
  · rfl

/-- What is in a place in memory depends on its bytes. -/
theorem part_congr (memory : l.isInMemory = true) (at_ : m'.offsetAt L l = m.offsetAt L l) {k : Nat}
    (same : ∀ j, m.offsetAt L l + 4 * k ≤ j → j < m.offsetAt L l + 4 * k + 4 → m'.block.get j = m.block.get j) :
    m'.part L l k = m.part L l k := by
  rw [part_memory m' L memory, part_memory m L memory, at_, wordAt, wordAt, Block.getBytes_congr same]

/-- A register that is touched leaves other places alone. -/
theorem Touches.part (h : m.Touches L (c.location id) n m') {out : Location} (other : c.location id ≠ out)
    (behind : ∀ j, out = .indirectRegister j → c.location id ≠ .register j)
    (small : ∀ d j, out = RegisterClass.location d j ∨ out = .indirectRegister j → j < 8) (k : Nat) :
    m'.part L out k = m.part L out k := by
  have bytes (j : Nat) : m'.block.get j = m.block.get j := h.bytes j fun taken => by cases c <;> exact taken
  have address : m'.offsetAt L out = m.offsetAt L out := by
    rw [offsetAt, offsetAt, h.base,
      addressOf_congr h.base out fun j eq => h.general j (small .general j (.inr eq)) (behind j eq)]
  cases out with
  | register j => exact congrArg UInt64.toUInt32 (h.general j (small .general j (.inl rfl)) other)
  | simdRegister j => exact congrArg (fun l => Lanes.get l k) (h.simd j (small .simd j (.inl rfl)) other)
  | globalMemory o => exact part_congr rfl address fun j _ _ => bytes j
  | localMemory o => exact part_congr rfl address fun j _ _ => bytes j
  | indirectRegister j => exact part_congr rfl address fun j _ _ => bytes j
  | none | registerLane => simp only [Machine.part, Machine.wordAt, address, Block.getBytes_congr fun j _ _ => bytes j]

end Machine

/-! ## Operands that are withheld -/

/-- **A place that the code since a state leaves alone**: a register that is
occupied, or memory that had been handed out, and it may not be written. -/
structure Permit.Withholds (P : Permit) (L : Nat) (m₀ : Machine) (n : Nat) (l : Location) : Prop extends m₀.Has L n l where
  register : ∀ c id, l = RegisterClass.location c id →
    id ∈ c.pool ∧ id ∉ P.start.layout.free c ∧ ∀ k < c.words, ¬ P.register c id k
  address : ∀ id, l = .indirectRegister id → .register id ∈ P.start.layout.leased ∧ ¬ P.register .general id 0
  kept : l.isInMemory = true → ∀ k, m₀.offsetAt L l ≤ k → k < m₀.offsetAt L l + n →
    (k < P.start.globalTop ∨ L ≤ k) ∧ ∀ l' n', P.memory l' n' → ¬ m₀.takes L l' n' k

namespace Conduct

variable {P : Permit} {s₁ s : LoweringState} {registers : List Location} {held : List Lease} {rsqrt : Word → Word}
  {L n : Nat} {m₀ m : Machine} {l : Location}

theorem size (h : Conduct P s₁ s registers held) (comes : P.Comes s rsqrt L m₀ m) : m.block.size = m₀.block.size :=
  (h.keeps _ _ _ _ comes).size

theorem base (h : Conduct P s₁ s registers held) (comes : P.Comes s rsqrt L m₀ m) : m.base = m₀.base :=
  (h.keeps _ _ _ _ comes).base

theorem grounded (h : Conduct P s₁ s registers held) (comes : P.Comes s rsqrt L m₀ m) : m.Grounded L :=
  (h.keeps _ _ _ _ comes).grounded comes.starts.suits

/-- Bytes that had been handed out are none of those that registers are saved
in. -/
theorem outside_spills (h : Conduct P s₁ s registers held) (starts : P.Starts s L m₀) {k : Nat}
    (kept : k < P.start.globalTop ∨ L ≤ k) : ∀ slot ∈ s.spillsSince P.start, ¬ slot.Contains k := by
  rintro slot hs ⟨low, high⟩
  obtain ⟨-, above, stop, -⟩ := h.spills slot hs
  have top := Nat.le_trans h.leads.ok.layout.globalTop starts.suits.globals
  simp only [globalTop] at stop above kept
  omega

/-- The address of an operand that is withheld. -/
theorem addressOf (h : Conduct P s₁ s registers held) (comes : P.Comes s rsqrt L m₀ m) (withheld : P.Withholds L m₀ n l) :
    m.addressOf L l = m₀.addressOf L l := by
  have kept := h.keeps _ _ _ _ comes
  refine Machine.addressOf_congr kept.base l fun id same => ?_
  obtain ⟨leased, spared⟩ := withheld.address id same
  obtain ⟨c, j, pool, eq, -⟩ := P.ok.layout.leased _ leased
  refine kept.wide id ?_ (.inr ⟨leased, spared⟩)
  cases c <;> cases eq
  exact Regime.pool_lt pool

theorem offsetAt (h : Conduct P s₁ s registers held) (comes : P.Comes s rsqrt L m₀ m) (withheld : P.Withholds L m₀ n l) :
    m.offsetAt L l = m₀.offsetAt L l := by
  rw [Machine.offsetAt, Machine.offsetAt, h.addressOf comes withheld, h.base comes]

/-- **An operand that is withheld** is still there. -/
theorem has (h : Conduct P s₁ s registers held) (comes : P.Comes s rsqrt L m₀ m) (withheld : P.Withholds L m₀ n l) :
    m.Has L n l where
  operand := withheld.operand
  near := withheld.near
  spans := fun memory => by
    rw [Machine.Spans, h.addressOf comes withheld, h.base comes, h.size comes]
    exact withheld.spans memory

/-- **What is in an operand that is withheld** is what was there at the
start. -/
theorem part (h : Conduct P s₁ s registers held) (comes : P.Comes s rsqrt L m₀ m) (withheld : P.Withholds L m₀ n l)
    (notHeld : ∀ x ∈ held, x.location ≠ l) {k : Nat} (within : 4 * k + 4 ≤ n) (word : k < 4) :
    m.part L l k = m₀.part L l k := by
  have kept := h.keeps _ _ _ _ comes
  have whole {c : RegisterClass} {id : Nat} (same : l = c.location id) (small : k < c.words) :
      m.content c id k = m₀.content c id k := by
    obtain ⟨pool, notFree, spared⟩ := withheld.register c id same
    exact kept.register c id k pool notFree small (fun x hx => same ▸ notHeld x hx) (spared k small)
  have inMemory (memory : l.isInMemory = true) : m.part L l k = m₀.part L l k := by
    refine Machine.part_congr memory (h.offsetAt comes withheld) fun j low high => ?_
    obtain ⟨old, outside⟩ := withheld.kept memory j (by omega) (by omega)
    exact kept.bytes j outside (h.outside_spills comes.starts old)
  cases l with
  | register id =>
    obtain ⟨pool, notFree, spared⟩ := withheld.register .general id rfl
    exact kept.register .general id 0 pool notFree (by decide) (fun x hx => notHeld x hx) (spared 0 (by decide))
  | simdRegister id => exact whole (c := .simd) rfl word
  | globalMemory o => exact inMemory rfl
  | localMemory o => exact inMemory rfl
  | indirectRegister id => exact inMemory rfl
  | none => rcases withheld.operand with h | h <;> cases h
  | registerLane id shift => rcases withheld.operand with h | h <;> cases h

/-- **An SSE register that may not be written** is as it was. -/
theorem simd (h : Conduct P s₁ s registers held) (comes : P.Comes s rsqrt L m₀ m) {id : Nat}
    (pool : id ∈ RegisterClass.simd.pool) (notFree : id ∉ P.start.layout.free .simd)
    (notHeld : ∀ x ∈ held, x.location ≠ .simdRegister id) (spared : ∀ k < 4, ¬ P.register .simd id k) :
    m.simd id = m₀.simd id :=
  Lanes.ext_get fun k small =>
    (h.keeps _ _ _ _ comes).register .simd id k pool notFree small notHeld (spared k small)

theorem lanesAt (h : Conduct P s₁ s registers held) (comes : P.Comes s rsqrt L m₀ m) (withheld : P.Withholds L m₀ 16 l)
    (notHeld : ∀ x ∈ held, x.location ≠ l) : m.lanesAt L l = m₀.lanesAt L l := by
  rw [Machine.lanesAt, Machine.lanesAt, h.part comes withheld notHeld (k := 0) (by decide) (by decide),
    h.part comes withheld notHeld (k := 1) (by decide) (by decide),
    h.part comes withheld notHeld (k := 2) (by decide) (by decide),
    h.part comes withheld notHeld (k := 3) (by decide) (by decide)]

end Conduct

/-- **A place for a value of a type** that a state has handed out, as an
operand or for a result. -/
structure LoweringState.Supplies (s : LoweringState) (L : Nat) (m : Machine) (ty : Ty) (l : Location) : Prop where
  fits : l.Fits ty
  whole : ∀ id shift, l ≠ .registerLane id shift
  keeps : s.Keeps ty.size l
  /-- An address is under a lease, and leads to memory that has been handed
  out. -/
  address : ∀ id, l = .indirectRegister id → .register id ∈ s.layout.leased ∧ m.Spans (m.general64 id).toNat ty.size ∧
    ∀ k, m.bytesAt (m.general64 id).toNat ty.size k → k < s.globalTop ∨ L ≤ k

namespace LoweringState

variable {s : LoweringState} {L n : Nat} {m : Machine} {ty : Ty} {l : Location}

/-- A place that is kept, if it is direct memory, has been handed out. -/
theorem Keeps.backs (ok : s.Ok) (keeps : s.Keeps n l) (memory : l.isInMemory = true)
    (direct : ∀ id, l ≠ .indirectRegister id) : s.Backs n l := by
  cases l with
  | globalMemory o => exact keeps.1
  | localMemory o => exact Nat.le_trans (show o + n ≤ s.localTop from keeps) ok.layout.localTop
  | indirectRegister id => exact absurd rfl (direct id)
  | _ => cases memory

/-- The class of a register that fits a type. -/
theorem class_of_fits {c : RegisterClass} {id : Nat} (fits : (c.location id).Fits ty) :
    c = (Width.ofTy ty).registerClass ∧ id ∈ c.pool := by
  cases c <;> obtain ⟨class_, pool⟩ := fits <;> refine ⟨?_, pool⟩ <;> revert class_ <;> cases ty <;> decide

/-- Registers that values fit into have numbers below eight. -/
theorem small_of_fits (fits : l.Fits ty) (d : RegisterClass) (j : Nat)
    (place : l = d.location j ∨ l = .indirectRegister j) : j < 8 := by
  rcases place with rfl | rfl
  · exact Regime.pool_lt (class_of_fits fits).2
  · exact Regime.pool_lt fits.2.2

theorem size_of_fits (fits : l.Fits ty) : 0 < ty.size := by
  cases l with
  | none => exact fits.elim
  | register id | simdRegister id | registerLane id shift =>
    revert fits
    cases ty <;> simp [Location.Fits, RegisterClass.ofTy?, Ty.size]
  | globalMemory o | localMemory o | indirectRegister id => exact Nat.pos_of_ne_zero fits.1

/-- Part of memory that has been handed out. -/
theorem Backs.offsetBy (h : s.Backs n l) {b k : Nat} (inside : b + k ≤ n) : s.Backs k (l.offsetBy b) := by
  cases l with
  | globalMemory o =>
    have h : o + n ≤ s.globalTop := h
    change o + b + k ≤ s.globalTop
    omega
  | localMemory o =>
    have h : o + n ≤ s.layout.localSize := h
    change o + b + k ≤ s.layout.localSize
    omega
  | _ => exact h.elim

/-- **Memory that has been handed out is withheld** where it may not be
written. -/
theorem Backs.withholds {P : Permit} (h : P.start.Backs n l) (suits : P.start.Suits L m) (positive : 0 < n)
    (apart : ∀ k, m.takes L l n k → ∀ l' n', P.memory l' n' → ¬ m.takes L l' n' k) : P.Withholds L m n l where
  toHas := suits.has P.ok h positive rfl
  register := fun c id eq => by
    rw [eq] at h
    cases c <;> exact h.elim
  address := fun id eq => absurd eq (h.direct id)
  kept := fun memory k low high => by
    have taken := (Machine.takes_iff memory (suits.spans P.ok h rfl) k).2 ⟨low, high⟩
    refine ⟨?_, apart k taken⟩
    cases l with
    | globalMemory o =>
      have h : o + n ≤ P.start.globalTop := h
      simp only [Machine.takes] at taken
      omega
    | localMemory o =>
      simp only [Machine.takes] at taken
      omega
    | _ => exact h.elim

/-- **The place of an operand is withheld** where it may not be written. -/
theorem Supplies.withholds {P : Permit} (h : P.start.Supplies L m ty l) (suits : P.start.Suits L m)
    (register : ∀ c id k, l = RegisterClass.location c id → ¬ P.register c id k)
    (address : ∀ id, l = .indirectRegister id → ¬ P.register .general id 0)
    (apart : ∀ k, m.takes L l ty.size k → ∀ l' n', P.memory l' n' → ¬ m.takes L l' n' k) :
    P.Withholds L m ty.size l := by
  have direct (memory : l.isInMemory = true) (direct : ∀ id, l ≠ .indirectRegister id) : P.Withholds L m ty.size l :=
    (h.keeps.backs P.ok memory direct).withholds suits (size_of_fits h.fits) apart
  have whole {c : RegisterClass} {id : Nat} (eq : l = c.location id) : P.Withholds L m ty.size l := by
    subst eq
    refine ⟨Machine.has_location c id, fun d j same => ?_, fun j same => (by cases c <;> cases same),
      fun memory => (by cases c <;> cases memory)⟩
    obtain ⟨rfl, rfl⟩ := RegisterClass.location_inj same
    have keeps := h.keeps
    exact ⟨(class_of_fits h.fits).2, by cases c <;> exact keeps, fun k _ => register c id k rfl⟩
  cases l with
  | register id => exact whole (c := .general) rfl
  | simdRegister id => exact whole (c := .simd) rfl
  | globalMemory o => exact direct rfl (by rintro _ ⟨⟩)
  | localMemory o => exact direct rfl (by rintro _ ⟨⟩)
  | indirectRegister id =>
    obtain ⟨leased, spans, kept⟩ := h.address id rfl
    refine ⟨⟨.inr rfl, by rintro _ ⟨⟩, fun _ => spans⟩, fun c j same => (by cases c <;> cases same),
      ?_, fun _ k low high => ?_⟩
    · rintro _ ⟨⟩
      exact ⟨leased, address id rfl⟩
    · have taken := (Machine.takes_iff (l := .indirectRegister id) rfl spans k).2 ⟨low, high⟩
      exact ⟨kept k taken, apart k taken⟩
  | none => exact h.fits.elim
  | registerLane id shift => exact absurd rfl (h.whole id shift)

end LoweringState

/-! ## Courses with a result -/

/-- **The constants of a state are in memory.** -/
def LoweringState.Pools (s : LoweringState) (m : Machine) : Prop :=
  ∀ c ∈ s.constants.slots, ∀ i < c.1.size, m.block.get (c.2 + i) = c.1.bytes.getD i 0

instance (s : LoweringState) (m : Machine) : Decidable (s.Pools m) :=
  inferInstanceAs (Decidable (∀ c ∈ s.constants.slots, ∀ i < c.1.size, m.block.get (c.2 + i) = c.1.bytes.getD i 0))

/-- **A machine to carry out code on**, up to a state: it suits the layout, the
constants are in memory, and both regions are aligned. -/
structure LoweringState.Serves (t : LoweringState) (L : Nat) (m : Machine) : Prop where
  suits : t.Suits L m
  pools : t.Pools m
  base : m.base % 16 = 0
  locals : L % 16 = 0

/-- **Code that keeps to a permit is carried out** on a machine that it may
start on, and then something holds. -/
structure Produces (P : Permit) (s₁ s : LoweringState) (registers : List Location) (held : List Lease) (rsqrt : Word → Word)
    (L : Nat) (m₀ : Machine) (F : Machine → Prop) : Prop extends Conduct P s₁ s registers held where
  reaches : P.Starts s L m₀ → s.Pools m₀ → ∃ m, P.Comes s rsqrt L m₀ m ∧ F m

namespace Produces

variable {P : Permit} {s₁ s t : LoweringState} {registers registers' : List Location} {held held' : List Lease}
  {rsqrt : Word → Word} {L : Nat} {m₀ : Machine} {F G : Machine → Prop}

theorem start (P : Permit) (rsqrt : Word → Word) (L : Nat) (m₀ : Machine) (holds : F m₀) :
    Produces P P.start P.start [] [] rsqrt L m₀ F where
  toConduct := .refl P
  reaches := fun starts _ => ⟨m₀, ⟨starts, by rw [codeSince_self]; rfl⟩, holds⟩

theorem mono (h : Produces P s₁ s registers held rsqrt L m₀ F) (sub : ∀ m, P.Comes s rsqrt L m₀ m → F m → G m) :
    Produces P s₁ s registers held rsqrt L m₀ G where
  toConduct := h.toConduct
  reaches := fun starts pools => by
    obtain ⟨m, comes, holds⟩ := h.reaches starts pools
    exact ⟨m, comes, sub m comes holds⟩

/-- **Code goes on**, and is carried out. -/
theorem extend (h : Produces P s₁ s registers held rsqrt L m₀ F) (conduct : Conduct P s₁ t registers' held')
    (follows : s.Follows t) (events : List LoweringEvent) (transcript : t.transcript = events ++ s.transcript)
    {es : List CodeEntry} (code : t.assembly.entries = s.assembly.entries ++ es)
    (step : ∀ m, P.Comes s rsqrt L m₀ m → P.Starts t L m₀ → s.Pools m₀ → F m →
      ∃ m', Machine.Track.run rsqrt (.running m) es = .running m' ∧ G m') :
    Produces P s₁ t registers' held' rsqrt L m₀ G where
  toConduct := conduct
  reaches := fun starts pools => by
    have back : P.Starts s L m₀ := starts.back follows (by
      rw [spillsSince_append h.transcript events transcript]
      exact List.subset_append_right _ _)
    have pools : s.Pools m₀ := fun c hc => pools c (follows.kept c hc)
    obtain ⟨m, comes, holds⟩ := h.reaches back pools
    obtain ⟨m', run, holds'⟩ := step m comes starts pools holds
    refine ⟨m', ⟨starts, ?_⟩, holds'⟩
    rw [codeSince_of_append (by rw [code, h.leads.entries_eq, List.append_assoc]), Machine.Track.run_append, comes.run,
      run]

/-- Code goes on with an instruction. -/
theorem wrote (h : Produces P s₁ s registers held rsqrt L m₀ F) {i : Instruction Nat} {text : String}
    (conduct : Conduct P s₁ (Lower.wrote s i text) registers held)
    (step : ∀ m, P.Comes s rsqrt L m₀ m → s.Pools m₀ → F m → ∃ m', m.perform rsqrt i = .ok m' ∧ G m') :
    Produces P s₁ (Lower.wrote s i text) registers held rsqrt L m₀ G := by
  refine h.extend conduct (Lower.leads_wrote h.leads.ok i text).follows [.emitted i s.layout] rfl rfl
    fun m comes _ pools holds => ?_
  obtain ⟨m', run, holds'⟩ := step m comes pools holds
  exact ⟨m', by rw [Machine.Track.run_instruction, run], holds'⟩

/-- A step without code. -/
theorem rest (h : Produces P s₁ s registers held rsqrt L m₀ F) (conduct : Conduct P s₁ t registers' held')
    (follows : s.Follows t) (events : List LoweringEvent) (transcript : t.transcript = events ++ s.transcript)
    (code : t.assembly = s.assembly) : Produces P s₁ t registers' held' rsqrt L m₀ F :=
  h.extend conduct follows events transcript (show _ = _ ++ [] by rw [code, List.append_nil]) fun m _ _ _ holds => ⟨m, rfl, holds⟩

end Produces

/-! ## Permits that widen -/

/-- **Nothing may be written** but free registers and slots. -/
def Permit.still (s : LoweringState) (ok : s.Ok) : Permit where
  start := s
  ok := ok
  memory := fun _ _ => False
  register := fun _ _ _ => False
  addressed := True
  pooled := False
  values := fun _ _ _ permitted => permitted.elim
  alone := fun pooled => pooled.elim

section

variable {P : Permit} {s₁ s : LoweringState} {registers : List Location} {held : List Lease} {rsqrt : Word → Word}
  {L : Nat} {m₀ m : Machine} {F : Machine → Prop}

/-- **The place of an operand is withheld** where nothing may be written. -/
theorem LoweringState.Supplies.still {s₀ : LoweringState} {ok : s₀.Ok} {ty : Ty} {l : Location}
    (supplies : s₀.Supplies L m₀ ty l)
    (h : Conduct (Permit.still s₀ ok) s₁ s registers held) (comes : (Permit.still s₀ ok).Comes s rsqrt L m₀ m) :
    (Permit.still s₀ ok).Withholds L m₀ ty.size l :=
  supplies.withholds (P := Permit.still s₀ ok) (comes.starts.suits.back h.leads.within) (fun _ _ _ _ permitted => permitted)
    (fun _ _ permitted => permitted) fun _ _ _ _ permitted => permitted.elim

theorem Permit.Starts.still (h : P.Starts s L m₀) : (Permit.still P.start P.ok).Starts s L m₀ where
  suits := h.suits
  clear := fun _ _ _ permitted => permitted.elim
  constants := fun pooled => pooled.elim

/-- **Code that writes nothing keeps to any permit.** -/
theorem Conduct.widen (h : Conduct (Permit.still P.start P.ok) s₁ s registers held) (addressed : P.addressed) :
    Conduct P s₁ s registers held where
  leads := h.leads
  order := h.order
  within := h.within
  transcript := h.transcript
  spills := h.spills
  slots := h.slots
  direct := fun i text hi => .inl addressed
  stays := fun rsqrt L m₀ starts => h.stays rsqrt L m₀ starts.still
  keeps := fun rsqrt L m₀ m comes => by
    have kept := h.keeps rsqrt L m₀ m ⟨comes.starts.still, comes.run⟩
    exact {
      base := kept.base
      size := kept.size
      wide := fun j small out => kept.wide j small (out.imp_right fun leased => ⟨leased.1, fun permitted => permitted⟩)
      register := fun c id k pool notFree word notHeld _ =>
        kept.register c id k pool notFree word notHeld fun permitted => permitted
      saved := fun x hx c id o k location spill notFree word _ =>
        kept.saved x hx c id o k location spill notFree word fun permitted => permitted
      bytes := fun k _ clear => kept.bytes k (fun _ _ permitted => permitted.elim) clear }

theorem Produces.widen (h : Produces (Permit.still P.start P.ok) s₁ s registers held rsqrt L m₀ F) (addressed : P.addressed) :
    Produces P s₁ s registers held rsqrt L m₀ F where
  toConduct := h.toConduct.widen addressed
  reaches := fun starts pools => by
    obtain ⟨m, comes, holds⟩ := h.reaches starts.still pools
    exact ⟨m, ⟨starts, comes.run⟩, holds⟩

end

namespace Lower

variable {P : Permit} {s₁ s t : LoweringState} {registers : List Location} {held : List Lease}
  {rsqrt : Word → Word} {L : Nat} {m₀ : Machine} {F G : Machine → Prop} {c : RegisterClass} {id : Nat}

/-! ## Instructions -/

theorem operandOf_eq {l : Location} {p : Operand Nat} (operand : operandOf l = .ok p) : p = l.operand := by
  cases l <;> cases operand <;> rfl

theorem emit_outcome (o : Opcode) (c : RegisterClass) (id : Nat) (l : Location) (immediate : List UInt8) (s : LoweringState) :
    Results (emit o (c.location id) l immediate) s fun _ t => ∃ text, t = wrote s ⟨o, id, l.operand, immediate⟩ text := by
  intro _ t run
  cases operand : operandOf l with
  | error e =>
    unfold emit at run
    rw [Regime.registerField_location, operand] at run
    cases run
  | ok p =>
    obtain ⟨text, eq⟩ := emit_eq (s := s) o (Regime.registerField_location c id) operand immediate
    rw [eq] at run
    cases run
    exact ⟨text, by rw [operandOf_eq operand]⟩

/-- An instruction that computes into a register is carried out. -/
theorem emit_computes (h : Produces P s₁ s registers held rsqrt L m₀ F) {o : Opcode} (written : o.written? = some c)
    (owns : P.Owns held c id) {l : Location} (reads : P.Reads l) (immediate : List UInt8)
    (step : ∀ m, P.Comes s rsqrt L m₀ m → s.Pools m₀ → F m →
      ∃ m', m.perform rsqrt ⟨o, id, l.operand, immediate⟩ = .ok m' ∧ G m') :
    Results (emit o (c.location id) l immediate) s fun _ t => Produces P s₁ t registers held rsqrt L m₀ G := by
  refine ((emit_conducts h.toConduct written ⟨id, rfl, owns⟩ reads immediate).and
    (emit_outcome o c id l immediate s)).mono ?_
  rintro _ _ ⟨conduct, text, rfl⟩
  exact h.wrote conduct step

/-- **An instruction that computes into a register**, told by what it
computes. -/
theorem emit_produces (h : Produces P s₁ s registers held rsqrt L m₀ F) {o : Opcode} (written : o.written? = some c)
    (keeps : o.keepsFlags = true) (owns : P.Owns held c id) {l : Location} (reads : P.Reads l) (immediate : List UInt8)
    (step : ∀ m, P.Comes s rsqrt L m₀ m → s.Pools m₀ → F m → ∃ m', m.perform rsqrt ⟨o, id, l.operand, immediate⟩ = .ok m' ∧
      (m.Touches L (c.location id) 0 m' → G m')) :
    Results (emit o (c.location id) l immediate) s fun _ t => Produces P s₁ t registers held rsqrt L m₀ G :=
  emit_computes h written owns reads immediate fun m comes pools holds => by
    obtain ⟨m', run, holds'⟩ := step m comes pools holds
    exact ⟨m', run, holds' (Machine.touches_of_written written keeps (Regime.pool_lt owns.1) run)⟩

/-- An instruction that changes a register in place is carried out. -/
theorem unary_computes (h : Produces P s₁ s registers held rsqrt L m₀ F) {o : Opcode} (inPlace : o.inPlace? = some c)
    (owns : P.Owns held c id) (immediate : List UInt8)
    (step : ∀ m, P.Comes s rsqrt L m₀ m → s.Pools m₀ → F m →
      ∃ m', m.perform rsqrt ⟨o, 0, (c.location id).operand, immediate⟩ = .ok m' ∧ G m') :
    Results (emitUnary o (c.location id) immediate) s fun _ t => Produces P s₁ t registers held rsqrt L m₀ G := by
  have own : P.Own held c (c.location id) := ⟨id, rfl, owns⟩
  have operand : operandOf (c.location id) = .ok (c.location id).operand := by cases c <;> rfl
  obtain ⟨text, run⟩ := emitUnary_eq (s := s) o operand immediate
  have conduct := emitUnary_conducts h.toConduct inPlace (own.admits _) immediate _ _ run
  exact .intro run (h.wrote conduct step)

/-! ## Constants -/

/-- A constant is pooled. -/
theorem constant_produces (h : Produces P s₁ s registers held rsqrt L m₀ F) (k : Constant) :
    Results (constant k) s fun l t => Produces P s₁ t registers held rsqrt L m₀ F ∧ ∃ o, l = .globalMemory o ∧
      (k, o) ∈ t.constants.slots := by
  have ends := constant_ends (E := fun _ => True) (.refl h.leads.ok) k
  refine ((constant_conducts h.toConduct k).and ((Results.ofEnds ends).and (constant_rests k))).mono ?_
  rintro l t ⟨⟨conduct, o, at_, pooled, -⟩, ⟨leads, -⟩, assembly, transcript⟩
  exact ⟨h.rest conduct leads.follows [] (by rw [transcript, List.nil_append]) assembly, o, at_, pooled⟩

end Lower

namespace Conduct

variable {P : Permit} {s₁ s : LoweringState} {registers : List Location} {held : List Lease} {rsqrt : Word → Word}
  {L : Nat} {m₀ m : Machine}

/-- **A pooled constant is in memory**, where nothing global but spill slots is
written. -/
theorem pooledBytes (h : Conduct P s₁ s registers held) (quiet : ∀ l n k, P.memory l n → m₀.takes L l n k → L ≤ k)
    (comes : P.Comes s rsqrt L m₀ m)
    (pools : s.Pools m₀) {c : Constant} {o : Nat} (hc : (c, o) ∈ s.constants.slots) {i : Nat} (small : i < c.size) :
    m.block.get (o + i) = c.bytes.getD i 0 := by
  have below : o + c.size ≤ L := Nat.le_trans (h.leads.ok.pooled _ hc).1
    (Nat.le_trans h.leads.ok.layout.globalTop comes.starts.suits.globals)
  refine Eq.trans ?_ (pools _ hc i small)
  refine (h.keeps _ _ _ _ comes).bytes _ (fun l n permitted taken => ?_) fun slot hs inside => ?_
  · have above := quiet l n _ permitted taken
    omega
  obtain ⟨low, high⟩ := inside
  rcases (h.spills slot hs).2.2.2 _ hc with below | above
  · have below : o + c.size ≤ slot.offset := below
    omega
  · have above : slot.stop ≤ o := above
    omega

/-- A pooled constant has a place that has been handed out. -/
theorem pooledHas (h : Conduct P s₁ s registers held) (comes : P.Comes s rsqrt L m₀ m) {c : Constant} {o : Nat}
    (hc : (c, o) ∈ s.constants.slots) : m.Has L c.size (.globalMemory o) :=
  comes.starts.suits.has h.leads.ok (l := .globalMemory o) (h.leads.ok.pooled _ hc).1
    (by cases c <;> exact Nat.zero_lt_succ _) (h.size comes)

/-- **A pooled vector** is read from memory. -/
theorem pooledLanes (h : Conduct P s₁ s registers held) (quiet : ∀ l n k, P.memory l n → m₀.takes L l n k → L ≤ k)
    (comes : P.Comes s rsqrt L m₀ m) (pools : s.Pools m₀) {v : Lanes} {o : Nat} (hc : (.vector v, o) ∈ s.constants.slots) :
    m.lanesAt L (.globalMemory o) = v := by
  have length : v.bytes.length = 16 := v.length_bytes
  have at_ : m.offsetAt L (.globalMemory o) = o := by
    rw [Machine.offsetAt, Machine.addressOf, Nat.add_sub_cancel_left]
  have bytes : m.block.getBytes o 16 = v.bytes := by
    refine List.ext_getElem? fun k => ?_
    by_cases small : k < 16
    · rw [Block.getElem?_getBytes small, h.pooledBytes quiet comes pools hc small,
        List.getElem?_eq_getElem (length ▸ small)]
      simp [Constant.bytes, length, small]
    · rw [List.getElem?_eq_none (by simpa using small), List.getElem?_eq_none (by omega)]
  have same := Lanes.ofBytes_bytes v []
  rw [List.append_nil] at same
  rw [← Machine.ofBytes_getBytes m L rfl, at_, bytes, same]

/-- Pooled vectors are aligned. -/
theorem pooledStraight (h : Conduct P s₁ s registers held) (comes : P.Comes s rsqrt L m₀ m) (aligned : m₀.base % 16 = 0)
    {v : Lanes} {o : Nat} (hc : (.vector v, o) ∈ s.constants.slots) : m.Straight16 L (.globalMemory o) := fun _ => by
  have slot : o % 16 = 0 := (h.leads.ok.pooled _ hc).2
  rw [Machine.addressOf, h.base comes]
  omega

end Conduct

end Shading
