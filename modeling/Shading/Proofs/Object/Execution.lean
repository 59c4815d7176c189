import Mathlib.Logic.Relation
import Shading.Proofs.Object.Site

/-!
# Executions of an object

An execution calls the trampoline, which loads the globals that live in
registers and the base of the local region, and then carries out the body of
the function. `Program.Site` collects what is true of code in its place,
whatever machine runs it, and `Program.Stage` says where a machine stands in
an execution and what its registers hold there. One step leads from stage to
stage, always ahead, or it returns, or an instruction of the body faults
(`Program.Running.step`).
-/

namespace Shading

open LoweringState Regime

/-! ## Registers that are loaded -/

/-- **A register holds some bytes**: a general register the first four of
them, with zeros above, and an SSE register sixteen. -/
def Machine.InRegister (m : Machine) (bytes : List UInt8) (id : Nat) : RegisterClass → Prop
  | .general => m.general64 id = (wordOfBytes bytes).toUInt64
  | .simd => m.simd id = Lanes.ofBytes bytes

/-- A global has been loaded from its staging slot. -/
def StagedGlobal.Loaded (g : StagedGlobal) (m : Machine) : Prop :=
  ∀ c id, g.location = RegisterClass.location c id → m.InRegister (m.block.getBytes g.staging 16) id c

namespace Machine

variable {m : Machine} {rsqrt : Word → Word} {offset : Nat}

theorem operandAddress?_global (whole : m.base + m.block.size ≤ 2 ^ 63) (inside : offset ≤ m.block.size)
    {i : Instruction Nat} (rm : i.rm = .globalAt offset) : m.operandAddress? i = some (m.base + offset) := by
  have same : ((m.base + offset : Nat) : Int) + signedValue 32 0 = ((m.base + offset : Nat) : Int) := Int.add_zero _
  rw [operandAddress?_globalAt rm, same, toNat_address]
  unfold addressCount
  omega

/-- The machine with bytes in a register. -/
def load (m : Machine) (bytes : List UInt8) (id : Nat) : RegisterClass → Machine
  | .general => m.setGeneral32 id (wordOfBytes bytes)
  | .simd => m.setSimd id (Lanes.ofBytes bytes)

/-- The first word of some bytes of a block. -/
theorem wordOfBytes_getBytes (b : Block) (start more : Nat) :
    wordOfBytes (b.getBytes start (4 + more)) = wordOfBytes (b.getBytes start 4) := by
  rw [Block.getBytes_add, wordOfBytes, wordOfBytes, List.take_append_of_le_length (by simp)]

/-- **A register is loaded** from the global region. -/
theorem perform_loadOpcode (whole : m.base + m.block.size ≤ 2 ^ 63) (inside : offset + 16 ≤ m.block.size)
    (c : RegisterClass) (id : Nat) : m.perform rsqrt ⟨RegisterClass.loadOpcode c, id, .globalAt offset, []⟩ =
      .ok (m.load (m.block.getBytes offset 16) id c) := by
  have spans (n : Nat) (small : n ≤ 16) : m.Spans (m.base + offset) n := ⟨Nat.le_add_right _ _, by omega⟩
  cases c with
  | general =>
    have address := operandAddress?_global whole (Nat.le_of_add_right_le inside)
      (i := ⟨.movLoad, id, .globalAt offset, []⟩) rfl
    have read := (read32_memory address).trans (congrArg (Except.map wordOfBytes)
      (readBytes_eq_ok.2 ⟨spans 4 (by decide), rfl⟩))
    refine except_bind_eq_ok.2 ⟨_, read, ?_⟩
    rw [Nat.add_sub_cancel_left, ← wordOfBytes_getBytes _ _ 12]
    rfl
  | simd =>
    have address := operandAddress?_global whole (Nat.le_of_add_right_le inside)
      (i := ⟨.movupsLoad, id, .globalAt offset, []⟩) rfl
    have read := (readPacked_memory address).trans (congrArg (Except.map Lanes.ofBytes)
      (readBytes_eq_ok.2 ⟨spans 16 (by decide), rfl⟩))
    refine except_bind_eq_ok.2 ⟨_, read, ?_⟩
    rw [Nat.add_sub_cancel_left]
    rfl

@[simp] theorem block_load (m : Machine) (bytes : List UInt8) (id : Nat) (c : RegisterClass) :
    (m.load bytes id c).block = m.block := by cases c <;> rfl

@[simp] theorem base_load (m : Machine) (bytes : List UInt8) (id : Nat) (c : RegisterClass) :
    (m.load bytes id c).base = m.base := by cases c <;> rfl

theorem inRegister_load (m : Machine) (bytes : List UInt8) (id : Nat) (c : RegisterClass) :
    (m.load bytes id c).InRegister bytes id c := by
  cases c with
  | general => exact (general64_set m id id _).trans (if_pos rfl)
  | simd => exact (simd_set m id id _).trans (if_pos rfl)

/-- What is loaded elsewhere stays. -/
theorem InRegister.load {bytes bytes' : List UInt8} {id id' : Nat} {c c' : RegisterClass}
    (h : m.InRegister bytes id c) (pool : id ∈ c.pool) (pool' : id' ∈ c'.pool)
    (other : RegisterClass.location c id ≠ RegisterClass.location c' id') :
    (m.load bytes' id' c').InRegister bytes id c := by
  have apart (same : c = c') : ¬ id % 8 = id' % 8 := by
    subst same
    rw [Nat.mod_eq_of_lt (pool_lt pool), Nat.mod_eq_of_lt (pool_lt pool')]
    rintro rfl
    exact other rfl
  cases c with
  | general =>
    cases c' with
    | general => exact (general64_set m id' id _).trans ((if_neg (apart rfl)).trans h)
    | simd => exact h
  | simd =>
    cases c' with
    | general => exact h
    | simd => exact (simd_set m id' id _).trans ((if_neg (apart rfl)).trans h)

/-- **The base of the local region** is loaded. -/
theorem perform_lea (whole : m.base + m.block.size ≤ 2 ^ 63) (inside : offset ≤ m.block.size) :
    m.perform rsqrt ⟨.lea, localBaseRegister, .globalAt offset, []⟩ =
      .ok (m.setGeneral64 localBaseRegister (UInt64.ofNat (m.base + offset))) := by
  have address := operandAddress?_global whole inside (i := ⟨.lea, localBaseRegister, .globalAt offset, []⟩) rfl
  have same : (m.address? (Instruction.anchor ⟨.lea, localBaseRegister, .globalAt offset, []⟩)
      (.globalAt 0)).getD 0 = m.base + offset := congrArg (Option.getD · 0) address
  exact congrArg (fun a => Except.ok (m.setGeneral64 localBaseRegister (UInt64.ofNat a))) same

end Machine

/-- A change of another general register leaves what is loaded. -/
theorem Machine.InRegister.setGeneral64 {m : Machine} {bytes : List UInt8} {id r : Nat} {c : RegisterClass} {v : UInt64}
    (h : m.InRegister bytes id c) (other : c = .general → ¬ id % 8 = r % 8) :
    (m.setGeneral64 r v).InRegister bytes id c := by
  cases c with
  | general => exact (general64_set m r id v).trans ((if_neg (other rfl)).trans h)
  | simd => exact h

/-- A global is in a register of the pool. -/
theorem StagedGlobal.Sound.mem_pool {g : StagedGlobal} (h : g.Sound) {c : RegisterClass} {id : Nat}
    (home : g.location = RegisterClass.location c id) : id ∈ c.pool := by
  obtain ⟨c', id', pool, home'⟩ := h
  obtain ⟨rfl, rfl⟩ := RegisterClass.location_inj (home.symm.trans home')
  exact pool

namespace StagedGlobal.Loaded

variable {g : StagedGlobal} {m m' : Machine}

/-- What is loaded stays where its register and its staging slot do. -/
theorem of_same (h : g.Loaded m) (block : m'.block = m.block)
    (same : ∀ bytes id c, g.location = RegisterClass.location c id → m.InRegister bytes id c → m'.InRegister bytes id c) :
    g.Loaded m' := fun c id home => by
  rw [block]
  exact same _ id c home (h c id home)

/-- What is loaded elsewhere stays. -/
theorem load (h : g.Loaded m) (sound : g.Sound) {bytes : List UInt8} {id : Nat} {c : RegisterClass} (pool : id ∈ c.pool)
    (other : g.location ≠ RegisterClass.location c id) : g.Loaded (m.load bytes id c) :=
  h.of_same (Machine.block_load ..) fun _ _ _ home held =>
    held.load (sound.mem_pool home) pool fun same => other (home.trans same)

/-- **The load of a global** leaves it loaded. -/
theorem of_load {id : Nat} {c : RegisterClass} (home : g.location = RegisterClass.location c id) :
    g.Loaded (m.load (m.block.getBytes g.staging 16) id c) := fun c' id' home' => by
  obtain ⟨rfl, rfl⟩ := RegisterClass.location_inj (home.symm.trans home')
  rw [Machine.block_load]
  exact Machine.inRegister_load ..

/-- The base of the local region is in no register of a pool. -/
theorem setLocalBase (h : g.Loaded m) (sound : g.Sound) {v : UInt64} : g.Loaded (m.setGeneral64 localBaseRegister v) :=
  h.of_same rfl fun _ _ _ home held => held.setGeneral64 fun general => by
    subst general
    have pool := sound.mem_pool home
    have other := Regime.general_ne_base pool
    have low := pool_lt pool
    unfold localBaseRegister at other ⊢
    omega

end StagedGlobal.Loaded

/-! ## The trampoline -/

/-- **What stands at each place of a trampoline**: a load for each global,
the base of the local region, and a return. -/
inductive TrampolineEntry (staged : List StagedGlobal) (localOffset : Nat) : Nat → CodeEntry → Prop
  | load {k : Nat} {g : StagedGlobal} {e : CodeEntry} (here : staged[k]? = some g) (code : g.code? = some e) :
      TrampolineEntry staged localOffset k e
  | localBase : TrampolineEntry staged localOffset staged.length
      (.instruction ⟨.lea, localBaseRegister, .globalAt localOffset, []⟩ "lea rsi,[local]")
  | ret : TrampolineEntry staged localOffset (staged.length + 1) .ret

/-- Each global has one load. -/
theorem getElem?_loads : ∀ {staged : List StagedGlobal}, (∀ g ∈ staged, g.Sound) →
    ∀ k : Nat, (staged.filterMap StagedGlobal.code?)[k]? = staged[k]?.bind StagedGlobal.code?
  | [], _, _ => rfl
  | g :: staged, sound, k => by
    obtain ⟨c, id, text, -, -, code, -⟩ := (sound g List.mem_cons_self).entry
    rw [List.filterMap_cons, code]
    cases k with
    | zero => exact code.symm
    | succ k => exact getElem?_loads (fun x hx => sound x (List.mem_cons_of_mem _ hx)) k

theorem length_loads : ∀ {staged : List StagedGlobal}, (∀ g ∈ staged, g.Sound) →
    (staged.filterMap StagedGlobal.code?).length = staged.length
  | [], _ => rfl
  | g :: staged, sound => by
    obtain ⟨c, id, text, -, -, code, -⟩ := (sound g List.mem_cons_self).entry
    rw [List.filterMap_cons, code, List.length_cons, List.length_cons,
      length_loads fun x hx => sound x (List.mem_cons_of_mem _ hx)]

theorem trampolineEntry_of_getElem? {staged : List StagedGlobal} (sound : ∀ g ∈ staged, g.Sound) {localOffset k : Nat}
    {e : CodeEntry} (here : (trampolineEntries staged localOffset)[k]? = some e) :
    TrampolineEntry staged localOffset k e := by
  have count := length_loads sound
  by_cases load : k < staged.length
  · rw [trampolineEntries, List.getElem?_append_left (by omega), getElem?_loads sound] at here
    obtain ⟨g, known, code⟩ := Option.bind_eq_some_iff.1 here
    exact .load known code
  · rw [trampolineEntries, List.getElem?_append_right (by omega), count] at here
    obtain ⟨n, rfl⟩ : ∃ n, k = staged.length + n := ⟨k - staged.length, by omega⟩
    rw [Nat.add_sub_cancel_left] at here
    rcases n with _ | _ | n
    · cases here
      exact .localBase
    · cases here
      exact .ret
    · cases here

/-- A machine in front of a place of a trampoline stands at its entry. -/
theorem Machine.at_trampoline {staged : List StagedGlobal} (sound : ∀ g ∈ staged, g.Sound) {m : Machine}
    {start localOffset k : Nat} (ip : m.ip = start + Assembly.startOf (trampolineEntries staged localOffset) k)
    (inside : k < staged.length + 2)
    (holds : m.block.Holds start (Assembly.linkedCode start (trampolineEntries staged localOffset))) :
    ∃ e, m.At start (trampolineEntries staged localOffset) k e := by
  have length : k < (trampolineEntries staged localOffset).length := by
    simpa [trampolineEntries, length_loads sound] using inside
  obtain ⟨e, here⟩ : ∃ e, (trampolineEntries staged localOffset)[k]? = some e := ⟨_, List.getElem?_eq_getElem length⟩
  refine ⟨e, ip, here, ?_, holds⟩
  rintro l rfl
  cases trampolineEntry_of_getElem? sound here with
  | load known code =>
    obtain ⟨x, -, eq⟩ := Option.map_eq_some_iff.1 code
    cases eq

/-! ## Stages -/

/-- **The access of a machine through an address register** stays inside a
container, if the instruction at hand makes one. -/
def Program.Contained (p : Program) (l : ObjectLayout) (m : Machine) : Prop :=
  ∀ i rest, Decoded.read? m.upcoming = some (.op i, rest) → p.Shelters l m i

/-- **Where a machine stands in an execution** of a function, and what its
registers hold there. -/
inductive Program.Stage (p : Program) (l : ObjectLayout) (f : CompiledFunction) (entry : Nat) (m : Machine) : Prop
  /-- In front of the call. -/
  | called (ip : m.ip = entry) (stack : m.stack = [])
  /-- In the trampoline, where some of the globals have been loaded. -/
  | loading {k : Nat} {e : CodeEntry}
      (at_ : m.At l.trampolineOffset (trampolineEntries p.staged l.localOffset) k e) (stack : m.stack = [entry + 5])
      (loaded : ∀ g ∈ p.staged.take k, g.Loaded m)
      (localBase : p.staged.length < k → (m.general64 localBaseRegister).toNat = m.base + l.localOffset)
  /-- In the body. All globals have been loaded where it starts. -/
  | body {k : Nat} {e : CodeEntry} (at_ : m.At (entry + 5) f.assembly.entries.tail k e) (stack : m.stack = [])
      (localBase : (m.general64 localBaseRegister).toNat = m.base + l.localOffset)
      (loaded : m.ip = entry + 5 → ∀ g ∈ p.staged, g.Loaded m)

/-- **A machine that executes a function of an object.** -/
structure Program.Running (p : Program) (l : ObjectLayout) (f : CompiledFunction) (entry : Nat) (m : Machine) : Prop where
  whole : m.base + m.block.size ≤ 2 ^ 63
  deployed : p.Deployed l f entry m.block
  stage : p.Stage l f entry m

/-- How far an execution has come: the call is the first instruction, then
come those of the trampoline, which is in front of the function, and then
those of the body. -/
def progressAt (entry ip : Nat) : Nat := if ip = entry then 0 else if ip < entry then ip + 1 else ip

section progressAt

variable {entry ip : Nat}

@[simp] theorem progressAt_self : progressAt entry entry = 0 := if_pos rfl

theorem progressAt_before (h : ip < entry) : progressAt entry ip = ip + 1 := by
  rw [progressAt, if_neg (Nat.ne_of_lt h), if_pos h]

theorem progressAt_behind (h : entry < ip) : progressAt entry ip = ip := by
  rw [progressAt, if_neg (Nat.ne_of_gt h), if_neg (Nat.lt_asymm h)]

end progressAt

/-- **An execution goes on** from one machine to another. -/
structure Program.Continues (p : Program) (l : ObjectLayout) (f : CompiledFunction) (entry : Nat) (m m' : Machine) :
    Prop where
  running : p.Running l f entry m'
  base : m'.base = m.base
  sealed : m.block.Spares (p.Sealed l) m'.block
  ahead : progressAt entry m.ip < progressAt entry m'.ip
  /-- The body is entered at its start. -/
  enters : m.ip < entry + 5 → m'.ip ≤ entry + 5

/-- **A machine stands at the return** of a function, with no call under
way. -/
structure Program.Returns (f : CompiledFunction) (entry : Nat) (m : Machine) : Prop where
  at_ : ∃ k, m.At (entry + 5) f.assembly.entries.tail k .ret
  stack : m.stack = []

/-! ## Steps -/

namespace Program

variable {p : Program} {l : ObjectLayout} {f : CompiledFunction} {entry : Nat} {m : Machine} {rsqrt : Word → Word}

/-- **The call leads to the trampoline.** -/
theorem Running.step_call (running : p.Running l f entry m) (site : p.Site l f entry) (ip : m.ip = entry)
    (stack : m.stack = []) : ∃ m', m.step rsqrt = .ok (.running m') ∧ p.Continues l f entry m m' := by
  subst ip
  have deployed := running.deployed
  refine ⟨_, Machine.step_call deployed.call site.near, ?_⟩
  obtain ⟨e, at_⟩ := Machine.at_trampoline (k := 0) (fun g hg => (site.staged g hg).1)
    (m := { m with ip := l.trampolineOffset, stack := (m.ip + 5) :: m.stack }) rfl (by omega) deployed.trampoline
  have inside : l.trampolineOffset < m.ip :=
    Nat.lt_of_lt_of_le (at_.inside site.trampoline).2 site.behind
  refine ⟨⟨running.whole, deployed, .loading at_ (by rw [stack]) (by simp) nofun⟩, rfl, .refl _, ?_,
    fun _ => Nat.le_trans (Nat.le_of_lt inside) (Nat.le_add_right _ _)⟩
  rw [progressAt_self, progressAt_before inside]
  exact Nat.succ_pos _

/-- **An execution goes on** in the trampoline behind an instruction that
leaves the block. -/
theorem Running.continues_loading (running : p.Running l f entry m) (site : p.Site l f entry) {k : Nat} {e : CodeEntry}
    (at_ : m.At l.trampolineOffset (trampolineEntries p.staged l.localOffset) k e) (inside : k + 1 < p.staged.length + 2)
    {m' : Machine} (base : m'.base = m.base) (block : m'.block = m.block) (stack : m'.stack = [entry + 5])
    (loaded : ∀ g ∈ p.staged.take (k + 1), g.Loaded m')
    (localBase : p.staged.length < k + 1 → (m'.general64 localBaseRegister).toNat = m.base + l.localOffset) :
    p.Continues l f entry m
      (m'.standing (l.trampolineOffset + Assembly.startOf (trampolineEntries p.staged l.localOffset) (k + 1))) := by
  have sound : ∀ g ∈ p.staged, g.Sound := fun g hg => (site.staged g hg).1
  have next := Assembly.startOf_of_getElem? at_.here
  have size := at_.size_pos site.trampoline
  have ip := at_.ip
  generalize eq : l.trampolineOffset + Assembly.startOf (trampolineEntries p.staged l.localOffset) (k + 1) = target
  have holds := running.deployed.trampoline
  rw [← block] at holds
  obtain ⟨e', at'⟩ := Machine.at_trampoline (m := m'.standing target) sound eq.symm inside holds
  have before : m.ip < entry := Nat.lt_of_lt_of_le (at_.inside site.trampoline).2 site.behind
  have before' : target < entry := Nat.lt_of_lt_of_le (at'.inside site.trampoline).2 site.behind
  refine ⟨⟨?_, block.symm ▸ running.deployed, .loading at' stack loaded fun last => ?_⟩, base, ?_, ?_,
    fun _ => Nat.le_trans (Nat.le_of_lt before') (Nat.le_add_right _ _)⟩
  · exact (congrArg₂ (fun a (b : Block) => a + b.size ≤ 2 ^ 63) base block).mpr running.whole
  · exact (localBase last).trans (congrArg (· + l.localOffset) base.symm)
  · exact block.symm ▸ Block.Spares.refl _
  · have there : progressAt entry (m'.standing target).ip = target + 1 := progressAt_before before'
    rw [progressAt_before before, there]
    omega

/-- **The trampoline** loads one register after the other, and then leads to
the body. -/
theorem Running.step_loading (running : p.Running l f entry m) (site : p.Site l f entry) {k : Nat} {e : CodeEntry}
    (at_ : m.At l.trampolineOffset (trampolineEntries p.staged l.localOffset) k e) (stack : m.stack = [entry + 5])
    (loaded : ∀ g ∈ p.staged.take k, g.Loaded m)
    (localBase : p.staged.length < k → (m.general64 localBaseRegister).toNat = m.base + l.localOffset) :
    ∃ m', m.step rsqrt = .ok (.running m') ∧ p.Continues l f entry m m' := by
  have whole := running.whole
  have room := running.deployed.room
  have behind := site.behind
  have stop := site.stop
  have sound : ∀ g ∈ p.staged, g.Sound := fun g hg => (site.staged g hg).1
  have readable := site.trampoline.readable _ (List.mem_of_getElem? at_.here)
  -- The entries of the trampoline are the loads of the staged globals, the address of
  -- the locals behind them, and the return.
  cases trampolineEntry_of_getElem? sound at_.here with
  | load known code =>
    rename_i g
    have mem := List.mem_of_getElem? known
    have inside := (List.getElem?_eq_some_iff.1 known).1
    obtain ⟨c, id, text, pool, home, code', -⟩ := (sound g mem).entry
    obtain rfl := Option.some.inj (code.symm.trans code')
    have slot := (site.staged g mem).2
    have run : m.perform rsqrt ⟨RegisterClass.loadOpcode c, id, .globalAt g.staging, []⟩ = _ :=
      Machine.perform_loadOpcode whole (by omega) c id
    have step : m.step rsqrt = _ := at_.step_instruction readable site.loads
    rw [run] at step
    refine ⟨_, step, running.continues_loading site at_ (by omega) (Machine.base_load ..) (Machine.block_load ..)
      ?_ ?_ fun last => absurd last (by omega)⟩
    · cases c <;> exact stack
    · rw [List.take_add_one, known]
      intro g' hg'
      rcases List.mem_append.1 hg' with earlier | now
      · -- What was loaded before is in another register.
        have apart := site.distinct
        rw [← List.take_append_drop k p.staged] at apart
        have here : g ∈ p.staged.drop k := List.mem_of_getElem? (i := 0) (by rw [List.getElem?_drop, Nat.add_zero, known])
        have other := (List.pairwise_append.1 apart).2.2 g' earlier g here
        rw [home] at other
        exact (loaded g' earlier).load (sound g' (List.mem_of_mem_take earlier)) pool other
      · obtain rfl := List.mem_singleton.1 now
        exact .of_load home
  | localBase =>
    have run : m.perform rsqrt ⟨.lea, localBaseRegister, .globalAt l.localOffset, []⟩ = _ :=
      Machine.perform_lea whole (by omega)
    have step : m.step rsqrt = _ := at_.step_instruction readable site.loads
    rw [run] at step
    refine ⟨_, step, running.continues_loading site at_ (by omega) rfl rfl stack (fun g hg => ?_) fun _ => ?_⟩
    · have mem := List.mem_of_mem_take hg
      rw [List.take_length] at loaded
      exact (loaded g mem).setLocalBase (sound g mem)
    · rw [Machine.general64_set, if_pos rfl]
      exact UInt64.toNat_ofNat_of_lt (Nat.lt_of_le_of_lt (by omega) (by decide : 2 ^ 63 < 2 ^ 64))
  | ret =>
    have holds := at_.holds.entry at_.here
    rw [← at_.ip] at holds
    refine ⟨_, (Machine.step_ret holds).2 _ _ stack, ?_⟩
    obtain ⟨front, last⟩ := site.body.returns
    obtain ⟨j, -, e, here, plain, start⟩ := Assembly.exists_rest (k := 0) site.body.returns (by rw [last]; simp)
    rw [List.take_of_length_le (Nat.le_succ _)] at loaded
    have before : m.ip < entry := Nat.lt_of_lt_of_le (at_.inside site.trampoline).2 site.behind
    refine ⟨⟨whole, running.deployed, .body ⟨?_, here, plain, running.deployed.body⟩ rfl
      (localBase (Nat.lt_succ_self _)) fun _ => loaded⟩, rfl, .refl _, ?_, fun _ => Nat.le_refl _⟩
    · rw [start]
      rfl
    · have there : progressAt entry (entry + 5) = entry + 5 := progressAt_behind (by omega)
      rw [progressAt_before before, there]
      omega

/-- What an instruction does to sealed bytes and to the base of the local
region: nothing. -/
theorem Running.spares_of_effect (running : p.Running l f entry m) (site : p.Site l f entry) {k : Nat} {e : CodeEntry}
    (at_ : m.At (entry + 5) f.assembly.entries.tail k e)
    (localBase : (m.general64 localBaseRegister).toNat = m.base + l.localOffset) (contained : p.Contained l m)
    {m' : Machine} (effect : m.Effect rsqrt e m') : m.block.Spares (p.Sealed l) m'.block ∧
      m'.general64 localBaseRegister = m.general64 localBaseRegister := by
  have mem := List.mem_of_getElem? at_.here
  cases effect with
  | instruction run =>
    rename_i i text
    obtain ⟨rest, read⟩ := at_.read (site.body.readable _ mem) rfl
    have shelters : p.Shelters l m i := fun id rm access => by
      refine contained _ rest read id ?_ access
      rw [Instruction.linked, rm]
      rfl
    exact ⟨⟨(Machine.execute_frames run).size, site.spares i text mem m m' rsqrt
      ⟨running.deployed.room, running.whole, localBase⟩ shelters run⟩, site.localBase i text mem m m' rsqrt run⟩
  | cdq => exact ⟨.refl _, (Machine.general64_set m 2 localBaseRegister _).trans (if_neg (by decide))⟩
  | jump => exact ⟨.refl _, rfl⟩

/-- **The body** goes on to a later entry, or returns, unless an instruction
faults. -/
theorem Running.step_body (running : p.Running l f entry m) (site : p.Site l f entry) {k : Nat} {e : CodeEntry}
    (at_ : m.At (entry + 5) f.assembly.entries.tail k e) (stack : m.stack = [])
    (localBase : (m.general64 localBaseRegister).toNat = m.base + l.localOffset) (contained : p.Contained l m) :
    (∃ x, m.step rsqrt = .error x ∧ x.OfData) ∨
      (∃ m', m.step rsqrt = .ok (.running m') ∧ p.Continues l f entry m m') ∨
      m.step rsqrt = .ok (.returned m) ∧ Program.Returns f entry m := by
  have steps : _ ∨ (∃ m' j, m.Moves rsqrt (entry + 5) f.assembly.entries.tail k e m' j) ∨ _ :=
    Machine.step_forward site.body site.reaching at_
  rcases steps with ⟨i, text, x, rfl, run, step⟩ | ⟨m', j, moves⟩ | rfl
  · exact .inl ⟨x, step, site.faults i text (List.mem_of_getElem? at_.here) m rsqrt x run⟩
  · obtain ⟨base, size, frame⟩ := moves.effect.frames
    obtain ⟨spares, same⟩ := running.spares_of_effect site at_ localBase contained moves.effect
    have deployed := running.deployed.of_spares site spares
    obtain ⟨e', at'⟩ := moves.at deployed.body
    have low := (at_.inside site.body).1
    have ahead := moves.ahead at_
    have bytes := at_.size_pos site.body
    refine .inr (.inl ⟨_, moves.step, ⟨?_, deployed, .body at' (frame.trans stack) ?_ fun start => ?_⟩, base, spares, ?_,
      fun before => absurd low (Nat.not_le.2 before)⟩)
    · exact (congrArg₂ (fun a b => a + b ≤ 2 ^ 63) base size).mpr running.whole
    · exact (congrArg UInt64.toNat same).trans (localBase.trans (congrArg (· + l.localOffset) base.symm))
    · have start : entry + 5 + Assembly.startOf f.assembly.entries.tail j = entry + 5 := start
      omega
    · rw [progressAt_behind (by omega : entry < m.ip)]
      refine Nat.lt_of_lt_of_eq ?_ (progressAt_behind ?_).symm
      · exact Nat.lt_of_lt_of_le (Nat.lt_add_of_pos_right bytes) ahead
      · exact Nat.lt_of_lt_of_le (by omega) ahead
  · have holds := at_.holds.entry at_.here
    rw [← at_.ip] at holds
    exact .inr (.inr ⟨(Machine.step_ret holds).1 stack, ⟨k, at_⟩, stack⟩)

/-- **In front of the body** no instruction faults. -/
theorem Running.step_before (running : p.Running l f entry m) (site : p.Site l f entry) (before : m.ip < entry + 5)
    (rsqrt : Word → Word) : ∃ m', m.step rsqrt = .ok (.running m') ∧ p.Continues l f entry m m' := by
  cases running.stage with
  | called ip stack => exact running.step_call site ip stack
  | loading at_ stack loaded localBase => exact running.step_loading site at_ stack loaded localBase
  | body at_ stack localBase loaded => exact absurd (at_.inside site.body).1 (Nat.not_le.2 before)

/-- **One step of an execution**: it goes on ahead, or it returns, or an
instruction faults on its data. -/
theorem Running.step (running : p.Running l f entry m) (site : p.Site l f entry) (contained : p.Contained l m)
    (rsqrt : Word → Word) : (∃ x, m.step rsqrt = .error x ∧ x.OfData) ∨
      (∃ m', m.step rsqrt = .ok (.running m') ∧ p.Continues l f entry m m') ∨
      m.step rsqrt = .ok (.returned m) ∧ Program.Returns f entry m := by
  cases running.stage with
  | called ip stack => exact .inr (.inl (running.step_call site ip stack))
  | loading at_ stack loaded localBase => exact .inr (.inl (running.step_loading site at_ stack loaded localBase))
  | body at_ stack localBase loaded => exact running.step_body site at_ stack localBase contained

end Program

end Shading
