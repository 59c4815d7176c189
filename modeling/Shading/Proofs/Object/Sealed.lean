import Shading.Proofs.Machine.Words
import Shading.Proofs.Object.Globals

/-!
# What no execution changes

An execution may change the global variables in memory, the slots that
registers are saved in, the scratch words of divisions, and the local
region. The rest of an object is *sealed* (`Program.Sealed`): the code, the
constants, and the slots that globals in registers are loaded from. No
instruction of a function writes there at a known offset, and none through
an address register while it keeps to the variables and temporaries that it
indexes (`Program.Contains`, `CompiledFunction.Written.spares`).
-/

namespace Shading

open LoweringState Regime

/-! ## Stretches of an object -/

/-- **So many bytes from an offset on lie in one of the containers** that
address registers index: in a global variable, or in the local region, where
all other variables and all temporaries are. -/
def Program.Contains (p : Program) (l : ObjectLayout) (k count : Nat) : Prop :=
  (∃ g ∈ p.globals, ∃ offset, g.location = .globalMemory offset ∧ offset ≤ k ∧ k + count ≤ offset + g.ty.size) ∨
    (l.localOffset ≤ k ∧ k + count ≤ l.localOffset + l.localSize)

/-- **The bytes that no execution changes.** -/
inductive Program.Sealed (p : Program) (l : ObjectLayout) (k : Nat) : Prop where
  | code (low : l.trampolineOffset ≤ k) (high : k < l.localOffset)
  | constant {c : Constant × Nat} (mem : c ∈ p.constants.slots) (low : c.2 ≤ k) (high : k < c.2 + c.1.size)
  | staging {g : StagedGlobal} (mem : g ∈ p.staged) (low : g.staging ≤ k) (high : k < g.staging + 16)

/-- **Where an object stands** in a machine that runs it: its regions are in
the block, the block ends in the lower half of the addresses, and the base
of the local region is in its register. -/
structure ObjectLayout.Grounds (l : ObjectLayout) (m : Machine) : Prop where
  inside : l.localOffset + l.localSize ≤ m.block.size
  whole : m.base + m.block.size ≤ 2 ^ 63
  localBase : (m.general64 localBaseRegister).toNat = m.base + l.localOffset

/-- **An access of an instruction through an address register**, if it makes
one, stays inside a container. -/
def Program.Shelters (p : Program) (l : ObjectLayout) (m : Machine) (i : Instruction Nat) : Prop :=
  ∀ id, i.rm = .indirect id → i.opcode.reach ≠ 0 →
    ∃ k, (m.general64 id).toNat = m.base + k ∧ p.Contains l k i.opcode.reach

/-! ## Slots -/

/-- The bytes of a region that a program has. -/
def Program.sizeOf (p : Program) : Region → Nat
  | .global => p.globalSize
  | .local => p.localSize

/-- **An operand keeps to a slot**: all bytes of it that the instruction
accesses lie in the slot, which lies in its region. What is written is a
slot that the code may write, and no byte of it is sealed. -/
structure Program.KeepsTo (p : Program) (uses : SlotUse → Slot → Prop) (assigned : SymbolId → Prop)
    (i : Instruction Nat) (r : Region) (offset : Nat) (use : SlotUse) (slot : Slot) : Prop where
  uses : uses use slot
  holds : slot.Holds r offset i.opcode.reach
  inside : slot.stop ≤ p.sizeOf r
  writable : i.opcode.writesOperand = true → use.Writable assigned
  unsealed : i.opcode.writesOperand = true → r = .global → ∀ floor k, slot.offset ≤ k → k < slot.stop →
    ¬ p.Sealed (p.objectLayout floor) k

/-- **The code of a function keeps to the slots** that there are in its
course: its instructions are those that its lowering emitted, up to the
state `t`, and each of their operands at a known offset lies in one slot. -/
structure CompiledFunction.KeepsToSlots (f : CompiledFunction) (p : Program) (g : FunctionId) (body : List Statement)
    (t : LoweringState) : Prop where
  instructions : f.assembly.entries.filterMap CodeEntry.instruction? = Transcript.emitted t.transcript
  slots : ∀ es i l, (.emitted i l :: es) <:+ t.transcript → ∀ r offset, i.rm.place? = some (r, offset) →
    ∃ use slot, p.KeepsTo (Uses t.declarations (some g) p.constants t.divisionSlots es)
      (· ∈ Statement.allAssigned body) i r offset use slot

/-! ## Regimes of programs -/

/-- A regime for the code of a program, with no machine that starts. -/
def Program.regime (p : Program) (l : ObjectLayout) (assigned : SymbolId → Prop) : Regime where
  rsqrt := id
  base := 0
  size := l.localOffset + l.localSize
  globalSize := p.globalSize
  localOffset := l.localOffset
  localSize := l.localSize
  globals := slotsOf (homesOf p.globals)
  constants := p.constants.slots
  assigned
  start := fun _ _ => False
  permits := fun _ _ _ => true

namespace Program.Lowered

variable {p : Program} {s : Shader} {u : LoweringState} {floor : Nat}

/-- The global region ends in front of the code, and the code in front of the
local region, which starts at a multiple of sixteen. -/
theorem objectLayout_bounds (p : Program) (floor : Nat) :
    p.globalSize ≤ (p.objectLayout floor).trampolineOffset ∧
      (p.objectLayout floor).trampolineOffset + trampolineSize p.staged ≤ (p.objectLayout floor).localOffset ∧
      (p.objectLayout floor).localOffset % 16 = 0 ∧ p.localSize ≤ (p.objectLayout floor).localSize := by
  obtain ⟨ordered, aligned, -⟩ := p.objectLayout_ordered floor
  obtain ⟨first, rest⟩ := List.pairwise_cons.1 ordered
  obtain ⟨second, -⟩ := List.pairwise_cons.1 rest
  have last : ((p.objectLayout floor).localOffset, (p.objectLayout floor).localSize) ∈
      (p.functions.zip (p.objectLayout floor).functionOffsets).map (fun x => (x.2, x.1.assembly.size)) ++
        [((p.objectLayout floor).localOffset, (p.objectLayout floor).localSize)] := by simp
  refine ⟨by simpa using first _ List.mem_cons_self, second _ last, ?_, ?_⟩
  · exact aligned _ (List.mem_cons_of_mem _ (List.mem_cons_of_mem _ last))
  · exact Nat.le_trans (Nat.le_max_left _ _) (align16_bounds (max p.localSize floor)).1

/-- A staging slot is one of those that are placed. -/
theorem staged_place (h : p.Lowered s u) {g : StagedGlobal} (hg : g ∈ p.staged) :
    ((.vec4, .globalMemory g.staging) : Holding) ∈ stagesOf p.globals := by
  obtain ⟨slot, hslot, eq⟩ := List.mem_filterMap.1 hg
  obtain ⟨staging, found, rfl⟩ := Option.map_eq_some_iff.1 eq
  cases (h.each slot hslot).1 with
  | memory offset home none =>
    rw [none] at found
    cases found
  | register c id offset pool ofTy home some aligned =>
    rw [some] at found
    cases found
    exact List.mem_filterMap.2 ⟨slot, hslot, by rw [GlobalSlot.stage?, some]; rfl⟩

/-- **The regime of a program** suits the code of its functions. -/
theorem regime_suits (h : p.Lowered s u) (floor : Nat) (body : List Statement) (assigned : SymbolId → Prop)
    (all : ∀ id ∈ Statement.allAssigned body, assigned id) :
    (p.regime (p.objectLayout floor) assigned).Suits (homesOf p.globals) body where
  sound := by
    obtain ⟨behind, behind', aligned, -⟩ := objectLayout_bounds p floor
    have first : ∀ slot ∈ slotsOf (homesOf p.globals), slot ∈ slotsOf (homesOf p.globals ++ stagesOf p.globals) :=
      fun slot hs => by
        obtain ⟨q, hq, place⟩ := mem_slotsOf.1 hs
        exact mem_slotsOf.2 ⟨q, List.mem_append_left _ hq, place⟩
    exact
      { aligned := rfl
        localAligned := aligned
        behind := Nat.le_trans behind (Nat.le_trans (Nat.le_add_right _ _) behind')
        global := fun slot hs => by
          have region := h.standing.global slot (first slot hs)
          obtain ⟨⟨ty, l⟩, hq, place⟩ := mem_slotsOf.1 hs
          cases l <;> cases place
          · exact ⟨rfl, h.places_inside (List.mem_append_left _ hq)⟩
          · cases region
        apart := Moving.slots_apart (List.pairwise_append.1 h.standing.apart).1
        pooled := fun c hc => ⟨h.constants_inside c hc, fun slot hs => h.behind slot (first slot hs) c hc⟩
        grounds := nofun
        kind := .inl nofun }
  identical := nofun
  globals := rfl
  assigned := all

/-- The constants of a program that are pooled later lie behind what has been
handed out. -/
theorem constants_later (h : p.Lowered s u) {v : LoweringState} (precedes : v.Precedes u) :
    ∀ c ∈ p.constants.slots, c ∈ v.constants.slots ∨ v.globalTop ≤ c.2 := fun c hc => by
  obtain ⟨added, eq, above⟩ := precedes.constants
  rw [h.constants, eq] at hc
  exact (List.mem_append.1 hc).imp id (above c)

/-- Global variables in memory lie apart from what is sealed. -/
theorem not_sealed_of_global (h : p.Lowered s u) (floor : Nat) {slot : Slot} (mem : slot ∈ slotsOf (homesOf p.globals))
    {k : Nat} (low : slot.offset ≤ k) (high : k < slot.stop) : ¬ p.Sealed (p.objectLayout floor) k := by
  have both : slot ∈ slotsOf (homesOf p.globals ++ stagesOf p.globals) := by
    obtain ⟨q, hq, place⟩ := mem_slotsOf.1 mem
    exact mem_slotsOf.2 ⟨q, List.mem_append_left _ hq, place⟩
  have region := h.standing.global slot both
  obtain ⟨⟨ty, l⟩, hq, place⟩ := mem_slotsOf.1 mem
  cases l <;> cases place
  · have inside := h.places_inside (List.mem_append_left _ hq)
    rintro (⟨code, -⟩ | ⟨mem', low', -⟩ | ⟨mem', low', high'⟩)
    · have := (objectLayout_bounds p floor).1
      simp only [Slot.stop] at high
      omega
    · have := h.behind _ both _ mem'
      omega
    · have apart := (List.pairwise_append.1 h.standing.apart).2.2 _ hq _ (h.staged_place mem')
      simp only [Holding.Apart, Location.Apart] at apart
      simp only [Slot.stop] at high low
      have size : Ty.size .vec4 = 16 := rfl
      omega
  · cases region

end Program.Lowered

namespace CompiledFunction.Written

variable {p : Program} {s : Shader} {u : LoweringState} {f : CompiledFunction} {d : Declarations} {g : FunctionId}
  {body : List Statement} {s' v t : LoweringState} {floor : Nat}

/-- **What a function may write in the global region is not sealed**: its
variables, the slots that it saves registers in, and the scratch words of
divisions lie apart from constants and staging slots. -/
theorem not_sealed (h : f.Written (homesOf p.globals) (stagesOf p.globals) d g body s' v t) (lowered : p.Lowered s u)
    (precedes : t.Precedes u) (floor : Nat) {es : List LoweringEvent} (suffix : es <:+ v.transcript) {use : SlotUse}
    {slot : Slot} (uses : Shading.Uses v.declarations v.function v.constants v.divisionSlots es use slot)
    {assigned : SymbolId → Prop} (writable : use.Writable assigned)
    (region : slot.region = .global) (bound : slot.stop ≤ v.layout.sizeOf .global) {k : Nat} (low : slot.offset ≤ k)
    (high : k < slot.stop) : ¬ p.Sealed (p.objectLayout floor) k := by
  have suits := lowered.regime_suits floor body (fun _ => True) fun _ _ => trivial
  obtain ⟨fine, -⟩ := h.coded.complete _ suits
  have whole := h.coded.precedes.trans precedes
  obtain ⟨vars, o, tidy, -⟩ := h.coded.tidy
  have writable : use.Writable fun _ => True := by
    cases use <;> trivial
  -- Slots of the global region stay, so what holds of them at the end holds of them here.
  have last : v.Uses use slot := by
    cases uses with
    | symbol known isVariable visible place => exact .symbol known isVariable visible place
    | temporary live own =>
      rw [own] at region
      cases region
    | spill saved => exact .spill (Transcript.spills_of_suffix suffix saved)
    | division known one place => exact .division known one place
    | constant pooled => exact writable.elim
  have pooled {c : Constant × Nat} (hc : c ∈ p.constants.slots) :
      c.2 + c.1.size ≤ slot.offset ∨ slot.stop ≤ c.2 :=
    fine.apart_of_writable (lowered.constants_later whole) last writable region hc
  have bounds := Program.Lowered.objectLayout_bounds p floor
  have size := whole.globalSize
  have global := lowered.globalSize
  rintro (⟨code, -⟩ | ⟨mem, low', high'⟩ | ⟨mem, low', high'⟩)
  · simp only [Layout.sizeOf] at bound
    omega
  · have := pooled mem
    omega
  · rename_i staged
    have place := lowered.staged_place mem
    cases last with
    | symbol known isVariable visible place' =>
      rcases fine.housed _ _ _ known isVariable visible place' with live | isGlobal
      · rw [(fine.live _ live).1] at region
        cases region
      · exact lowered.not_sealed_of_global floor isGlobal low high (.staging mem low' high')
    | temporary live own =>
      rw [own] at region
      cases region
    | spill saved =>
      have apart := tidy.spills _ saved _ (List.mem_append_right _ place) _ rfl region
      simp only [Slot.stop] at apart high
      have size : Ty.size .vec4 = 16 := rfl
      omega
    | division known one place' =>
      obtain ⟨x, rfl, -⟩ := fine.ok.division _ known
      have here := DivisionSlots.within_at one place'
      have kept := (tidy.kept (.vec4, .globalMemory staged.staging) (by simp [holdings, place])).2 x known
      have size : Ty.size .vec4 = 16 := rfl
      simp only at kept
      omega
    | constant pooled => exact writable.elim

/-- **Every operand at a known offset keeps to a slot** that there is where
its instruction was emitted. -/
theorem keeps_to_slot (h : f.Written (homesOf p.globals) (stagesOf p.globals) d g body s' v t) (lowered : p.Lowered s u)
    (precedes : t.Precedes u) {i : Instruction Nat} {l : Layout} {es : List LoweringEvent}
    (suffix : (.emitted i l :: es) <:+ v.transcript) {r : Region} {offset : Nat} (place : i.rm.place? = some (r, offset)) :
    ∃ use slot, p.KeepsTo (Shading.Uses v.declarations (some g) p.constants v.divisionSlots es)
      (· ∈ Statement.allAssigned body) i r offset use slot := by
  have suits := lowered.regime_suits 0 body (· ∈ Statement.allAssigned body) fun _ h => h
  obtain ⟨fine, -⟩ := h.coded.complete _ suits
  obtain ⟨use, slot, uses, holds, stop, writable⟩ := (fine.allowed es i l suffix).slot r offset place
  obtain ⟨vars, o, tidy, -⟩ := h.coded.tidy
  have whole := h.coded.precedes.trans precedes
  have handed := Nat.le_trans stop ((tidy.emissions es i l suffix).2 r)
  refine ⟨use, slot, ?_, holds, ?_, writable, ?_⟩
  · refine (h.coded.function ▸ uses).mono (fun c hc => ?_) fun _ known => known
    obtain ⟨added, eq, -⟩ := whole.constants
    rw [lowered.constants, eq]
    exact List.mem_append_left _ hc
  · have global := whole.globalSize
    have localSize := whole.localSize
    rw [← lowered.globalSize] at global
    rw [← lowered.localSize] at localSize
    cases r with
    | global => exact Nat.le_trans handed global
    | «local» => exact Nat.le_trans handed localSize
  · rintro writes rfl floor k low high
    exact h.not_sealed lowered precedes floor ((List.suffix_cons _ _).trans suffix) uses (writable writes) holds.1
      handed low high

/-- **The code of a function keeps to the slots** there are in its course. -/
theorem keepsToSlots (h : f.Written (homesOf p.globals) (stagesOf p.globals) d g body s' v t) (lowered : p.Lowered s u)
    (precedes : t.Precedes u) : f.KeepsToSlots p g body t := by
  obtain ⟨vars, o, -, -, -, -, transcript⟩ := h.coded.tidy
  obtain ⟨fine, -⟩ := h.coded.complete _ (Lower.idle_suits h.standing body)
  refine ⟨?_, fun es i l suffix r offset place => ?_⟩
  · rw [h.assembly, fine.instructions, transcript]
    rfl
  · rw [transcript] at suffix
    rw [h.coded.declarations, h.coded.division]
    rcases List.suffix_cons_iff.1 suffix with same | suffix
    · cases same
    · exact h.keeps_to_slot lowered precedes suffix place

/-- **An instruction of a function leaves alone what is sealed**, in a machine
whose access through an address register stays inside a container. -/
theorem spares (h : f.Written (homesOf p.globals) (stagesOf p.globals) d g body s' v t) (lowered : p.Lowered s u)
    (precedes : t.Precedes u) (small : (p.objectLayout floor).localOffset + (p.objectLayout floor).localSize ≤ 2 ^ 32)
    {i : Instruction Nat} {text : String} (mem : .instruction i text ∈ f.assembly.entries) {m m' : Machine}
    (grounds : (p.objectLayout floor).Grounds m) (shelters : p.Shelters (p.objectLayout floor) m i)
    {rsqrt : Word → Word} (run : m.perform rsqrt i = .ok m') {k : Nat} (sealed : p.Sealed (p.objectLayout floor) k) :
    m'.block.get k = m.block.get k := by
  have suits := lowered.regime_suits floor body (fun _ => True) fun _ _ => trivial
  obtain ⟨es, l, suffix, allowed, sizes⟩ := h.allowed mem suits
  have whole := h.coded.precedes.trans precedes
  have bounds := Program.Lowered.objectLayout_bounds p floor
  -- All that is sealed lies in front of the local region, so a write is told by where
  -- in the global region it goes.
  have sealedBelow : k < (p.objectLayout floor).localOffset := by
    rcases sealed with ⟨-, high⟩ | ⟨hc, -, high⟩ | ⟨hg, -, high⟩
    · exact high
    · have := lowered.constants_inside _ hc
      omega
    · have := lowered.staged_inside _ hg
      omega
  refine (Machine.execute_frames run).bytes _ ?_
  rintro ⟨writes, x, address, at_⟩
  have address : m.operandAddress? i = some x := address
  have writes : i.opcode.writesOperand = true := writes
  have access : i.opcode.reach ≠ 0 := by
    intro none
    revert writes none
    cases i.opcode <;> simp [Opcode.writesOperand, Opcode.reach]
  have spans := Machine.execute_spans run address access
  obtain ⟨low, high⟩ := at_
  have high : m.base + k < x + i.opcode.reach := high
  -- An operand in a register writes no memory, one behind an address is sheltered, and
  -- any other one lies in a slot that the layout gave out.
  rcases i.rm.cases_place with ⟨id, rm⟩ | ⟨id, rm⟩ | ⟨r, offset, place⟩
  · rw [Machine.operandAddress?_register rm] at address
    cases address
  · rw [Machine.operandAddress?_indirect rm] at address
    obtain rfl := Option.some.inj address
    obtain ⟨first, eq, ⟨global, mem', offset, home, from_, to_⟩ | ⟨from_, -⟩⟩ := shelters id rm access
    · have slot : (⟨.global, offset, global.ty.size⟩ : Slot) ∈ slotsOf (homesOf p.globals) :=
        mem_slotsOf.2 ⟨_, List.mem_map_of_mem mem', by rw [GlobalSlot.home, home]; rfl⟩
      exact lowered.not_sealed_of_global floor slot (show offset ≤ k by omega)
        (show k < offset + global.ty.size by omega) sealed
    · omega
  · obtain ⟨use, slot, uses, ⟨region, start, stop⟩, size, writable⟩ := allowed.slot r offset place
    have bound := Nat.le_trans size (sizes r)
    have regime : offset + i.opcode.reach ≤ Regime.sizeOf
        { p.regime (p.objectLayout floor) (fun _ => True) with base := m.base, size := m.block.size } r := by
      have global := whole.globalSize
      have localSize := whole.localSize
      rw [← lowered.globalSize] at global
      rw [← lowered.localSize] at localSize
      cases r <;> simp only [Layout.sizeOf, Regime.sizeOf, Program.regime] at bound ⊢ <;> omega
    obtain rfl := operandAddress_eq
      (R := { p.regime (p.objectLayout floor) (fun _ => True) with base := m.base, size := m.block.size })
      (Nat.le_trans bounds.1 (Nat.le_trans (Nat.le_add_right _ _) bounds.2.1))
      ⟨grounds.inside, small, grounds.whole⟩ ⟨rfl, rfl, grounds.localBase⟩
      place regime (Nat.pos_of_ne_zero access) address spans
    cases r with
    | «local» =>
      simp only [Regime.offsetOf, Program.regime] at low
      omega
    | global =>
      simp only [Regime.offsetOf] at low high
      refine h.not_sealed lowered precedes floor ((List.suffix_cons _ _).trans suffix) uses (writable writes) region
        bound ?_ ?_ sealed <;> omega

end CompiledFunction.Written

end Shading
