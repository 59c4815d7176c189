import Shading.Proofs.Discipline.Program
import Shading.Proofs.Object.Layout

/-!
# Building an object

A program that was lowered has code that can be linked
(`CompiledFunction.Linkable`): its instructions can be told from their
bytes, its jumps hold the distances to their marks, and its references
lead into the global region. So an object of less than two gigabytes is
built without error, and its block holds the constants, the trampoline and
the functions in their places and zeros elsewhere (`Object.Built`).
-/

namespace Shading

open LoweringState Regime

/-! ## Linkable code -/

/-- **Code that can be linked**, where the global region has a certain
size. -/
structure CompiledFunction.Linkable (globalSize : Nat) (f : CompiledFunction) : Prop where
  entries : ∃ rest, f.assembly.entries = .call "trampoline" :: rest ∧ ∀ e ∈ rest, e.Readable
  call : f.trampolineCall = 1
  near : ∀ i text target, .instruction i text ∈ f.assembly.entries → i.rm = .globalAt target →
    target ≤ globalSize
  sound : f.assembly.Sound
  /-- Each jump has its mark. -/
  bound : ∀ l, (∃ e ∈ f.assembly.entries, e.jump? = some l) → ∃ e ∈ f.assembly.entries, e.mark? = some l

/-- **What a lowering may emit can be told from its bytes.** -/
theorem Instruction.Allowed.encodable {uses : SlotUse → Slot → Prop} {assigned : SymbolId → Prop} {l : Layout}
    {i : Instruction Nat} (h : i.Allowed uses assigned l) (small : l.sizeOf .local < 2 ^ 32) :
    i.Encodable = true := by
  have rm : i.rm.Encodable = true := by
    cases eq : i.rm with
    | register id => simpa [Operand.Encodable] using h.register id eq
    | globalAt o => rfl
    | localAt o =>
      obtain ⟨use, slot, -, ⟨-, -, holds⟩, stop, -⟩ := h.slot .local o (by rw [eq]; rfl)
      simp only [Operand.Encodable, decide_eq_true_eq]
      omega
    | indirect id =>
      have pool := h.address id eq
      simp only [RegisterClass.pool, List.mem_cons, List.not_mem_nil, or_false] at pool
      rcases pool with rfl | rfl | rfl | rfl <;> rfl
  simp [Instruction.Encodable, h.reg, rm, h.immediate]

namespace CompiledFunction.Written

variable {f : CompiledFunction} {globals staging : List Holding} {d : Declarations} {g : FunctionId}
  {body : List Statement} {s v t : LoweringState}

/-- **Each instruction of a function is one that a lowering may emit**, under
a layout that is within that of the end. -/
theorem allowed (h : f.Written globals staging d g body s v t) {i : Instruction Nat} {text : String}
    (mem : .instruction i text ∈ f.assembly.entries) {R : Regime} (suits : R.Suits globals body) :
    ∃ es l, (.emitted i l :: es) <:+ v.transcript ∧
      i.Allowed (Shading.Uses v.declarations v.function v.constants v.divisionSlots es) R.assigned l ∧
      ∀ r, l.sizeOf r ≤ v.layout.sizeOf r := by
  obtain ⟨fine, -⟩ := h.coded.complete R suits
  rw [h.assembly] at mem
  have emitted : i ∈ Transcript.emitted v.transcript := by
    rw [← fine.instructions]
    exact List.mem_filterMap.2 ⟨_, mem, rfl⟩
  obtain ⟨es, l, suffix⟩ := Transcript.exists_suffix_of_mem_emitted emitted
  obtain ⟨vars, o, tidy, -⟩ := h.coded.tidy
  exact ⟨es, l, suffix, fine.allowed es i l suffix, (tidy.emissions es i l suffix).2⟩

/-- **The code of a function can be linked.** -/
theorem linkable (h : f.Written globals staging d g body s v t) {globalSize localSize : Nat}
    (global : v.layout.globalSize ≤ globalSize) (high : v.layout.localSize ≤ localSize)
    (small : localSize < 2 ^ 32) : f.Linkable globalSize := by
  have suits := Lower.idle_suits h.standing body
  obtain ⟨fine, bound⟩ := h.coded.complete _ suits
  have sound : f.assembly.Sound := h.assembly ▸ fine.ok.assembly
  have bound : ∀ l, (∃ e ∈ f.assembly.entries, e.jump? = some l) → ∃ e ∈ f.assembly.entries, e.mark? = some l := by
    rw [h.assembly]
    exact bound
  obtain ⟨es, eq⟩ := h.coded.entries
  obtain ⟨rest, start, ordinary⟩ := fine.entries
  have start : v.assembly.entries = .call "trampoline" :: rest := by
    refine start.resolve_left fun same => ?_
    have first := ordinary (.call "trampoline") (by rw [← same, eq]; simp)
    cases first
  rw [← h.assembly] at start
  refine ⟨⟨rest, start, fun e he => ?_⟩, h.call, fun i text target mem rm => ?_, sound, bound⟩
  · have whole : e ∈ f.assembly.entries := start ▸ List.mem_cons_of_mem _ he
    have plain := ordinary e he
    cases e with
    | instruction i text =>
      obtain ⟨es, l, -, allowed, sizes⟩ := h.allowed whole suits
      exact allowed.encodable (Nat.lt_of_le_of_lt (Nat.le_trans (sizes .local) high) small)
    | raw bytes text => cases plain
    | call target => cases plain
    | jump form l distance =>
      obtain ⟨m, hm, marked⟩ := bound l ⟨_, whole, rfl⟩
      obtain ⟨i, hi⟩ := List.getElem?_of_mem whole
      obtain ⟨j, hj⟩ := List.getElem?_of_mem hm
      rw [CodeEntry.mark?_eq_some.1 marked] at hj
      exact (sound.linked i j form l distance hi hj).2.2
    | _ => trivial
  · obtain ⟨es, l, -, allowed, sizes⟩ := h.allowed mem suits
    obtain ⟨use, slot, -, ⟨-, -, holds⟩, stop, -⟩ := allowed.slot .global target (by rw [rm]; rfl)
    have size := sizes .global
    simp only [Layout.sizeOf] at size stop
    omega

end CompiledFunction.Written

/-! ## Pieces of an object -/

/-- **The bytes of a function at an offset of the object.** -/
def CompiledFunction.linkedBytes (f : CompiledFunction) (offset trampolineOffset : Nat) : List UInt8 :=
  0xE8 :: wordBytes (displacement (offset + 5) trampolineOffset) ++
    Assembly.linkedCode (offset + 5) f.assembly.entries.tail

namespace CompiledFunction.Linkable

variable {f : CompiledFunction} {globalSize : Nat}

theorem length_linkedBytes (h : f.Linkable globalSize) (offset trampolineOffset : Nat) :
    (f.linkedBytes offset trampolineOffset).length = f.assembly.size := by
  obtain ⟨rest, eq, -⟩ := h.entries
  simp [linkedBytes, Assembly.size, eq, wordBytes, CodeEntry.size, CodeEntry.bytes]
  omega

/-- **A function is linked** just when its displacements hold their distances,
that of the call of the trampoline included. -/
theorem functionBytes_eq_ok (h : f.Linkable globalSize) {offset trampolineOffset : Nat} {bytes : List UInt8} :
    Object.functionBytes f offset trampolineOffset = .ok bytes ↔
      Assembly.Reaching (offset + 5) f.assembly.entries.tail ∧
        fitsSigned 32 ((trampolineOffset : Int) - (offset + 5 : Nat)) = true ∧
        bytes = f.linkedBytes offset trampolineOffset := by
  obtain ⟨rest, eq, -⟩ := h.entries
  have relocations : f.assembly.relocations = Assembly.relocationsFrom (0xE8 :: wordBytes 0).length rest := by
    rw [Assembly.relocations, eq]
    rfl
  have code : f.assembly.code = (0xE8 :: wordBytes 0) ++ rest.flatMap CodeEntry.bytes ++ [] := by
    rw [Assembly.code, eq, List.append_nil]
    rfl
  have patched : overwrite ((0xE8 :: wordBytes 0) ++ Assembly.linkedCode (offset + 5) rest ++ []) 1
      (wordBytes (displacement (offset + 5) trampolineOffset)) = f.linkedBytes offset trampolineOffset := by
    have same : (wordBytes 0).length = (wordBytes (displacement (offset + 5) trampolineOffset)).length := by
      simp [wordBytes]
    have := overwrite_append [0xE8] (Assembly.linkedCode (offset + 5) rest) same
    rw [List.append_nil, linkedBytes, eq]
    exact this
  rw [Object.functionBytes, relocations, code, h.call, eq, List.tail_cons]
  simp only [except_bind_eq_ok, Assembly.applyRelocations_eq_ok]
  constructor
  · rintro ⟨_, ⟨reaching, rfl⟩, run⟩
    split at run
    · next fits =>
      cases run
      exact ⟨reaching, fits, patched⟩
    · cases run
  · rintro ⟨reaching, fits, rfl⟩
    refine ⟨_, ⟨reaching, rfl⟩, ?_⟩
    change (if fitsSigned 32 ((trampolineOffset : Int) - (offset + 5 : Nat)) = true then _ else _) = _
    rw [if_pos fits]
    exact congrArg Except.ok patched

/-- **A function is linked** without error below two gigabytes. -/
theorem functionBytes_eq (h : f.Linkable globalSize) {offset trampolineOffset : Nat}
    (small : globalSize < 2 ^ 31) (inside : offset + f.assembly.size < 2 ^ 31) (before : trampolineOffset < 2 ^ 31) :
    Object.functionBytes f offset trampolineOffset = .ok (f.linkedBytes offset trampolineOffset) := by
  obtain ⟨rest, eq, -⟩ := h.entries
  have size : f.assembly.size = 5 + Assembly.sizeOf rest := by
    rw [Assembly.size, eq, Assembly.sizeOf_cons]
    rfl
  have near : Assembly.Near rest := fun i text target mem rm =>
    Nat.lt_of_le_of_lt (h.near i text target (eq ▸ List.mem_cons_of_mem _ mem) rm) small
  refine h.functionBytes_eq_ok.2 ⟨?_, fitsSigned_distance (by omega) before, rfl⟩
  rw [eq, List.tail_cons]
  exact Assembly.reaching_of_near near (by omega)

end CompiledFunction.Linkable

/-- The entries of a trampoline are as long as foreseen. -/
theorem sizeOf_trampolineEntries {staged : List StagedGlobal} (sound : ∀ g ∈ staged, g.Sound) (localOffset : Nat) :
    Assembly.sizeOf (trampolineEntries staged localOffset) = trampolineSize staged := by
  rw [← trampoline_entries false]
  exact trampoline_size false sound localOffset

/-- **A trampoline is linked** just when its displacements hold their
distances. -/
theorem trampolineBytes_eq_ok {staged : List StagedGlobal} (sound : ∀ g ∈ staged, g.Sound) {keepListing : Bool}
    {localOffset offset : Nat} {bytes : List UInt8} :
    Object.trampolineBytes (trampoline keepListing staged localOffset) offset (trampolineSize staged) = .ok bytes ↔
      Assembly.Reaching offset (trampolineEntries staged localOffset) ∧
        bytes = Assembly.linkedCode offset (trampolineEntries staged localOffset) := by
  have linked {out : List UInt8} : applyRelocations offset (trampoline keepListing staged localOffset).relocations
        (trampoline keepListing staged localOffset).code = .ok out ↔
      Assembly.Reaching offset (trampolineEntries staged localOffset) ∧
        out = Assembly.linkedCode offset (trampolineEntries staged localOffset) := by
    simpa [Assembly.relocations, Assembly.code, trampoline_entries] using
      @Assembly.applyRelocations_eq_ok offset (trampolineEntries staged localOffset) [] [] out
  have length : (Assembly.linkedCode offset (trampolineEntries staged localOffset)).length = trampolineSize staged := by
    rw [Assembly.length_linkedCode, sizeOf_trampolineEntries sound]
  simp only [Object.trampolineBytes, except_bind_eq_ok, linked]
  constructor
  · rintro ⟨_, ⟨reaching, rfl⟩, run⟩
    rw [if_pos length] at run
    cases run
    exact ⟨reaching, rfl⟩
  · rintro ⟨reaching, rfl⟩
    exact ⟨_, ⟨reaching, rfl⟩, if_pos length⟩

/-- **The pieces that an object is written from.** -/
def Program.pieces (p : Program) (l : ObjectLayout) : List Piece :=
  p.constants.slots.map (fun c => (c.2, c.1.bytes)) ++
    ((l.trampolineOffset, Assembly.linkedCode l.trampolineOffset (trampolineEntries p.staged l.localOffset)) ::
      (p.functions.zip l.functionOffsets).map fun x => (x.2, x.1.linkedBytes x.2 l.trampolineOffset))

/-- The global of a slot, in an object. -/
def GlobalSlot.toObject (g : GlobalSlot) : ObjectGlobal :=
  match g.location, g.staging with
  | .globalMemory offset, _ => ⟨g.name, g.ty, .memory offset, offset, g.intrinsic⟩
  | _, some (.globalMemory staging) => ⟨g.name, g.ty, .register, staging, g.intrinsic⟩
  | _, _ => ⟨g.name, g.ty, .register, 0, g.intrinsic⟩

theorem GlobalSlot.Placed.globalOfSlot_eq {g : GlobalSlot} (h : g.Placed) :
    Object.globalOfSlot g = .ok g.toObject := by
  cases h with
  | memory offset home staging => rw [Object.globalOfSlot, toObject, home]
  | register c id offset _ _ home staging =>
    rw [Object.globalOfSlot, toObject, home, staging]
    cases c <;> rfl

/-- Writing constants is writing their pieces. -/
theorem Object.writeConstants_eq (b : Block) (pool : ConstantPool) : writeConstants b pool =
    (pool.slots.map fun c => ((c.2, c.1.bytes) : Piece)).foldlM (fun b q => b.write q.1 q.2) b := by
  rw [List.foldlM_map]
  rfl

/-- Writing functions is writing their pieces. -/
theorem Object.writeFunctions_eq {trampolineOffset : Nat} {bytes : CompiledFunction × Nat → List UInt8} :
    ∀ (placed : List (CompiledFunction × Nat)) (b : Block),
      (∀ x ∈ placed, functionBytes x.1 x.2 trampolineOffset = .ok (bytes x)) →
      writeFunctions b trampolineOffset placed =
        (placed.map fun x => ((x.2, bytes x) : Piece)).foldlM (fun b q => b.write q.1 q.2) b
  | [], b, _ => rfl
  | x :: placed, b, each => by
    have head := each x List.mem_cons_self
    rw [writeFunctions, head, List.map_cons, List.foldlM_cons]
    cases written : b.write x.2 (bytes x) with
    | error e => simp [written, bind, Except.bind]
    | ok b' =>
      simpa [written, bind, Except.bind] using
        writeFunctions_eq placed b' fun y hy => each y (List.mem_cons_of_mem _ hy)

theorem mapM_eq_ok {α β ε : Type} {f : α → Except ε β} {g : α → β} :
    ∀ {xs : List α}, (∀ x ∈ xs, f x = .ok (g x)) → xs.mapM f = .ok (xs.map g)
  | [], _ => rfl
  | x :: xs, h => by
    rw [List.mapM_cons, h x List.mem_cons_self, List.map_cons]
    simp [mapM_eq_ok fun y hy => h y (List.mem_cons_of_mem _ hy), bind, Except.bind, pure, Except.pure]

/-- **An object that a program was built into.** -/
structure Object.Built (o : Object) (p : Program) (l : ObjectLayout) : Prop where
  wrote : (Block.new (l.localOffset + l.localSize)).Wrote (p.pieces l) o.block
  functions : o.functions = (p.functions.zip l.functionOffsets).map fun x =>
    ⟨x.1.name, x.1.isExported, x.2, x.1.assembly.size, x.1.assembly.listing⟩
  globals : o.globals = p.globals.map GlobalSlot.toObject
  localOffset : o.localOffset = l.localOffset
  localSize : o.localSize = l.localSize
  constants : o.constants = p.constants

theorem Block.size_new (n : Nat) : n ≤ (Block.new n).size := by
  simp only [Block.new, pageSize]
  omega

namespace Program.Lowered

variable {p : Program} {s : Shader} {u : LoweringState}

/-- The globals that a trampoline loads are in registers of their pools. -/
theorem staged_sound (h : p.Lowered s u) : ∀ g ∈ p.staged, g.Sound := by
  intro g hg
  obtain ⟨slot, hslot, eq⟩ := List.mem_filterMap.1 hg
  obtain ⟨staging, found, rfl⟩ := Option.map_eq_some_iff.1 eq
  cases (h.each slot hslot).1 with
  | memory offset home none =>
    rw [none] at found
    cases found
  | register c id offset pool ofTy home staging aligned => exact ⟨c, id, pool, home⟩

/-- What is placed for globals is in the global region. -/
theorem places_inside (h : p.Lowered s u) {ty : Ty} {offset : Nat}
    (place : (ty, Location.globalMemory offset) ∈ homesOf p.globals ++ stagesOf p.globals) :
    offset + ty.size ≤ p.globalSize := by
  have kept := (h.standing.kept _ place).1.1
  have high := h.standing.settled.ok.layout.globalTop
  rw [h.globalSize]
  exact Nat.le_trans kept high

/-- A staging slot is in the global region. -/
theorem staged_inside (h : p.Lowered s u) : ∀ g ∈ p.staged, g.staging + 16 ≤ p.globalSize := by
  intro g hg
  obtain ⟨slot, hslot, eq⟩ := List.mem_filterMap.1 hg
  obtain ⟨staging, found, rfl⟩ := Option.map_eq_some_iff.1 eq
  cases (h.each slot hslot).1 with
  | memory offset home none =>
    rw [none] at found
    cases found
  | register c id offset pool ofTy home some aligned =>
    rw [some] at found
    cases found
    have stage : ((Ty.vec4, Location.globalMemory staging) : Holding) ∈ stagesOf p.globals :=
      List.mem_filterMap.2 ⟨slot, hslot, by rw [GlobalSlot.stage?, some]; rfl⟩
    exact h.places_inside (List.mem_append_right _ stage)

/-- **The code of each function can be linked.** -/
theorem linkable (h : p.Lowered s u) (small : p.localSize < 2 ^ 32) {f : CompiledFunction}
    (hf : f ∈ p.functions) : f.Linkable p.globalSize := by
  obtain ⟨g, w, body, s', v, t, -, -, written, precedes⟩ := h.functions f hf
  have whole := written.coded.precedes.trans precedes
  exact written.linkable (h.globalSize ▸ whole.globalSize) (h.localSize ▸ whole.localSize) small

/-- Constants lie in the global region, apart from each other. -/
theorem constants_inside (h : p.Lowered s u) : ∀ c ∈ p.constants.slots, c.2 + c.1.size ≤ p.globalSize := by
  intro c hc
  rw [h.constants] at hc
  rw [h.globalSize]
  exact Nat.le_trans (h.standing.settled.ok.pooled c hc).1 h.standing.settled.ok.layout.globalTop

variable {floor : Nat}

/-- **The pieces of an object lie apart**, each in front of the local
region. -/
theorem pieces_apart (h : p.Lowered s u) (floor : Nat) (small : p.localSize < 2 ^ 32) :
    (p.pieces (p.objectLayout floor)).Pairwise Piece.Apart ∧
      ∀ q ∈ p.pieces (p.objectLayout floor), q.stop ≤ (p.objectLayout floor).localOffset := by
  obtain ⟨ordered, -, -⟩ := p.objectLayout_ordered floor
  obtain ⟨first, rest⟩ := List.pairwise_cons.1 ordered
  obtain ⟨second, rest⟩ := List.pairwise_cons.1 rest
  obtain ⟨functions, -, last⟩ := List.pairwise_append.1 rest
  have trampoline : (Assembly.linkedCode (p.objectLayout floor).trampolineOffset
      (trampolineEntries p.staged (p.objectLayout floor).localOffset)).length = trampolineSize p.staged := by
    rw [Assembly.length_linkedCode, sizeOf_trampolineEntries h.staged_sound]
  have length (x : CompiledFunction × Nat) (hx : x ∈ p.functions.zip (p.objectLayout floor).functionOffsets) :
      (x.1.linkedBytes x.2 (p.objectLayout floor).trampolineOffset).length = x.1.assembly.size :=
    (h.linkable small (List.of_mem_zip hx).1).length_linkedBytes _ _
  -- The constants lie in the global region, which ends in front of the trampoline;
  -- behind it come the functions in their order.
  have start : p.globalSize ≤ (p.objectLayout floor).trampolineOffset := by
    simpa using first _ List.mem_cons_self
  have constant (c : Constant × Nat) (hc : c ∈ p.constants.slots) :
      c.2 + c.1.bytes.length ≤ p.globalSize := by
    rw [Constant.length_bytes]
    exact h.constants_inside c hc
  have function (x : CompiledFunction × Nat) (hx : x ∈ p.functions.zip (p.objectLayout floor).functionOffsets) :
      (p.objectLayout floor).trampolineOffset + trampolineSize p.staged ≤ x.2 :=
    second (x.2, x.1.assembly.size) (List.mem_append_left _ (List.mem_map_of_mem hx))
  have tail : (p.objectLayout floor).trampolineOffset + trampolineSize p.staged ≤
      (p.objectLayout floor).localOffset :=
    second ((p.objectLayout floor).localOffset, (p.objectLayout floor).localSize) (by simp)
  refine ⟨List.pairwise_append.2 ⟨List.pairwise_map.2 ?_, List.pairwise_cons.2 ⟨fun q hq => ?_,
    List.pairwise_map.2 ?_⟩, fun q hq r hr => ?_⟩, fun q hq => ?_⟩
  · rw [h.constants]
    refine h.standing.settled.ok.ascending.imp fun {a b} below => .inl ?_
    rw [Piece.stop, Constant.length_bytes]
    exact below
  · obtain ⟨x, hx, rfl⟩ := List.mem_map.1 hq
    refine .inl ?_
    rw [Piece.stop, trampoline]
    exact function x hx
  · refine List.Pairwise.imp_of_mem (fun {a b} ha hb below => .inl ?_) (List.pairwise_map.1 functions)
    rw [Piece.stop, length a ha]
    exact below
  · obtain ⟨c, hc, rfl⟩ := List.mem_map.1 hq
    refine .inl ?_
    have := constant c hc
    rw [Piece.stop]
    rcases List.mem_cons.1 hr with rfl | hr
    · exact Nat.le_trans this start
    · obtain ⟨x, hx, rfl⟩ := List.mem_map.1 hr
      have := function x hx
      simp only
      omega
  · rcases List.mem_append.1 hq with hq | hq
    · obtain ⟨c, hc, rfl⟩ := List.mem_map.1 hq
      have := constant c hc
      rw [Piece.stop]
      simp only
      omega
    · rcases List.mem_cons.1 hq with rfl | hq
      · rw [Piece.stop, trampoline]
        exact tail
      · obtain ⟨x, hx, rfl⟩ := List.mem_map.1 hq
        rw [Piece.stop, length x hx]
        exact last _ (List.mem_map_of_mem hx) _ (List.mem_singleton_self _)

/-- **A lowered program is built** if the object is below two gigabytes. -/
theorem built (h : p.Lowered s u)
    (main : p.functions.any (fun f => f.isExported && f.name == entryPoint) = true)
    (small : (p.objectLayout floor).localOffset + (p.objectLayout floor).localSize < 2 ^ 31) :
    ∃ o, Object.build p floor = .ok o ∧ o.Built p (p.objectLayout floor) := by
  have size : p.localSize ≤ (p.objectLayout floor).localSize :=
    Nat.le_trans (Nat.le_max_left _ _) (align16_bounds (max p.localSize floor)).1
  obtain ⟨apart, inside⟩ := h.pieces_apart floor (by omega)
  obtain ⟨ordered, -, -⟩ := p.objectLayout_ordered floor
  obtain ⟨first, rest⟩ := List.pairwise_cons.1 ordered
  obtain ⟨second, rest⟩ := List.pairwise_cons.1 rest
  have start : p.globalSize ≤ (p.objectLayout floor).trampolineOffset := by
    simpa using first _ List.mem_cons_self
  have tail : (p.objectLayout floor).trampolineOffset + trampolineSize p.staged ≤
      (p.objectLayout floor).localOffset :=
    second ((p.objectLayout floor).localOffset, (p.objectLayout floor).localSize) (by simp)
  generalize hl : p.objectLayout floor = l at *
  have fits (q : Piece) (hq : q ∈ p.pieces l) : q.stop ≤ (Block.new (l.localOffset + l.localSize)).size :=
    Nat.le_trans (inside q hq) (Nat.le_trans (Nat.le_add_right _ _) (Block.size_new _))
  -- The constants, the trampoline and the functions are written in this order.
  obtain ⟨apart₁, apart₂, across⟩ := List.pairwise_append.1 apart
  obtain ⟨b₁, constants, wrote₁⟩ := (Block.Wrote.nil (Block.new (l.localOffset + l.localSize))).all
    (fun q hq => fits q (List.mem_append_left _ hq)) (by rwa [List.nil_append])
  rw [List.nil_append] at wrote₁
  obtain ⟨b₂, trampoline_, wrote₂⟩ := wrote₁.write (fits _ (List.mem_append_right _ List.mem_cons_self))
    fun q hq => across q hq _ List.mem_cons_self
  obtain ⟨b₃, functions, wrote₃⟩ := wrote₂.all
    (fun q hq => fits q (List.mem_append_right _ (List.mem_cons_of_mem _ hq)))
    (by rw [List.append_assoc]; exact apart)
  rw [List.append_assoc] at wrote₃
  have staged := h.staged_sound
  have globals : p.globals.mapM Object.globalOfSlot = .ok (p.globals.map GlobalSlot.toObject) :=
    mapM_eq_ok fun g hg => (h.each g hg).1.globalOfSlot_eq
  have pieces : ∀ x ∈ p.functions.zip l.functionOffsets,
      Object.functionBytes x.1 x.2 l.trampolineOffset = .ok (x.1.linkedBytes x.2 l.trampolineOffset) := by
    intro x hx
    have linkable := h.linkable (by omega) (List.of_mem_zip hx).1
    have stop := inside (x.2, x.1.linkedBytes x.2 l.trampolineOffset)
      (List.mem_append_right _ (List.mem_cons_of_mem _ (List.mem_map.2 ⟨x, hx, rfl⟩)))
    rw [Piece.stop, linkable.length_linkedBytes] at stop
    exact linkable.functionBytes_eq (by omega) (by omega) (by omega)
  have near (keepListing : Bool) : Object.trampolineBytes (trampoline keepListing p.staged l.localOffset)
      l.trampolineOffset (trampolineSize p.staged) =
        .ok (Assembly.linkedCode l.trampolineOffset (trampolineEntries p.staged l.localOffset)) := by
    have length := sizeOf_trampolineEntries staged l.localOffset
    refine (trampolineBytes_eq_ok staged).2 ⟨Assembly.reaching_of_near (fun i text target mem rm => ?_) (by omega), rfl⟩
    rcases List.mem_append.1 mem with load | last
    · obtain ⟨g, hg, entry⟩ := List.mem_filterMap.1 load
      obtain ⟨c, id, text', -, -, entry', -⟩ := (staged g hg).entry
      rw [entry'] at entry
      cases entry
      cases rm
      have := h.staged_inside g hg
      omega
    · simp only [List.mem_cons, CodeEntry.instruction.injEq, List.not_mem_nil, or_false, reduceCtorEq] at last
      obtain ⟨rfl, -⟩ := last
      cases rm
      omega
  have written : Object.writeFunctions b₂ l.trampolineOffset (p.functions.zip l.functionOffsets) = .ok b₃ :=
    (Object.writeFunctions_eq _ b₂ pieces).trans functions
  have pooled : Object.writeConstants (.new (l.localOffset + l.localSize)) p.constants = .ok b₁ :=
    (Object.writeConstants_eq _ _).trans constants
  apply Exists.intro
  apply And.intro
  · rw [Object.build, if_pos main, hl]
    simp only [pooled, bind, Except.bind, near, trampoline_, written, globals]
    rw [if_neg (by omega)]
    rfl
  · exact ⟨wrote₃, rfl, rfl, rfl, rfl, rfl⟩

end Program.Lowered

end Shading
