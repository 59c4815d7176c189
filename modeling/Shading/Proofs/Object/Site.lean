import Shading.Proofs.Machine.Forward
import Shading.Proofs.Object.Image
import Shading.Proofs.Object.Sealed

/-!
# Code in its place

An object that was built has its code in its block, and every displacement
in it holds its distance (`Program.Lowered.built_of_build`), however large
the object is. So the trampoline and a function lead forward where they
stand, and their instructions keep to what they may change
(`Program.Site`). The block of an object keeps its code while what is sealed
stays (`Program.Deployed`).
-/

namespace Shading

open LoweringState Regime

/-! ## Objects that were built -/

/-- **The displacements of an object hold their distances**: those of the
trampoline, those of each function, and those of the calls of the
trampoline. -/
structure Program.Resolved (p : Program) (l : ObjectLayout) : Prop where
  trampoline : Assembly.Reaching l.trampolineOffset (trampolineEntries p.staged l.localOffset)
  functions : ∀ x ∈ p.functions.zip l.functionOffsets, Assembly.Reaching (x.2 + 5) x.1.assembly.entries.tail
  calls : ∀ x ∈ p.functions.zip l.functionOffsets,
    fitsSigned 32 ((l.trampolineOffset : Int) - (x.2 + 5 : Nat)) = true

/-- Functions that were written were linked. -/
theorem Object.functionBytes_of_writeFunctions {trampolineOffset : Nat} :
    ∀ {placed : List (CompiledFunction × Nat)} {b b' : Block}, writeFunctions b trampolineOffset placed = .ok b' →
      ∀ x ∈ placed, ∃ bytes, functionBytes x.1 x.2 trampolineOffset = .ok bytes
  | [], _, _, _, _, hx => by cases hx
  | y :: placed, b, b', run, x, hx => by
    obtain ⟨bytes, linked, run⟩ := except_bind_eq_ok.1 run
    obtain ⟨b₁, -, rest⟩ := except_bind_eq_ok.1 run
    rcases List.mem_cons.1 hx with rfl | hx
    · exact ⟨bytes, linked⟩
    · exact functionBytes_of_writeFunctions rest x hx

/-- An object has an entry point. -/
theorem Object.main_of_build {p : Program} {floor : Nat} {o : Object} (run : build p floor = .ok o) :
    p.functions.any (fun f => f.isExported && f.name == entryPoint) = true := by
  unfold build at run
  split at run
  · assumption
  · cases run

/-- **An object that was built** has the pieces of its program in their
places, whatever its size, and its displacements hold their distances. -/
theorem Program.Lowered.built_of_build {p : Program} {s : Shader} {u : LoweringState} {floor : Nat} {o : Object}
    (h : p.Lowered s u) (run : Object.build p floor = .ok o) (small : p.localSize < 2 ^ 32) :
    o.Built p (p.objectLayout floor) ∧ p.Resolved (p.objectLayout floor) := by
  obtain ⟨apart, inside⟩ := h.pieces_apart floor small
  unfold Object.build at run
  generalize p.objectLayout floor = l at *
  have fits (q : Piece) (hq : q ∈ p.pieces l) : q.stop ≤ (Block.new (l.localOffset + l.localSize)).size :=
    Nat.le_trans (inside q hq) (Nat.le_trans (Nat.le_add_right _ _) (Block.size_new _))
  split at run
  case isFalse => cases run
  obtain ⟨b₁, constants, run⟩ := except_bind_eq_ok.1 run
  split at run
  case isTrue => cases run
  obtain ⟨bytes, trampoline, run⟩ := except_bind_eq_ok.1 run
  obtain ⟨b₂, second, run⟩ := except_bind_eq_ok.1 run
  obtain ⟨b₃, functions, run⟩ := except_bind_eq_ok.1 run
  obtain ⟨globals, found, run⟩ := except_bind_eq_ok.1 run
  cases run
  obtain ⟨reaching, rfl⟩ := (trampolineBytes_eq_ok h.staged_sound).1 trampoline
  have linked (x : CompiledFunction × Nat) (hx : x ∈ p.functions.zip l.functionOffsets) :
      Object.functionBytes x.1 x.2 l.trampolineOffset = .ok (x.1.linkedBytes x.2 l.trampolineOffset) ∧
        Assembly.Reaching (x.2 + 5) x.1.assembly.entries.tail ∧
        fitsSigned 32 ((l.trampolineOffset : Int) - (x.2 + 5 : Nat)) = true := by
    have linkable := h.linkable small (List.of_mem_zip hx).1
    obtain ⟨bytes, eq⟩ := Object.functionBytes_of_writeFunctions functions x hx
    obtain ⟨reaching, near, rfl⟩ := linkable.functionBytes_eq_ok.1 eq
    exact ⟨eq, reaching, near⟩
  -- The constants, the trampoline and the functions were written in this order.
  obtain ⟨apart₁, apart₂, across⟩ := List.pairwise_append.1 apart
  obtain ⟨b, eq, wrote⟩ := (Block.Wrote.nil (Block.new (l.localOffset + l.localSize))).all
    (fun q hq => fits q (List.mem_append_left _ hq)) (by rwa [List.nil_append])
  obtain rfl : b = b₁ := Except.ok.inj (eq.symm.trans ((Object.writeConstants_eq _ _).symm.trans constants))
  rw [List.nil_append] at wrote
  obtain ⟨b, eq, wrote⟩ := wrote.write (fits _ (List.mem_append_right _ List.mem_cons_self))
    fun q hq => across q hq _ List.mem_cons_self
  obtain rfl : b = b₂ := Except.ok.inj (eq.symm.trans second)
  obtain ⟨b, eq, wrote⟩ := wrote.all
    (fun q hq => fits q (List.mem_append_right _ (List.mem_cons_of_mem _ hq)))
    (by rw [List.append_assoc]; exact apart)
  obtain rfl : b = b₃ := Except.ok.inj (eq.symm.trans
    ((Object.writeFunctions_eq _ _ fun x hx => (linked x hx).1).symm.trans functions))
  rw [List.append_assoc] at wrote
  have objects : globals = p.globals.map GlobalSlot.toObject := by
    rw [mapM_eq_ok fun g hg => (h.each g hg).1.globalOfSlot_eq] at found
    exact (Except.ok.inj found).symm
  exact ⟨⟨wrote, rfl, objects, rfl, rfl, rfl⟩,
    ⟨reaching, fun x hx => (linked x hx).2.1, fun x hx => (linked x hx).2.2⟩⟩

/-! ## Code that may run -/

/-- **A function of a program in its place**, and the trampoline. -/
structure Program.Site (p : Program) (l : ObjectLayout) (f : CompiledFunction) (entry : Nat) : Prop where
  trampoline : Assembly.Forward (trampolineEntries p.staged l.localOffset)
  loads : Assembly.Reaching l.trampolineOffset (trampolineEntries p.staged l.localOffset)
  body : Assembly.Forward f.assembly.entries.tail
  reaching : Assembly.Reaching (entry + 5) f.assembly.entries.tail
  near : fitsSigned 32 ((l.trampolineOffset : Int) - (entry + 5 : Nat)) = true
  behind : l.trampolineOffset + Assembly.sizeOf (trampolineEntries p.staged l.localOffset) ≤ entry
  stop : entry + 5 + Assembly.sizeOf f.assembly.entries.tail ≤ l.localOffset
  staged : ∀ g ∈ p.staged, g.Sound ∧ g.staging + 16 ≤ l.trampolineOffset
  /-- The globals are in different registers. -/
  distinct : p.staged.Pairwise fun g h => g.location ≠ h.location
  spares : ∀ i text, .instruction i text ∈ f.assembly.entries.tail → ∀ (m m' : Machine) rsqrt, l.Grounds m →
    p.Shelters l m i → m.perform rsqrt i = .ok m' → ∀ k, p.Sealed l k → m'.block.get k = m.block.get k
  localBase : ∀ i text, .instruction i text ∈ f.assembly.entries.tail → ∀ (m m' : Machine) rsqrt,
    m.perform rsqrt i = .ok m' → m'.general64 localBaseRegister = m.general64 localBaseRegister
  faults : ∀ i text, .instruction i text ∈ f.assembly.entries.tail → ∀ (m : Machine) rsqrt (e : Fault),
    m.perform rsqrt i = .error e → e.OfData

namespace CompiledFunction.Linkable

variable {f : CompiledFunction} {globalSize : Nat}

/-- The size of a function is that of the call and of the body. -/
theorem size_eq (h : f.Linkable globalSize) : f.assembly.size = 5 + Assembly.sizeOf f.assembly.entries.tail := by
  obtain ⟨rest, eq, -⟩ := h.entries
  rw [Assembly.size, eq, Assembly.sizeOf_cons]
  rfl

/-- **The body of a function leads forward**, if it ends with a return. -/
theorem forward (h : f.Linkable globalSize) (returns : ∃ es, f.assembly.entries = .call "trampoline" :: es ++ [.ret]) :
    Assembly.Forward f.assembly.entries.tail := by
  obtain ⟨rest, eq, readable⟩ := h.entries
  obtain ⟨es, whole⟩ := returns
  have tail : f.assembly.entries.tail = rest := by rw [eq, List.tail_cons]
  have start (k : Nat) : Assembly.startOf f.assembly.entries (k + 1) = 5 + Assembly.startOf rest k := by
    rw [eq, Assembly.startOf, List.take_succ_cons, Assembly.sizeOf_cons]
    rfl
  have index (k : Nat) : f.assembly.entries[k + 1]? = rest[k]? := by rw [eq, List.getElem?_cons_succ]
  rw [tail]
  refine ⟨readable, fun k form l d here => ?_, es, ?_⟩
  · have mem : CodeEntry.jump form l d ∈ f.assembly.entries :=
      List.mem_of_getElem? ((index k).trans here)
    obtain ⟨e, he, marked⟩ := h.bound l ⟨_, mem, rfl⟩
    obtain ⟨j, hj⟩ := List.getElem?_of_mem he
    rw [CodeEntry.mark?_eq_some.1 marked] at hj
    obtain ⟨ahead, distance, -⟩ := h.sound.linked (k + 1) j form l d ((index k).trans here) hj
    obtain ⟨j, rfl⟩ : ∃ i, j = i + 1 := ⟨j - 1, by omega⟩
    rw [start, start (k + 1)] at distance
    exact ⟨j, by omega, (index j).symm.trans hj, by omega⟩
  · rw [← tail, whole]
    rfl

end CompiledFunction.Linkable

namespace Program.Lowered

variable {p : Program} {s : Shader} {u : LoweringState} {floor : Nat} {f : CompiledFunction} {entry : Nat}
  {o : Object}

/-- A function stands between the trampoline and the local region. -/
theorem function_bounds (p : Program) (floor : Nat)
    (mem : (f, entry) ∈ p.functions.zip (p.objectLayout floor).functionOffsets) :
    (p.objectLayout floor).trampolineOffset + trampolineSize p.staged ≤ entry ∧
      entry + f.assembly.size ≤ (p.objectLayout floor).localOffset := by
  obtain ⟨ordered, -, -⟩ := p.objectLayout_ordered floor
  obtain ⟨-, rest⟩ := List.pairwise_cons.1 ordered
  obtain ⟨second, rest⟩ := List.pairwise_cons.1 rest
  obtain ⟨-, -, last⟩ := List.pairwise_append.1 rest
  have part : (entry, f.assembly.size) ∈
      (p.functions.zip (p.objectLayout floor).functionOffsets).map fun x => (x.2, x.1.assembly.size) :=
    List.mem_map.2 ⟨_, mem, rfl⟩
  exact ⟨second _ (List.mem_append_left _ part), last _ part _ (List.mem_singleton_self _)⟩

/-- **The trampoline leads forward.** -/
theorem trampoline_forward (h : p.Lowered s u) (localOffset : Nat) :
    Assembly.Forward (trampolineEntries p.staged localOffset) where
  readable := (h.trampoline_readable localOffset).1
  jumps := fun k form l d here => by
    rcases List.mem_append.1 (List.mem_of_getElem? here) with load | last
    · obtain ⟨g, -, entry⟩ := List.mem_filterMap.1 load
      obtain ⟨x, -, eq⟩ := Option.map_eq_some_iff.1 entry
      cases eq
    · simp at last
  returns := ⟨p.staged.filterMap StagedGlobal.code? ++
    [.instruction ⟨.lea, localBaseRegister, .globalAt localOffset, []⟩ "lea rsi,[local]"], by simp [trampolineEntries]⟩

/-- Globals are in different registers. -/
theorem staged_distinct (h : p.Lowered s u) : p.staged.Pairwise fun x y => x.location ≠ y.location := by
  have homes := List.pairwise_map.1 (List.pairwise_append.1 h.standing.apart).1
  refine List.pairwise_filterMap.2 (homes.imp_of_mem fun {g g'} hg hg' apart x hx y hy same => ?_)
  have mem : x ∈ p.staged := List.mem_filterMap.2 ⟨g, hg, hx⟩
  obtain ⟨offset, -, rfl⟩ := Option.map_eq_some_iff.1 hx
  obtain ⟨offset', -, rfl⟩ := Option.map_eq_some_iff.1 hy
  obtain ⟨c, id, -, eq⟩ := h.staged_sound _ mem
  have same : g.location = g'.location := same
  have eq : g.location = c.location id := eq
  simp only [Holding.Apart, GlobalSlot.home, ← same, eq] at apart
  cases c <;> exact apart rfl

/-- The local region is smaller than the object. -/
theorem short_of_build (floor : Nat)
    (small : (p.objectLayout floor).localOffset + (p.objectLayout floor).localSize ≤ 2 ^ 32) : p.localSize < 2 ^ 32 := by
  have bounds := objectLayout_bounds p floor
  have : 8 ≤ trampolineSize p.staged := Nat.le_add_left _ _
  omega

/-- **A function of a program that was built has its site**, if offsets in
the object have 32 bits. -/
theorem site (h : p.Lowered s u) (run : Object.build p floor = .ok o)
    (small : (p.objectLayout floor).localOffset + (p.objectLayout floor).localSize ≤ 2 ^ 32)
    (mem : (f, entry) ∈ p.functions.zip (p.objectLayout floor).functionOffsets) :
    p.Site (p.objectLayout floor) f entry := by
  have bounds := objectLayout_bounds p floor
  have short := short_of_build floor small
  obtain ⟨-, resolved⟩ := h.built_of_build run short
  obtain ⟨behind, stop⟩ := function_bounds p floor mem
  have size := sizeOf_trampolineEntries h.staged_sound (p.objectLayout floor).localOffset
  have function : f ∈ p.functions := (List.of_mem_zip mem).1
  have linkable := h.linkable short function
  have whole := linkable.size_eq
  obtain ⟨g, w, body, s', v, t, -, -, written, precedes⟩ := h.functions f function
  have suits := h.regime_suits floor body (fun _ => True) fun _ _ => trivial
  have entries {i : Instruction Nat} {text : String} (hi : .instruction i text ∈ f.assembly.entries.tail) :
      .instruction i text ∈ f.assembly.entries := List.mem_of_mem_tail hi
  refine
    { trampoline := h.trampoline_forward _
      loads := resolved.trampoline
      body := linkable.forward ?_
      reaching := resolved.functions _ mem
      near := resolved.calls _ mem
      behind := by omega
      stop := by omega
      staged := fun g hg => ⟨h.staged_sound g hg, Nat.le_trans (h.staged_inside g hg) bounds.1⟩
      distinct := h.staged_distinct
      spares := fun i text hi m m' rsqrt grounds shelters run k sealed =>
        written.spares h precedes small (entries hi) grounds shelters run sealed
      localBase := fun i text hi m m' rsqrt run => ?_
      faults := fun i text hi m rsqrt e fails => ?_ }
  · obtain ⟨es, eq⟩ := written.coded.entries
    exact ⟨es, written.assembly ▸ eq⟩
  · obtain ⟨es, l, -, allowed, -⟩ := written.allowed (entries hi) suits
    exact Machine.localBase_perform (fun id => allowed.lt_of_writes) allowed.spares run
  · obtain ⟨es, l, -, allowed, -⟩ := written.allowed (entries hi) suits
    refine Machine.execute_error fails fun shift => ?_
    obtain ⟨id, rm⟩ := allowed.whole (by
      obtain ⟨o, reg, rm, immediate⟩ := i
      cases o <;> first | rfl | cases shift)
    exact ⟨id, by rw [Instruction.anchored, Instruction.map, rm]; rfl⟩

end Program.Lowered

/-! ## Blocks that hold the code -/

/-- The bytes of a function are those of the call and of the body. -/
theorem CompiledFunction.length_linkedBytes (f : CompiledFunction) (offset trampolineOffset : Nat) :
    (f.linkedBytes offset trampolineOffset).length = 5 + Assembly.sizeOf f.assembly.entries.tail := by
  rw [linkedBytes, List.length_append, Assembly.length_linkedCode]
  simp [wordBytes]

/-- **A block holds the trampoline and a function**, and has room for both
regions. -/
structure Program.Deployed (p : Program) (l : ObjectLayout) (f : CompiledFunction) (entry : Nat) (b : Block) : Prop where
  room : l.localOffset + l.localSize ≤ b.size
  trampoline : b.Holds l.trampolineOffset
    (Assembly.linkedCode l.trampolineOffset (trampolineEntries p.staged l.localOffset))
  function : b.Holds entry (f.linkedBytes entry l.trampolineOffset)

namespace Program.Deployed

variable {p : Program} {l : ObjectLayout} {f : CompiledFunction} {entry : Nat} {b b' : Block}

/-- The code stays where the bytes between the global and the local region
stay. -/
theorem of_same (h : p.Deployed l f entry b) (site : p.Site l f entry) (size : b'.size = b.size)
    (same : ∀ k, l.trampolineOffset ≤ k → k < l.localOffset → b'.get k = b.get k) : p.Deployed l f entry b' where
  room := size ▸ h.room
  trampoline := h.trampoline.of_same size fun k low high => same k low (by
    rw [Assembly.length_linkedCode] at high
    have := site.behind
    have := site.stop
    omega)
  function := h.function.of_same size fun k low high => by
    rw [CompiledFunction.length_linkedBytes] at high
    have := site.behind
    have := site.stop
    exact same k (by omega) (by omega)

theorem of_spares (h : p.Deployed l f entry b) (site : p.Site l f entry) (spares : b.Spares (p.Sealed l) b') :
    p.Deployed l f entry b' :=
  h.of_same site spares.size fun k low high => spares.same k (.code low high)

/-- The body stands behind the call. -/
theorem body (h : p.Deployed l f entry b) :
    b.Holds (entry + 5) (Assembly.linkedCode (entry + 5) f.assembly.entries.tail) := by
  have whole := (Block.holds_append.1 h.function).2
  simpa [wordBytes] using whole

/-- The call stands in front of the body. -/
theorem call (h : p.Deployed l f entry b) :
    b.Holds entry (0xE8 :: wordBytes (displacement (entry + 5) l.trampolineOffset)) :=
  (Block.holds_append.1 h.function).1

end Program.Deployed

/-- **The block of an object that was built** holds its code. -/
theorem Object.Built.deployed {p : Program} {s : Shader} {u : LoweringState} {floor : Nat} {f : CompiledFunction}
    {entry : Nat} {o : Object} (built : o.Built p (p.objectLayout floor)) (h : p.Lowered s u)
    (short : p.localSize < 2 ^ 32) (mem : (f, entry) ∈ p.functions.zip (p.objectLayout floor).functionOffsets) :
    p.Deployed (p.objectLayout floor) f entry o.block := by
  obtain ⟨-, inside⟩ := h.pieces_apart floor short
  have room : (p.objectLayout floor).localOffset + (p.objectLayout floor).localSize ≤ o.block.size := by
    rw [built.wrote.size]
    exact Block.size_new _
  have holds {q : Piece} (hq : q ∈ p.pieces (p.objectLayout floor)) : o.block.Holds q.1 q.2 :=
    ⟨Nat.le_trans (inside q hq) (Nat.le_of_add_right_le room), built.wrote.getBytes hq⟩
  exact ⟨room, holds (q := (_, _)) (List.mem_append_right _ List.mem_cons_self),
    holds (q := (_, _)) (List.mem_append_right _ (List.mem_cons_of_mem _ (List.mem_map.2 ⟨_, mem, rfl⟩)))⟩

end Shading
