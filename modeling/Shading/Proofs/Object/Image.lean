import Shading.Proofs.Object.Build

/-!
# The image of an object

What stands in the block of an object before anything is executed. Its
parts do not overlap, and all that is not a constant or code is zero
(`Object.LaidOut`). The code reads back as the instructions that were
emitted, with every reference resolved (`Object.Linked`): a global operand
leads to the place that was named, a jump to its mark in the same
function, the first call of a function to the trampoline, and the last
load of the trampoline to the local region.
-/

namespace Shading

/-! ## The parts -/

/-- **The image of an object is laid out** as its program asks for. -/
structure Object.LaidOut (o : Object) (p : Program) (floor : Nat) : Prop where
  /-- The length of the trampoline is the one foreseen. -/
  foreseen : ∀ keepListing, (trampoline keepListing p.staged o.localOffset).size = trampolineSize p.staged
  /-- The global region, the trampoline, the functions and the local region
  follow each other. -/
  ordered : ((0, p.globalSize) :: (align16 p.globalSize, trampolineSize p.staged) ::
    (o.functions.map (fun f => (f.offset, f.size)) ++ [(o.localOffset, o.localSize)])).Pairwise
      fun x y => x.1 + x.2 ≤ y.1
  aligned : align16 p.globalSize % 16 = 0 ∧ (∀ f ∈ o.functions, f.offset % 16 = 0) ∧ o.localOffset % 16 = 0
  functions : o.functions.map ObjectFunction.size = p.functions.map fun f => f.assembly.size
  room : max p.localSize floor ≤ o.localSize
  inside : o.localOffset + o.localSize ≤ o.block.size
  constants : ∀ c ∈ p.constants.slots, c.2 + c.1.size ≤ p.globalSize ∧
    o.block.getBytes c.2 c.1.size = c.1.bytes
  zeros : ∀ k, (∀ c ∈ p.constants.slots, k < c.2 ∨ c.2 + c.1.size ≤ k) →
    (k < align16 p.globalSize ∨ align16 p.globalSize + trampolineSize p.staged ≤ k) →
    (∀ f ∈ o.functions, k < f.offset ∨ f.offset + f.size ≤ k) → o.block.get k = 0

namespace Program.Lowered

variable {p : Program} {s : Shader} {u : LoweringState} {floor : Nat} {o : Object}

/-- The pieces of a trampoline and of a function have the lengths of their
parts. -/
theorem length_trampoline (h : p.Lowered s u) (localOffset start : Nat) :
    (Assembly.linkedCode start (trampolineEntries p.staged localOffset)).length = trampolineSize p.staged := by
  rw [Assembly.length_linkedCode, sizeOf_trampolineEntries h.staged_sound]

/-- **A built object is laid out.** -/
theorem laidOut (h : p.Lowered s u) (built : o.Built p (p.objectLayout floor)) (small : p.localSize < 2 ^ 32) :
    o.LaidOut p floor := by
  obtain ⟨ordered, aligned, length⟩ := p.objectLayout_ordered floor
  have parts : o.functions.map (fun f => (f.offset, f.size)) =
      (p.functions.zip (p.objectLayout floor).functionOffsets).map fun x => (x.2, x.1.assembly.size) := by
    rw [built.functions, List.map_map]
    rfl
  -- Functions, constants and the trampoline are pieces of one list, written each at its
  -- place, so what is asked of the image is read off the pieces.
  have mem {f : ObjectFunction} (hf : f ∈ o.functions) :
      ∃ x ∈ p.functions.zip (p.objectLayout floor).functionOffsets, f.offset = x.2 ∧ f.size = x.1.assembly.size := by
    rw [built.functions] at hf
    obtain ⟨x, hx, rfl⟩ := List.mem_map.1 hf
    exact ⟨x, hx, rfl, rfl⟩
  refine
    { foreseen := fun keepListing => trampoline_size keepListing h.staged_sound _
      ordered := ?_
      aligned := ⟨(align16_bounds _).2, fun f hf => ?_, ?_⟩
      functions := ?_
      room := ?_
      inside := ?_
      constants := fun c hc => ⟨h.constants_inside c hc, ?_⟩
      zeros := fun k constants trampoline functions => ?_ }
  · rw [parts, built.localOffset, built.localSize]
    exact ordered
  · obtain ⟨x, hx, offset, -⟩ := mem hf
    rw [offset]
    refine aligned (x.2, x.1.assembly.size) ?_
    exact List.mem_cons_of_mem _ (List.mem_cons_of_mem _ (List.mem_append_left _ (List.mem_map_of_mem hx)))
  · rw [built.localOffset]
    exact aligned (_, (p.objectLayout floor).localSize)
      (List.mem_cons_of_mem _ (List.mem_cons_of_mem _ (List.mem_append_right _ (List.mem_singleton_self _))))
  · rw [built.functions, List.map_map]
    change List.map ((fun f : CompiledFunction => f.assembly.size) ∘ Prod.fst) _ = _
    rw [← List.map_map, List.map_fst_zip (Nat.le_of_eq length.symm)]
  · rw [built.localSize]
    exact (align16_bounds _).1
  · rw [built.localOffset, built.localSize, built.wrote.size]
    exact Block.size_new _
  · have piece : ((c.2, c.1.bytes) : Piece) ∈ p.pieces (p.objectLayout floor) :=
      List.mem_append_left _ (List.mem_map.2 ⟨c, hc, rfl⟩)
    have bytes := built.wrote.getBytes piece
    rwa [Constant.length_bytes] at bytes
  · rw [built.wrote.outside k, Block.get_new]
    rintro q hq ⟨low, high⟩
    -- What is outside of every piece is what a new block holds.
    rcases List.mem_append.1 hq with hq | hq
    · obtain ⟨c, hc, rfl⟩ := List.mem_map.1 hq
      rw [Piece.stop, Constant.length_bytes] at high
      have := constants c hc
      simp only at low high
      omega
    · rcases List.mem_cons.1 hq with rfl | hq
      · rw [Piece.stop, h.length_trampoline] at high
        have : (p.objectLayout floor).trampolineOffset = align16 p.globalSize := rfl
        simp only at low high
        omega
      · obtain ⟨x, hx, rfl⟩ := List.mem_map.1 hq
        rw [Piece.stop, (h.linkable small (List.of_mem_zip hx).1).length_linkedBytes] at high
        have := functions ⟨x.1.name, x.1.isExported, x.2, x.1.assembly.size, x.1.assembly.listing⟩ (by
          rw [built.functions]
          exact List.mem_map.2 ⟨x, hx, rfl⟩)
        simp only at low high this
        omega

end Program.Lowered

/-- **The image of an object is laid out without overlap**, for every
program that compiles and exports its entry point, if the object is below
two gigabytes. -/
theorem Program.lays_out_without_overlap {o : Options} {source : String} {p : Program} {floor : Nat}
    (run : compile o source = .ok p)
    (main : p.functions.any (fun f => f.isExported && f.name == entryPoint) = true)
    (small : (p.objectLayout floor).localOffset + (p.objectLayout floor).localSize < 2 ^ 31) :
    ∃ object, Object.build p floor = .ok object ∧ object.LaidOut p floor := by
  obtain ⟨shader, last, -, lowered⟩ := lowered_of_compile run
  obtain ⟨object, build, built⟩ := lowered.built main small
  have size : p.localSize ≤ (p.objectLayout floor).localSize :=
    Nat.le_trans (Nat.le_max_left _ _) (align16_bounds (max p.localSize floor)).1
  exact ⟨object, build, lowered.laidOut built (by omega)⟩

theorem Program.lays_out_sampleSource : ∃ p object, compile sampleOptions sampleSource = .ok p ∧
    Object.build p 256 = .ok object ∧ object.LaidOut p 256 := by
  obtain ⟨p, compiled, main, small⟩ := compiles_sampleSource
  obtain ⟨object, build, laidOut⟩ := lays_out_without_overlap compiled main small
  exact ⟨p, object, compiled, build, laidOut⟩

/-! ## Code that is read -/

/-- **An operand that was read leads where the emitted one does**: a global
operand, from the offset `next` behind its instruction, to the offset that
was named. -/
def Operand.Resolves (next : Nat) : Operand Nat → Operand Nat → Prop
  | .globalAt target, .globalAt d => (next : Int) + signedValue 32 d = target
  | rm, rm' => rm' = rm

/-- **A step that was read stands for the `k`-th of some entries**, which
start at an offset of the object. -/
inductive CodeEntry.Resolves (offset trampolineOffset : Nat) (es : List CodeEntry) (k : Nat) :
    CodeEntry → Decoded → Prop
  | instruction {i j : Instruction Nat} {text : String} (opcode : j.opcode = i.opcode) (field : j.reg = i.field)
      (operand : i.rm.Resolves (offset + Assembly.startOf es (k + 1)) j.rm) (immediate : j.immediate = i.immediate) :
      Resolves offset trampolineOffset es k (.instruction i text) (.op j)
  | jump {form : JumpForm} {l m : Nat} {d : Int} (mark : es[m]? = some (.mark l))
      (lands : ((offset + Assembly.startOf es (k + 1) : Nat) : Int) + d = (offset + Assembly.startOf es m : Nat)) :
      Resolves offset trampolineOffset es k (.jump form l d) (.jump form d)
  | call {target : String} {d : Int}
      (lands : ((offset + Assembly.startOf es (k + 1) : Nat) : Int) + d = trampolineOffset) :
      Resolves offset trampolineOffset es k (.call target) (.call d)
  | ret : Resolves offset trampolineOffset es k .ret .ret
  | cdq : Resolves offset trampolineOffset es k .cdq .cdq

/-- **Steps that were read stand for entries**, from the `k`-th one on.
Marks have no bytes. -/
inductive Assembly.ReadAs (offset trampolineOffset : Nat) (es : List CodeEntry) :
    Nat → List CodeEntry → List Decoded → Prop
  | nil {k : Nat} : ReadAs offset trampolineOffset es k [] []
  | mark {k l : Nat} {rest : List CodeEntry} {ds : List Decoded}
      (later : ReadAs offset trampolineOffset es (k + 1) rest ds) :
      ReadAs offset trampolineOffset es k (.mark l :: rest) ds
  | step {k : Nat} {e : CodeEntry} {d : Decoded} {rest : List CodeEntry} {ds : List Decoded}
      (resolves : e.Resolves offset trampolineOffset es k d)
      (later : ReadAs offset trampolineOffset es (k + 1) rest ds) :
      ReadAs offset trampolineOffset es k (e :: rest) (d :: ds)

namespace Assembly

theorem startOf_succ {front rest : List CodeEntry} (e : CodeEntry) :
    startOf (front ++ e :: rest) (front.length + 1) = startOf (front ++ e :: rest) front.length + e.size := by
  have first : (front ++ e :: rest).take (front.length + 1) = front ++ [e] := by
    rw [List.append_cons]
    exact List.take_left' (by simp)
  rw [startOf, startOf, first, List.take_left, sizeOf_append]
  rfl

/-- **Linked code is read as its entries**, if displacements hold their
distances and each jump has its mark. -/
theorem readAs_decoded (offset trampolineOffset : Nat) {es : List CodeEntry}
    (jumps : ∀ (k : Nat) form l d, es[k]? = some (.jump form l d) → ∃ m, es[m]? = some (.mark l) ∧
      d = (startOf es m : Int) - startOf es (k + 1)) :
    ∀ (rest front : List CodeEntry), es = front ++ rest → (∀ e ∈ rest, e.Readable) →
      Reaching (offset + startOf es front.length) rest →
      ReadAs offset trampolineOffset es front.length rest (decoded (offset + startOf es front.length) rest)
  | [], front, _, _, _ => .nil
  | e :: rest, front, eq, readable, reaching => by
    obtain ⟨first, reaching⟩ := reaching
    have next : startOf es (front.length + 1) = startOf es front.length + e.size := by
      rw [eq]
      exact startOf_succ e
    have ahead : startOf es (front ++ [e]).length = startOf es front.length + e.size := by
      rw [List.length_append, List.length_singleton, next]
    have later := readAs_decoded offset trampolineOffset jumps rest (front ++ [e])
      (by rw [eq, List.append_cons]) (fun x hx => readable x (List.mem_cons_of_mem _ hx))
      (by rwa [ahead, ← Nat.add_assoc])
    rw [ahead, List.length_append, List.length_singleton, ← Nat.add_assoc] at later
    have here : es[front.length]? = some e := by rw [eq, List.getElem?_append_right (Nat.le_refl _)]; simp
    rw [decoded]
    cases e with
    | instruction i text =>
      refine .step (.instruction rfl rfl ?_ rfl) later
      rw [next, ← Nat.add_assoc]
      cases rm : i.rm with
      | globalAt target =>
        simp only [Instruction.linked, rm, Operand.map, Operand.Resolves]
        exact reach_displacement (first i text target rfl rm)
      | _ => simp [Instruction.linked, rm, Operand.map, Operand.Resolves]
    | jump form l d =>
      obtain ⟨m, mark, distance⟩ := jumps front.length form l d here
      refine .step (.jump mark ?_) later
      rw [distance]
      omega
    | ret => exact .step .ret later
    | cdq => exact .step .cdq later
    | mark l => exact .mark later
    | raw bytes text => exact (readable _ List.mem_cons_self).elim
    | call target => exact (readable _ List.mem_cons_self).elim

end Assembly

namespace Decoded

/-- **The call of the trampoline is read**, and what follows it. -/
theorem readAll?_linkedBytes {f : CompiledFunction} {globalSize : Nat} (linkable : f.Linkable globalSize)
    (offset trampolineOffset : Nat) : readAll? (f.linkedBytes offset trampolineOffset) =
      some (.call (signedValue 32 (displacement (offset + 5) trampolineOffset)) ::
        Assembly.decoded (offset + 5) f.assembly.entries.tail) := by
  obtain ⟨rest, eq, readable⟩ := linkable.entries
  have word := take?_word (displacement (offset + 5) trampolineOffset) (Assembly.linkedCode (offset + 5) rest)
  have value : ofLittleEndian (wordBytes (displacement (offset + 5) trampolineOffset)) =
      displacement (offset + 5) trampolineOffset := by
    rw [wordBytes, ofLittleEndian_littleEndian]
    exact Nat.mod_eq_of_lt (displacement_lt _ _)
  have later := readAllWithin_linkedCode (offset + 5)
    (wordBytes (displacement (offset + 5) trampolineOffset) ++ Assembly.linkedCode (offset + 5) rest).length
    readable (by simp)
  rw [CompiledFunction.linkedBytes, eq, List.tail_cons, readAll?, List.cons_append, List.length_cons, readAllWithin]
  · simp only [read?, readControl?, word, Option.map_some, value, bind, Option.bind, later, pure]
  · rintro ⟨⟩

end Decoded

namespace CompiledFunction.Linkable

variable {f : CompiledFunction} {globalSize : Nat}

/-- Each jump of a function leads to its mark. -/
theorem jumps (h : f.Linkable globalSize) (k : Nat) (form : JumpForm) (l : Nat) (d : Int)
    (jump : f.assembly.entries[k]? = some (.jump form l d)) :
    ∃ m, f.assembly.entries[m]? = some (.mark l) ∧
      d = (Assembly.startOf f.assembly.entries m : Int) - Assembly.startOf f.assembly.entries (k + 1) := by
  obtain ⟨e, he, marked⟩ := h.bound l ⟨_, List.mem_of_getElem? jump, rfl⟩
  obtain ⟨m, hm⟩ := List.getElem?_of_mem he
  rw [CodeEntry.mark?_eq_some.1 marked] at hm
  exact ⟨m, hm, (h.sound.linked k m form l d jump hm).2.1⟩

/-- **The code of a function reads as it was emitted**, where the object is
below two gigabytes. -/
theorem readAs (h : f.Linkable globalSize) {offset trampolineOffset : Nat} (stop : offset + f.assembly.size < 2 ^ 31)
    (trampoline : trampolineOffset < 2 ^ 31) (global : globalSize < 2 ^ 31) :
    Assembly.ReadAs offset trampolineOffset f.assembly.entries 0 f.assembly.entries
      (.call (signedValue 32 (displacement (offset + 5) trampolineOffset)) ::
        Assembly.decoded (offset + 5) f.assembly.entries.tail) := by
  obtain ⟨rest, entries, readable⟩ := h.entries
  have near : Assembly.Near rest := fun i text target mem rm =>
    Nat.lt_of_le_of_lt (h.near i text target (entries ▸ List.mem_cons_of_mem _ mem) rm) global
  have first : Assembly.startOf f.assembly.entries 1 = 5 := by
    rw [entries]
    rfl
  have size : f.assembly.size = 5 + Assembly.sizeOf rest := by
    rw [Assembly.size, entries, Assembly.sizeOf_cons]
    rfl
  have reaching : Assembly.Reaching (offset + Assembly.startOf f.assembly.entries 1) rest :=
    Assembly.reaching_of_near near (by rw [first]; omega)
  have later := Assembly.readAs_decoded offset trampolineOffset h.jumps rest [.call "trampoline"]
    (by rw [entries]; rfl) readable reaching
  have whole : Assembly.ReadAs offset trampolineOffset f.assembly.entries 0 (.call "trampoline" :: rest)
      (.call (signedValue 32 (displacement (offset + 5) trampolineOffset)) :: Assembly.decoded (offset + 5) rest) := by
    refine .step (.call ?_) (first ▸ later)
    rw [Nat.zero_add, first]
    exact reach_displacement (fitsSigned_distance (by omega) trampoline)
  rw [entries] at whole ⊢
  exact whole

end CompiledFunction.Linkable

/-- **An object is linked**: its trampoline and its functions are read as
they were emitted, with all references resolved. -/
structure Object.Linked (o : Object) (p : Program) : Prop where
  trampoline : ∀ keepListing, ∃ loads ds text,
    (trampoline keepListing p.staged o.localOffset).entries =
      loads ++ [.instruction ⟨.lea, localBaseRegister, .globalAt o.localOffset, []⟩ text, .ret] ∧
    Decoded.readAll? (o.block.getBytes (align16 p.globalSize) (trampolineSize p.staged)) = some ds ∧
    Assembly.ReadAs (align16 p.globalSize) (align16 p.globalSize)
      (trampoline keepListing p.staged o.localOffset).entries 0
      (trampoline keepListing p.staged o.localOffset).entries ds
  count : o.functions.length = p.functions.length
  functions : ∀ x ∈ p.functions.zip o.functions, x.2.name = x.1.name ∧ x.2.size = x.1.assembly.size ∧ ∃ ds,
    Decoded.readAll? (o.block.getBytes x.2.offset x.2.size) = some ds ∧
    Assembly.ReadAs x.2.offset (align16 p.globalSize) x.1.assembly.entries 0 x.1.assembly.entries ds

namespace Program.Lowered

variable {p : Program} {s : Shader} {u : LoweringState} {floor : Nat} {o : Object}

/-- The entries of a trampoline can be told from their bytes, and their
references are within the object. -/
theorem trampoline_readable (h : p.Lowered s u) (localOffset : Nat) :
    (∀ e ∈ trampolineEntries p.staged localOffset, e.Readable) ∧
      ∀ i text target, .instruction i text ∈ trampolineEntries p.staged localOffset → i.rm = .globalAt target →
        target + 16 ≤ p.globalSize ∨ target = localOffset := by
  have cases_ (e : CodeEntry) (he : e ∈ trampolineEntries p.staged localOffset) :
      (∃ c id staging text, id ∈ RegisterClass.pool c ∧ staging + 16 ≤ p.globalSize ∧
        e = .instruction ⟨RegisterClass.loadOpcode c, id, .globalAt staging, []⟩ text) ∨
      (∃ text, e = .instruction ⟨.lea, localBaseRegister, .globalAt localOffset, []⟩ text) ∨ e = .ret := by
    rcases List.mem_append.1 he with load | last
    · obtain ⟨g, hg, entry⟩ := List.mem_filterMap.1 load
      obtain ⟨c, id, text, pool, -, entry', -⟩ := (h.staged_sound g hg).entry
      rw [entry'] at entry
      cases entry
      exact .inl ⟨c, id, g.staging, text, pool, h.staged_inside g hg, rfl⟩
    · simp only [List.mem_cons, List.not_mem_nil, or_false] at last
      exact .inr (last.imp (fun eq => ⟨_, eq⟩) id)
  refine ⟨fun e he => ?_, fun i text target mem rm => ?_⟩
  · rcases cases_ e he with ⟨c, id, staging, text, pool, -, rfl⟩ | ⟨text, rfl⟩ | rfl
    · have low : id < 8 := by
        cases c <;> simp only [RegisterClass.pool, List.mem_cons, List.not_mem_nil, or_false] at pool <;> omega
      cases c <;> simp [CodeEntry.Readable, Instruction.Encodable, Operand.Encodable, low, RegisterClass.loadOpcode,
        Opcode.form]
    · rfl
    · trivial
  · rcases cases_ _ mem with ⟨c, id, staging, text, pool, inside, eq⟩ | ⟨text, eq⟩ | eq
    · cases eq
      cases rm
      exact .inl inside
    · cases eq
      cases rm
      exact .inr rfl
    · cases eq

/-- There are no jumps in a trampoline. -/
theorem trampoline_jump (h : p.Lowered s u) {localOffset k : Nat} {form : JumpForm} {l : Nat} {d : Int} :
    (trampolineEntries p.staged localOffset)[k]? ≠ some (.jump form l d) := by
  intro jump
  rcases List.mem_append.1 (List.mem_of_getElem? jump) with load | last
  · obtain ⟨g, hg, entry⟩ := List.mem_filterMap.1 load
    obtain ⟨c, id, text, -, -, entry', -⟩ := (h.staged_sound g hg).entry
    rw [entry'] at entry
    cases entry
  · simp at last

/-- **The trampoline of a built object reads as it was emitted.** -/
theorem trampoline_linked (h : p.Lowered s u) (built : o.Built p (p.objectLayout floor))
    (small : (p.objectLayout floor).localOffset < 2 ^ 31) (locals : p.localSize < 2 ^ 32)
    (global : p.globalSize ≤ (p.objectLayout floor).localOffset) :
    Decoded.readAll? (o.block.getBytes (align16 p.globalSize) (trampolineSize p.staged)) =
        some (Assembly.decoded (align16 p.globalSize) (trampolineEntries p.staged o.localOffset)) ∧
      Assembly.ReadAs (align16 p.globalSize) (align16 p.globalSize) (trampolineEntries p.staged o.localOffset) 0
        (trampolineEntries p.staged o.localOffset)
        (Assembly.decoded (align16 p.globalSize) (trampolineEntries p.staged o.localOffset)) := by
  have piece : ((align16 p.globalSize, Assembly.linkedCode (align16 p.globalSize)
      (trampolineEntries p.staged o.localOffset)) : Piece) ∈ p.pieces (p.objectLayout floor) := by
    rw [built.localOffset]
    exact List.mem_append_right _ List.mem_cons_self
  have bytes := built.wrote.getBytes piece
  have stop := (h.pieces_apart floor locals).2 _ piece
  have length := h.length_trampoline o.localOffset (align16 p.globalSize)
  rw [Piece.stop, length] at stop
  rw [length] at bytes
  rw [Assembly.length_linkedCode] at length
  obtain ⟨readable, references⟩ := h.trampoline_readable o.localOffset
  have near : Assembly.Near (trampolineEntries p.staged o.localOffset) := fun i text target mem rm => by
    have local_ := built.localOffset
    rcases references i text target mem rm with low | rfl <;> omega
  refine ⟨?_, ?_⟩
  · rw [bytes, Decoded.readAll?, Assembly.length_linkedCode]
    exact Decoded.readAllWithin_linkedCode _ _ readable (Nat.le_refl _)
  · refine Assembly.readAs_decoded _ _ (fun k form l d jump => absurd jump h.trampoline_jump) _ [] rfl readable
      (Assembly.reaching_of_near near ?_)
    change align16 p.globalSize + 0 + _ < _
    simp only at stop
    omega

/-- A function of a built object stands where its code has been placed. -/
theorem function_placed (built : o.Built p (p.objectLayout floor)) {x : CompiledFunction × ObjectFunction}
    (hx : x ∈ p.functions.zip o.functions) :
    ∃ offset, (x.1, offset) ∈ p.functions.zip (p.objectLayout floor).functionOffsets ∧
      x.2 = ⟨x.1.name, x.1.isExported, offset, x.1.assembly.size, x.1.assembly.listing⟩ := by
  rw [built.functions] at hx
  obtain ⟨i, hi⟩ := List.getElem?_of_mem hx
  rw [List.getElem?_zip_eq_some, List.getElem?_map] at hi
  obtain ⟨first, second⟩ := hi
  obtain ⟨y, hy, eq⟩ := Option.map_eq_some_iff.1 second
  have both := List.getElem?_zip_eq_some.1 hy
  rw [first] at both
  have same : y.1 = x.1 := (Option.some.inj both.1).symm
  exact ⟨y.2, same ▸ List.mem_of_getElem? hy, by rw [← eq, same]⟩

/-- **A built object is linked.** -/
theorem linked (h : p.Lowered s u) (built : o.Built p (p.objectLayout floor))
    (small : (p.objectLayout floor).localOffset + (p.objectLayout floor).localSize < 2 ^ 31) : o.Linked p := by
  have size : p.localSize ≤ (p.objectLayout floor).localSize :=
    Nat.le_trans (Nat.le_max_left _ _) (align16_bounds (max p.localSize floor)).1
  have locals : p.localSize < 2 ^ 32 := by omega
  obtain ⟨-, inside⟩ := h.pieces_apart floor locals
  obtain ⟨ordered, -, length⟩ := p.objectLayout_ordered floor
  have global : p.globalSize ≤ (p.objectLayout floor).localOffset := by
    have := (List.pairwise_cons.1 ordered).1 ((p.objectLayout floor).localOffset, (p.objectLayout floor).localSize)
      (by simp)
    simpa using this
  refine
    { trampoline := fun keepListing => ?_
      count := by rw [built.functions, List.length_map, List.length_zip, length, Nat.min_self]
      functions := fun x hx => ?_ }
  · obtain ⟨read, readAs⟩ := h.trampoline_linked built (by omega) locals global
    rw [trampoline_entries]
    exact ⟨_, _, _, rfl, read, readAs⟩
  · obtain ⟨offset, hy, eq⟩ := function_placed built hx
    have linkable := h.linkable locals (List.of_mem_zip hy).1
    have piece : ((offset, x.1.linkedBytes offset (align16 p.globalSize)) : Piece) ∈
        p.pieces (p.objectLayout floor) :=
      List.mem_append_right _ (List.mem_cons_of_mem _ (List.mem_map.2 ⟨_, hy, rfl⟩))
    have bytes := built.wrote.getBytes piece
    have stop := inside _ piece
    rw [Piece.stop, linkable.length_linkedBytes] at stop
    rw [linkable.length_linkedBytes] at bytes
    have trampoline := inside _ (List.mem_append_right _ List.mem_cons_self :
      ((align16 p.globalSize, _) : Piece) ∈ p.pieces (p.objectLayout floor))
    rw [Piece.stop] at trampoline
    simp only at stop trampoline
    have below : offset + x.1.assembly.size < 2 ^ 31 ∧ align16 p.globalSize < 2 ^ 31 := by omega
    rw [eq]
    exact ⟨rfl, rfl, _, by rw [bytes]; exact Decoded.readAll?_linkedBytes linkable offset _,
      linkable.readAs below.1 below.2 (by omega)⟩

end Program.Lowered

/-- **Linking resolves every reference**, for every program that compiles
and exports its entry point, if the object is below two gigabytes. -/
theorem Program.links_every_reference {o : Options} {source : String} {p : Program} {floor : Nat}
    (run : compile o source = .ok p)
    (main : p.functions.any (fun f => f.isExported && f.name == entryPoint) = true)
    (small : (p.objectLayout floor).localOffset + (p.objectLayout floor).localSize < 2 ^ 31) :
    ∃ object, Object.build p floor = .ok object ∧ object.Linked p := by
  obtain ⟨shader, last, -, lowered⟩ := lowered_of_compile run
  obtain ⟨object, build, built⟩ := lowered.built main small
  exact ⟨object, build, lowered.linked built small⟩

theorem Program.links_sampleSource : ∃ p object, compile sampleOptions sampleSource = .ok p ∧
    Object.build p 256 = .ok object ∧ object.Linked p := by
  obtain ⟨p, compiled, main, small⟩ := compiles_sampleSource
  obtain ⟨object, build, linked⟩ := links_every_reference compiled main small
  exact ⟨p, object, compiled, build, linked⟩

end Shading
