import Shading.Object
import Shading.Proofs.Layout.Pools
import Shading.Proofs.Object.Linking

/-!
# The layout of an object

An object is written piece by piece into a zeroed block. Pieces that lie
apart from each other all stay as they were written, and what is in none
of them stays zero (`Block.Wrote`). The parts of an object follow each
other, each from a multiple of sixteen on (`Program.objectLayout_ordered`), and
the trampoline is as long as was foreseen (`trampoline_size`).
-/

namespace Shading

/-! ## Pieces -/

/-- **A piece of a block**: bytes, and the offset they stand at. -/
abbrev Piece := Nat × List UInt8

namespace Piece

/-- The offset behind a piece. -/
def stop (p : Piece) : Nat := p.1 + p.2.length

/-- An offset within a piece. -/
def Covers (p : Piece) (k : Nat) : Prop := p.1 ≤ k ∧ k < p.stop

/-- Two pieces share no byte. -/
def Apart (p q : Piece) : Prop := p.stop ≤ q.1 ∨ q.stop ≤ p.1

end Piece

namespace Block

/-- **Some pieces were written** into a block. -/
structure Wrote (b : Block) (ps : List Piece) (b' : Block) : Prop where
  size : b'.size = b.size
  inside : ∀ p ∈ ps, ∀ i < p.2.length, b'.get (p.1 + i) = p.2.getD i 0
  outside : ∀ k, (∀ p ∈ ps, ¬ p.Covers k) → b'.get k = b.get k

variable {b b' : Block} {ps : List Piece}

theorem Wrote.nil (b : Block) : b.Wrote [] b := ⟨rfl, nofun, fun _ _ => rfl⟩

/-- **Another piece is written**, apart from those before. -/
theorem Wrote.write (h : b.Wrote ps b') {p : Piece} (fits : p.stop ≤ b.size)
    (apart : ∀ q ∈ ps, Piece.Apart q p) : ∃ b'', b'.write p.1 p.2 = .ok b'' ∧ b.Wrote (ps ++ [p]) b'' := by
  refine ⟨_, if_pos (h.size ▸ fits), ?_, fun q hq i hi => ?_, fun k free => ?_⟩
  · rw [size_setBytes, h.size]
  · rw [get_setBytes]
    rcases List.mem_append.1 hq with old | new
    · rw [← h.inside q old i hi]
      have away := apart q old
      simp only [Piece.Apart, Piece.stop] at away
      split
      · rw [List.getElem?_eq_none (by omega)]
        rfl
      · rfl
    · obtain rfl := List.mem_singleton.1 new
      rw [if_pos (by omega), Nat.add_sub_cancel_left, List.getElem?_eq_getElem hi, List.getD_eq_getElem?_getD,
        List.getElem?_eq_getElem hi]
      rfl
  · have away := free p (List.mem_append_right _ (List.mem_singleton_self p))
    simp only [Piece.Covers, Piece.stop] at away
    rw [get_setBytes, ← h.outside k fun q hq => free q (List.mem_append_left _ hq)]
    split
    · rw [List.getElem?_eq_none (by omega)]
      rfl
    · rfl

/-- **Pieces are written** one after the other. -/
theorem Wrote.all : ∀ {qs ps : List Piece} {b' : Block}, b.Wrote ps b' → (∀ q ∈ qs, q.stop ≤ b.size) →
    (ps ++ qs).Pairwise Piece.Apart →
    ∃ b'', qs.foldlM (fun b q => b.write q.1 q.2) b' = .ok b'' ∧ b.Wrote (ps ++ qs) b''
  | [], ps, b', h, _, _ => ⟨b', rfl, by rwa [List.append_nil]⟩
  | q :: qs, ps, b', h, fits, apart => by
    obtain ⟨b₁, write, wrote⟩ := h.write (fits q List.mem_cons_self) fun x hx =>
      (List.pairwise_append.1 apart).2.2 x hx q List.mem_cons_self
    obtain ⟨b₂, rest, wrote⟩ := wrote.all (fun x hx => fits x (List.mem_cons_of_mem _ hx))
      (by rwa [List.append_assoc])
    refine ⟨b₂, ?_, by rwa [List.append_assoc] at wrote⟩
    rw [List.foldlM_cons, write]
    exact rest

/-- The bytes of a piece. -/
theorem Wrote.getBytes (h : b.Wrote ps b') {p : Piece} (hp : p ∈ ps) :
    b'.getBytes p.1 p.2.length = p.2 := by
  have same : ∀ (count start : Nat), start + count = p.2.length →
      b'.getBytes (p.1 + start) count = p.2.drop start := by
    intro count
    induction count with
    | zero =>
      intro start whole
      rw [List.drop_eq_nil_of_le (by omega)]
      rfl
    | succ count ih =>
      intro start whole
      have inside : start < p.2.length := by omega
      rw [Block.getBytes, h.inside p hp start inside, Nat.add_assoc, ih (start + 1) (by omega),
        List.drop_eq_getElem_cons inside]
      simp [inside]
  exact same p.2.length 0 (Nat.zero_add _)

end Block

/-! ## Offsets -/

theorem align16_bounds (n : Nat) : n ≤ align16 n ∧ align16 n % 16 = 0 := by
  rw [align16, alignUp_sixteen]
  omega

/-- **Functions follow each other**, each from a multiple of sixteen on. -/
theorem functionOffsets_ordered : ∀ (fs : List CompiledFunction) (cursor : Nat), cursor % 16 = 0 →
    (functionOffsets cursor fs).1.length = fs.length ∧ cursor ≤ (functionOffsets cursor fs).2 ∧
      (functionOffsets cursor fs).2 % 16 = 0 ∧
      (∀ x ∈ fs.zip (functionOffsets cursor fs).1, cursor ≤ x.2 ∧ x.2 % 16 = 0 ∧
        x.2 + x.1.assembly.size ≤ (functionOffsets cursor fs).2) ∧
      (fs.zip (functionOffsets cursor fs).1).Pairwise fun x y => x.2 + x.1.assembly.size ≤ y.2
  | [], cursor, aligned => ⟨rfl, Nat.le_refl _, aligned, nofun, .nil⟩
  | f :: fs, cursor, aligned => by
    obtain ⟨above, next⟩ := align16_bounds (cursor + f.assembly.size)
    obtain ⟨length, stop, last, each, ordered⟩ :=
      functionOffsets_ordered fs (align16 (cursor + f.assembly.size)) next
    simp only [functionOffsets, List.length_cons, length, List.zip_cons_cons]
    refine ⟨trivial, by omega, last, fun x hx => ?_, List.pairwise_cons.2 ⟨fun x hx => ?_, ordered⟩⟩
    · rcases List.mem_cons.1 hx with rfl | hx
      · exact ⟨Nat.le_refl _, aligned, Nat.le_trans above stop⟩
      · obtain ⟨low, four, high⟩ := each x hx
        exact ⟨by omega, four, high⟩
    · exact Nat.le_trans above (each x hx).1

/-- The stretches of an object, each with its start and its length: the
global region, the trampoline, the functions and the local region. -/
def ObjectLayout.parts (l : ObjectLayout) (p : Program) : List (Nat × Nat) :=
  (0, p.globalSize) :: (l.trampolineOffset, trampolineSize p.staged) ::
    ((p.functions.zip l.functionOffsets).map (fun x => (x.2, x.1.assembly.size)) ++ [(l.localOffset, l.localSize)])

/-- **The parts of an object follow each other**, each from a multiple of
sixteen on. -/
theorem Program.objectLayout_ordered (p : Program) (floor : Nat) :
    ((p.objectLayout floor).parts p).Pairwise (fun x y => x.1 + x.2 ≤ y.1) ∧
      (∀ x ∈ (p.objectLayout floor).parts p, x.1 % 16 = 0) ∧
      (p.objectLayout floor).functionOffsets.length = p.functions.length := by
  obtain ⟨low, aligned⟩ := align16_bounds p.globalSize
  obtain ⟨start, aligned'⟩ := align16_bounds (align16 p.globalSize + trampolineSize p.staged)
  obtain ⟨length, stop, last, each, ordered⟩ := functionOffsets_ordered p.functions _ aligned'
  simp only [ObjectLayout.parts, objectLayout]
  refine ⟨?_, fun x hx => ?_, length⟩
  · refine List.pairwise_cons.2 ⟨fun x hx => ?_, List.pairwise_cons.2 ⟨fun x hx => ?_,
      List.pairwise_append.2 ⟨List.pairwise_map.2 ordered, List.pairwise_singleton _ _, fun x hx y hy => ?_⟩⟩⟩
    · simp only [List.mem_cons, List.mem_append, List.mem_map, List.not_mem_nil, or_false] at hx
      rcases hx with rfl | ⟨y, hy, rfl⟩ | rfl
      · simpa using low
      · have := (each y hy).1
        simp only
        omega
      · simp only
        omega
    · simp only [List.mem_append, List.mem_map, List.mem_singleton] at hx
      rcases hx with ⟨y, hy, rfl⟩ | rfl
      · exact Nat.le_trans start (each y hy).1
      · exact Nat.le_trans start stop
    · obtain ⟨z, hz, rfl⟩ := List.mem_map.1 hx
      obtain rfl := List.mem_singleton.1 hy
      exact (each z hz).2.2
  · simp only [List.mem_cons, List.mem_append, List.mem_map, List.not_mem_nil, or_false] at hx
    rcases hx with rfl | rfl | ⟨y, hy, rfl⟩ | rfl
    · rfl
    · exact aligned
    · exact (each y hy).2.1
    · exact last

/-! ## The trampoline -/

/-- A global that is in a register of its pool. -/
def StagedGlobal.Sound (g : StagedGlobal) : Prop := ∃ c id, id ∈ c.pool ∧ g.location = RegisterClass.location c id

/-- The load of a global as an entry. -/
def StagedGlobal.code? (g : StagedGlobal) : Option CodeEntry := g.load?.map fun x => .instruction x.1 x.2

/-- The instruction that loads a register of a class. -/
def RegisterClass.loadOpcode : RegisterClass → Opcode
  | .general => .movLoad
  | .simd => .movupsLoad

theorem StagedGlobal.Sound.entry {g : StagedGlobal} (h : g.Sound) : ∃ c id text, id ∈ c.pool ∧
    g.location = RegisterClass.location c id ∧
    g.code? = some (.instruction ⟨RegisterClass.loadOpcode c, id, .globalAt g.staging, []⟩ text) ∧
    CodeEntry.size (.instruction ⟨RegisterClass.loadOpcode c, id, .globalAt g.staging, []⟩ text) = g.reserved := by
  obtain ⟨c, id, pool, eq⟩ := h
  have register : g.location.registerOf? = some (c, id) := by rw [eq, RegisterClass.registerOf?_location]
  obtain ⟨x, load, instruction⟩ : ∃ x, g.load? = some x ∧
      x.1 = ⟨RegisterClass.loadOpcode c, id, .globalAt g.staging, []⟩ := by
    rw [load?, register]
    cases c <;> exact ⟨_, rfl, rfl⟩
  refine ⟨c, id, x.2, pool, eq, ?_, ?_⟩
  · rw [code?, load, ← instruction]
    rfl
  · rw [reserved, register]
    cases c <;> rfl

/-- **The entries of a trampoline**: loads, the base of the local region and
a return. -/
def trampolineEntries (staged : List StagedGlobal) (localOffset : Nat) : List CodeEntry :=
  staged.filterMap StagedGlobal.code? ++
    [.instruction ⟨.lea, localBaseRegister, .globalAt localOffset, []⟩ "lea rsi,[local]", .ret]

theorem foldl_entries {step : Assembly → StagedGlobal → Assembly}
    (each : ∀ a g, (step a g).entries = a.entries ++ g.code?.toList) :
    ∀ (gs : List StagedGlobal) (a : Assembly),
      (gs.foldl step a).entries = a.entries ++ gs.filterMap StagedGlobal.code? := by
  intro gs
  induction gs with
  | nil => simp
  | cons g gs ih =>
    intro a
    rw [List.foldl_cons, ih, each, List.filterMap_cons]
    cases g.code? <;> simp

theorem trampoline_entries (keepListing : Bool) (staged : List StagedGlobal) (localOffset : Nat) :
    (trampoline keepListing staged localOffset).entries = trampolineEntries staged localOffset := by
  simp only [trampoline, Assembly.emit, Assembly.write]
  rw [foldl_entries fun a g => ?_]
  · simp [trampolineEntries]
  · rw [StagedGlobal.code?]
    cases g.load? <;> simp

/-- **The trampoline is as long as foreseen.** -/
theorem trampoline_size (keepListing : Bool) {staged : List StagedGlobal} (sound : ∀ g ∈ staged, g.Sound)
    (localOffset : Nat) : (trampoline keepListing staged localOffset).size = trampolineSize staged := by
  have loads : Assembly.sizeOf (staged.filterMap StagedGlobal.code?) = (staged.map StagedGlobal.reserved).sum := by
    induction staged with
    | nil => rfl
    | cons g gs ih =>
      obtain ⟨c, id, text, -, -, entry, size⟩ := (sound g List.mem_cons_self).entry
      rw [List.filterMap_cons, entry, Assembly.sizeOf_cons, size, List.map_cons, List.sum_cons,
        ih fun x hx => sound x (List.mem_cons_of_mem _ hx)]
  rw [Assembly.size, trampoline_entries, trampolineEntries, Assembly.sizeOf_append, loads, trampolineSize]
  rfl

end Shading
