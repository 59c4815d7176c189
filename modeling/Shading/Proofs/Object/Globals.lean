import Mathlib.Data.List.Pairwise
import Shading.Proofs.Object.Build

/-!
# Where the host finds the globals

The host reads and writes the global variables of a shader by their names.
The bytes it reaches are those of the variable itself or, for one that
lives in a register, those of its staging slot. Constants are pooled
between the globals, and the code follows behind. `Object.Furnished` says
that all this lies apart, and `Object.furnished_of_build` that it is so in
every object that was built, whatever its size: the layout of globals is
settled before there is any code.
-/

namespace Shading

open LoweringState

/-! ## Bytes that stay -/

namespace Block

/-- **Some bytes of a block stay** as they were. -/
structure Spares (keep : Nat → Prop) (b b' : Block) : Prop where
  size : b'.size = b.size
  same : ∀ k, keep k → b'.get k = b.get k

namespace Spares

variable {keep keep' : Nat → Prop} {b b' b'' : Block}

theorem refl (b : Block) : b.Spares keep b := ⟨rfl, fun _ _ => rfl⟩

theorem trans (h : b.Spares keep b') (h' : b'.Spares keep b'') : b.Spares keep b'' :=
  ⟨h'.size.trans h.size, fun k hk => (h'.same k hk).trans (h.same k hk)⟩

theorem mono (h : b.Spares keep b') (sub : ∀ k, keep' k → keep k) : b.Spares keep' b' :=
  ⟨h.size, fun k hk => h.same k (sub k hk)⟩

/-- A stretch of bytes that stay reads as before. -/
theorem getBytes (h : b.Spares keep b') : ∀ {offset count : Nat},
    (∀ k, offset ≤ k → k < offset + count → keep k) → b'.getBytes offset count = b.getBytes offset count
  | _, 0, _ => rfl
  | offset, count + 1, kept => by
    rw [Block.getBytes, Block.getBytes, h.same offset (kept offset (Nat.le_refl _) (by omega)),
      h.getBytes fun k low high => kept k (by omega) (by omega)]

end Spares

/-- A new block reads as zeros. -/
theorem getBytes_new (size : Nat) : ∀ offset count, (new size).getBytes offset count = List.replicate count 0
  | _, 0 => rfl
  | offset, count + 1 => by rw [getBytes, get_new, getBytes_new size (offset + 1) count, List.replicate_succ]

/-- Pieces that were written spare what none of them covers. -/
theorem Wrote.spares {b b' : Block} {ps : List Piece} (h : b.Wrote ps b') :
    b.Spares (fun k => ∀ p ∈ ps, ¬ p.Covers k) b' := ⟨h.size, h.outside⟩

/-- **What a write comes to.** -/
theorem wrote_of_write {b b' : Block} {p : Piece} (run : b.write p.1 p.2 = .ok b') : b.Wrote [p] b' := by
  have fits : p.1 + p.2.length ≤ b.size := by
    by_contra outside
    rw [write, if_neg outside] at run
    cases run
  obtain ⟨b'', run', wrote⟩ := (Wrote.nil b).write fits nofun
  rw [run] at run'
  cases run'
  exact wrote

/-- Writes that succeed spare what none of them covers, also where they
overlap. -/
theorem spares_of_writes : ∀ {ps : List Piece} {b b' : Block},
    ps.foldlM (fun b q => b.write q.1 q.2) b = .ok b' → b.Spares (fun k => ∀ p ∈ ps, ¬ p.Covers k) b'
  | [], b, b', run => by
    cases run
    exact .refl b
  | p :: ps, b, b', run => by
    rw [List.foldlM_cons] at run
    obtain ⟨b₁, first, rest⟩ := except_bind_eq_ok.1 run
    refine ((wrote_of_write first).spares.mono fun k free q hq => ?_).trans
      ((spares_of_writes rest).mono fun k free q hq => free q (List.mem_cons_of_mem _ hq))
    exact free q (List.mem_singleton.1 hq ▸ List.mem_cons_self)

end Block

/-! ## Building -/

namespace Object

variable {p : Program} {floor : Nat} {o : Object}

/-- Functions are written behind the offset of the first one. -/
theorem spares_of_writeFunctions {trampolineOffset start : Nat} :
    ∀ {placed : List (CompiledFunction × Nat)} {b b' : Block}, (∀ x ∈ placed, start ≤ x.2) →
      writeFunctions b trampolineOffset placed = .ok b' → b.Spares (· < start) b'
  | [], b, b', _, run => by
    cases run
    exact .refl b
  | x :: placed, b, b', behind, run => by
    obtain ⟨bytes, -, run⟩ := except_bind_eq_ok.1 run
    obtain ⟨b₁, first, rest⟩ := except_bind_eq_ok.1 run
    refine ((Block.wrote_of_write (p := (x.2, bytes)) first).spares.mono fun k below q hq => ?_).trans
      (spares_of_writeFunctions (fun y hy => behind y (List.mem_cons_of_mem _ hy)) rest)
    obtain rfl := List.mem_singleton.1 hq
    have := behind x List.mem_cons_self
    exact fun covers => absurd covers.1 (by omega)

/-- **What a built object consists of**, whatever its size. The code leaves
the global region as the constants have filled it. -/
theorem of_build (run : build p floor = .ok o) :
    (∃ b, writeConstants (.new ((p.objectLayout floor).localOffset + (p.objectLayout floor).localSize))
        p.constants = .ok b ∧ b.Spares (· < p.globalSize) o.block) ∧
      p.globals.mapM globalOfSlot = .ok o.globals ∧ o.constants = p.constants ∧
      o.localOffset = (p.objectLayout floor).localOffset ∧
      ∀ f ∈ o.functions, align16 p.globalSize + trampolineSize p.staged ≤ f.offset := by
  obtain ⟨ordered, -, -⟩ := p.objectLayout_ordered floor
  obtain ⟨first, rest⟩ := List.pairwise_cons.1 ordered
  obtain ⟨second, -⟩ := List.pairwise_cons.1 rest
  have start : p.globalSize ≤ (p.objectLayout floor).trampolineOffset := by
    simpa using first _ List.mem_cons_self
  have behind (x : CompiledFunction × Nat)
      (hx : x ∈ p.functions.zip (p.objectLayout floor).functionOffsets) :
      (p.objectLayout floor).trampolineOffset + trampolineSize p.staged ≤ x.2 :=
    second (x.2, x.1.assembly.size) (List.mem_append_left _ (List.mem_map_of_mem hx))
  unfold build at run
  split at run
  · obtain ⟨b₁, constants, run⟩ := except_bind_eq_ok.1 run
    split at run
    · cases run
    · obtain ⟨bytes, -, run⟩ := except_bind_eq_ok.1 run
      obtain ⟨b₂, trampoline, run⟩ := except_bind_eq_ok.1 run
      obtain ⟨b₃, functions, run⟩ := except_bind_eq_ok.1 run
      obtain ⟨globals, found, run⟩ := except_bind_eq_ok.1 run
      cases run
      refine ⟨⟨b₁, constants, ?_⟩, found, rfl, rfl, fun f hf => ?_⟩
      · refine ((Block.wrote_of_write (p := (_, bytes)) trampoline).spares.mono fun k below q hq => ?_).trans
          (spares_of_writeFunctions (fun x hx => ?_) functions)
        · obtain rfl := List.mem_singleton.1 hq
          exact fun covers => absurd (Nat.le_trans start covers.1) (Nat.not_le.2 below)
        · have := behind x hx
          omega
      · obtain ⟨x, hx, rfl⟩ := List.mem_map.1 hf
        exact behind x hx
  · cases run

end Object

/-! ## Places of globals -/

namespace GlobalSlot

/-- What is placed for a global: a home, and a staging slot beside a
register. -/
def places (g : GlobalSlot) : List Holding := g.home :: g.stage?.toList

theorem mem_places {gs : List GlobalSlot} {g : GlobalSlot} (hg : g ∈ gs) {x : Holding} (hx : x ∈ g.places) :
    x ∈ homesOf gs ++ stagesOf gs := by
  rcases List.mem_cons.1 hx with rfl | hx
  · exact List.mem_append_left _ (List.mem_map_of_mem hg)
  · exact List.mem_append_right _ (List.mem_filterMap.2 ⟨g, hg, Option.mem_toList.1 hx⟩)

/-- **The places of different globals lie apart.** -/
theorem places_apart {gs : List GlobalSlot} (apart : (homesOf gs ++ stagesOf gs).Pairwise Holding.Apart) :
    gs.Pairwise fun g h => ∀ x ∈ g.places, ∀ y ∈ h.places, x.Apart y := by
  obtain ⟨homes, stages, across⟩ := List.pairwise_append.1 apart
  refine ((List.pairwise_map.1 homes).and (List.pairwise_filterMap.1 stages)).imp_of_mem ?_
  rintro g h hg hh ⟨home, stage⟩ x hx y hy
  have homeOf {k : GlobalSlot} (hk : k ∈ gs) : k.home ∈ homesOf gs := List.mem_map_of_mem hk
  have stageOf {k : GlobalSlot} (hk : k ∈ gs) {z : Holding} (hz : z ∈ k.stage?.toList) : z ∈ stagesOf gs :=
    List.mem_filterMap.2 ⟨k, hk, Option.mem_toList.1 hz⟩
  rcases List.mem_cons.1 hx with rfl | hx <;> rcases List.mem_cons.1 hy with rfl | hy
  · exact home
  · exact across _ (homeOf hg) _ (stageOf hh hy)
  · exact (across _ (homeOf hh) _ (stageOf hg hx)).symm
  · exact stage _ (Option.mem_toList.1 hx) _ (Option.mem_toList.1 hy)

/-- **The host reaches one of the places of a global**, which is large
enough for its type. -/
theorem Placed.host {g : GlobalSlot} (h : g.Placed) :
    ∃ ty, (ty, Location.globalMemory g.toObject.offset) ∈ g.places ∧ g.toObject.ty.size ≤ ty.size := by
  cases h with
  | memory offset home staging =>
    have object : g.toObject = ⟨g.name, g.ty, .memory offset, offset, g.intrinsic⟩ := by rw [toObject, home]
    refine ⟨g.ty, List.mem_cons.2 (.inl ?_), Nat.le_of_eq (by rw [object])⟩
    rw [GlobalSlot.home, object, home]
  | register c id offset pool ofTy home staging aligned =>
    have object : g.toObject = ⟨g.name, g.ty, .register, offset, g.intrinsic⟩ := by
      rw [toObject, home, staging]
      cases c <;> rfl
    refine ⟨.vec4, List.mem_cons_of_mem _ ?_, ?_⟩
    · rw [object, stage?, staging]
      exact List.mem_singleton_self _
    · have held := (Regime.words_of_class ofTy).2.1
      have saved : c.spillSize ≤ Ty.size .vec4 := by cases c <;> decide
      rw [object]
      exact Nat.le_trans held saved

end GlobalSlot

/-- A global of an object without its place. -/
def ObjectGlobal.description (g : ObjectGlobal) : String × Ty × Bool := (g.name, g.ty, g.intrinsic)

theorem GlobalSlot.description_toObject (g : GlobalSlot) : g.toObject.description = g.description := by
  unfold toObject
  split <;> rfl

/-- **Two globals have different names.** -/
theorem Declarations.nodup_globalVariables {d : Declarations} (sound : d.Sound) :
    (d.globalVariables.map Symbol.name).Nodup := by
  refine List.pairwise_map.2 (List.Pairwise.filter _ (List.pairwise_filterMap.2 ?_))
  have ids : d.symbols.globals.Nodup := List.nodup_range.filter _
  refine ids.imp_of_mem fun {i j} hi hj differ v hv w hw same => differ ?_
  obtain ⟨v', found, scope⟩ := Lower.mem_globals.1 hi
  obtain ⟨w', found', scope'⟩ := Lower.mem_globals.1 hj
  rw [hv] at found
  rw [hw] at found'
  cases found
  cases found'
  have first := sound.named i v hv scope
  rw [same, sound.named j w hw scope'] at first
  exact (Option.some.inj first).symm

/-! ## Furnished objects -/

/-- The host reaches different bytes for two globals. -/
def ObjectGlobal.Apart (g h : ObjectGlobal) : Prop :=
  g.offset + g.ty.size ≤ h.offset ∨ h.offset + h.ty.size ≤ g.offset

instance : Std.Symm ObjectGlobal.Apart := ⟨fun _ _ => Or.symm⟩

/-- **The host finds each global by its name**, and in a place of its own:
apart from the other globals, in front of all constants, and within the
global region. -/
structure Object.Furnished (o : Object) (globalSize : Nat) : Prop where
  distinct : (o.globals.map ObjectGlobal.name).Nodup
  apart : o.globals.Pairwise ObjectGlobal.Apart
  inside : ∀ g ∈ o.globals, g.offset + g.ty.size ≤ globalSize
  constants : ∀ g ∈ o.globals, ∀ c ∈ o.constants.slots, g.offset + g.ty.size ≤ c.2
  room : globalSize ≤ o.block.size

namespace Object

variable {p : Program} {s : Shader} {u : LoweringState} {floor : Nat} {o : Object}

/-- **Every object that was built is furnished**: its globals are the global
variables of the shader, and they start at zero. -/
theorem furnished_of_build (lowered : p.Lowered s u) (run : build p floor = .ok o) :
    o.Furnished p.globalSize ∧
      o.globals.map ObjectGlobal.description = s.declarations.globalVariables.map Symbol.description ∧
      ∀ g ∈ o.globals, o.block.getBytes g.offset g.ty.size = List.replicate g.ty.size 0 := by
  obtain ⟨⟨b, filled, spares⟩, globals, constants, -, -⟩ := of_build run
  have objects : o.globals = p.globals.map GlobalSlot.toObject := by
    rw [mapM_eq_ok fun g hg => (lowered.each g hg).1.globalOfSlot_eq] at globals
    exact (Except.ok.inj globals).symm
  have described : o.globals.map ObjectGlobal.description =
      s.declarations.globalVariables.map Symbol.description := by
    rw [objects, List.map_map, ← lowered.described]
    exact List.map_congr_left fun g _ => g.description_toObject
  have names : o.globals.map ObjectGlobal.name = s.declarations.globalVariables.map Symbol.name := by
    have first := congrArg (List.map Prod.fst) described
    rwa [List.map_map, List.map_map] at first
  have pieces := Block.spares_of_writes ((Object.writeConstants_eq _ _).symm.trans filled)
  -- A global that lives in a register has its bytes in its staging, so each has a place
  -- in the global region.
  have host (g : ObjectGlobal) (hg : g ∈ o.globals) : ∃ slot ∈ p.globals, g = slot.toObject ∧
      ∃ ty, (ty, Location.globalMemory g.offset) ∈ slot.places ∧ g.ty.size ≤ ty.size := by
    rw [objects] at hg
    obtain ⟨slot, hslot, rfl⟩ := List.mem_map.1 hg
    exact ⟨slot, hslot, rfl, (lowered.each slot hslot).1.host⟩
  have inside (g : ObjectGlobal) (hg : g ∈ o.globals) : g.offset + g.ty.size ≤ p.globalSize := by
    obtain ⟨slot, hslot, -, ty, place, fits⟩ := host g hg
    have := lowered.places_inside (GlobalSlot.mem_places hslot place)
    omega
  -- Constants were given out before or after a global, never over it.
  have behind (g : ObjectGlobal) (hg : g ∈ o.globals) (c : Constant × Nat) (hc : c ∈ p.constants.slots) :
      g.offset + g.ty.size ≤ c.2 := by
    obtain ⟨slot, hslot, -, ty, place, fits⟩ := host g hg
    have := lowered.behind ⟨.global, g.offset, ty.size⟩
      (mem_slotsOf.2 ⟨_, GlobalSlot.mem_places hslot place, rfl⟩) c hc
    simp only [Slot.stop] at this
    omega
  refine ⟨⟨?_, ?_, inside, ?_, ?_⟩, described, fun g hg => ?_⟩
  · rw [names]
    exact Declarations.nodup_globalVariables lowered.typed.sound
  · rw [objects]
    refine List.pairwise_map.2 ((GlobalSlot.places_apart lowered.standing.apart).imp_of_mem ?_)
    intro g h hg hh apart
    obtain ⟨ty, place, fits⟩ := (lowered.each g hg).1.host
    obtain ⟨ty', place', fits'⟩ := (lowered.each h hh).1.host
    have := apart _ place _ place'
    simp only [Holding.Apart, Location.Apart] at this
    rw [ObjectGlobal.Apart]
    omega
  · rwa [constants]
  · rw [spares.size, pieces.size]
    obtain ⟨ordered, -, -⟩ := p.objectLayout_ordered floor
    have := (List.pairwise_cons.1 ordered).1 ((p.objectLayout floor).localOffset, (p.objectLayout floor).localSize)
      (by simp)
    have := Block.size_new ((p.objectLayout floor).localOffset + (p.objectLayout floor).localSize)
    simp only at *
    omega
  · have below := inside g hg
    rw [spares.getBytes fun k _ high => by omega, pieces.getBytes, Block.getBytes_new]
    intro k low high q hq covers
    obtain ⟨c, hc, rfl⟩ := List.mem_map.1 hq
    have := behind g hg c hc
    have := covers.1
    simp only at this
    omega

end Object

end Shading
