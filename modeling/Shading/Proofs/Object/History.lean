import Shading.Proofs.Object.Runs
import Shading.Proofs.Object.Store

/-!
# What an object goes through

Between its calls the host executes an object. An execution may change the
globals in memory, but a global in a register has its value in a staging
slot, which is sealed: only the host changes it (`Object.Kept`). So each
execution starts its body with what the host has written last in the
registers of the globals, whatever earlier executions assigned there
(`Program.restarts_from_staging`).
-/

namespace Shading

open LoweringState Regime Relation

/-! ## Runs to the body -/

namespace Program.Running

variable {p : Program} {l : ObjectLayout} {f : CompiledFunction} {entry : Nat} {m : Machine} {rsqrt : Word → Word}

/-- **Every execution comes to its body.** -/
theorem exists_body (site : p.Site l f entry) : ∀ {m : Machine}, p.Running l f entry m → m.ip ≤ entry + 5 →
    ∃ a, ReflTransGen (Machine.Next rsqrt) m a ∧ a.ip = entry + 5 := by
  intro m running front
  -- The induction is on the way that is left.
  induction left : l.localOffset - progressAt entry m.ip using Nat.strongRecOn generalizing m with
  | ind n ih =>
    by_cases there : m.ip = entry + 5
    · exact ⟨m, .refl, there⟩
    · obtain ⟨m', step, continues⟩ := running.step_before site (by omega) rsqrt
      have ahead := continues.ahead
      have inside := running.progressAt_lt site
      obtain ⟨a, reaches, ip⟩ := ih _ (by omega) continues.running (continues.enters (by omega)) rfl
      exact ⟨a, .head step reaches, ip⟩

/-- **What the registers hold where the body starts.** -/
theorem loaded (running : p.Running l f entry m) (site : p.Site l f entry) (ip : m.ip = entry + 5) :
    (∀ g ∈ p.staged, g.Loaded m) ∧ (m.general64 localBaseRegister).toNat = m.base + l.localOffset := by
  cases running.stage with
  | called start stack => omega
  | loading at_ stack loaded localBase =>
    have := Nat.lt_of_lt_of_le (at_.inside site.trampoline).2 site.behind
    omega
  | body at_ stack localBase loaded => exact ⟨loaded ip, localBase⟩

end Program.Running

/-! ## Histories -/

/-- **An execution of an object** as far as it has come, which need not be to
its end: its accesses through address registers have stayed in containers,
and what it has written stands in the block. -/
inductive Object.Executes (p : Program) (l : ObjectLayout) (t : Object) : Object → Prop
  | upTo {h : Host} {entry : Nat} {a : Machine} (found : t.entry? = some entry)
      (whole : h.base + t.block.size ≤ 2 ^ 63) (keeps : p.Keeps l h.rsqrt (t.machine h entry))
      (reaches : ReflTransGen (Machine.Next h.rsqrt) (t.machine h entry) a) :
      Executes p l t { t with block := a.block }

/-- **What an object goes through**: calls of the host, and executions. -/
inductive Object.History (p : Program) (l : ObjectLayout) (o : Object) : List HostCall → Object → Prop
  | built : History p l o [] o
  | call {calls : List HostCall} {t : Object} (before : History p l o calls t) (c : HostCall) :
      History p l o (calls ++ [c]) (t.after c)
  | execute {calls : List HostCall} {t t' : Object} (before : History p l o calls t) (executes : Object.Executes p l t t') :
      History p l o calls t'

/-- An object with its entry point in its place. -/
structure Object.Sited (o : Object) (p : Program) (l : ObjectLayout) (f : CompiledFunction) (entry : Nat) : Prop where
  built : o.Built p l
  site : p.Site l f entry
  deployed : p.Deployed l f entry o.block
  found : o.entry? = some entry

/-- **The sixteen bytes of a staging slot** that holds some bytes. -/
def padded (bytes : List UInt8) : List UInt8 := bytes ++ List.replicate (16 - bytes.length) 0

/-- Bytes that are written at the start of a staging slot leave its padding. -/
theorem Block.Wrote.getBytes_padded {b b' : Block} {start : Nat} {bytes held : List UInt8}
    (wrote : b.Wrote [(start, bytes)] b') (same : b.getBytes start 16 = padded held)
    (length : bytes.length = held.length) (small : bytes.length ≤ 16) : b'.getBytes start 16 = padded bytes := by
  obtain ⟨rest, whole⟩ : ∃ rest, 16 = bytes.length + rest := ⟨16 - bytes.length, by omega⟩
  have pad : 16 - bytes.length = rest := by omega
  have padding : b.getBytes (start + bytes.length) rest = List.replicate rest 0 := by
    rw [whole, Block.getBytes_add, padded, ← length, pad] at same
    exact (List.append_inj same (by simp [length])).2
  have kept : b'.getBytes (start + bytes.length) rest = b.getBytes (start + bytes.length) rest :=
    wrote.spares.getBytes fun k low high q hq => by
      obtain rfl := List.mem_singleton.1 hq
      simp only [Piece.Covers, Piece.stop]
      omega
  have front : b'.getBytes start bytes.length = bytes := wrote.getBytes (List.mem_singleton_self (start, bytes))
  rw [whole, Block.getBytes_add, front, kept, padding, padded, pad]

namespace GlobalSlot

variable {g : GlobalSlot} {staging : Nat}

theorem ty_toObject (g : GlobalSlot) : g.toObject.ty = g.ty := congrArg (fun x => x.2.1) g.description_toObject

/-- **A global with a staging slot** is reached there by the host, and fits in
it. -/
theorem Placed.staged (h : g.Placed) (some : g.staging = some (.globalMemory staging)) :
    ((.vec4, .globalMemory staging) : Holding) ∈ g.places ∧ g.toObject.offset = staging ∧ g.ty.size ≤ 16 := by
  cases h with
  | memory offset home none =>
    rw [none] at some
    cases some
  | register c id offset pool ofTy home staged aligned =>
    rw [staged] at some
    cases some
    have held := (words_of_class ofTy).2.1
    have saved : c.spillSize ≤ 16 := by cases c <;> decide
    refine ⟨List.mem_cons_of_mem _ ?_, ?_, Nat.le_trans held saved⟩
    · rw [stage?, staged]
      exact List.mem_singleton_self _
    · rw [toObject, home, staged]
      cases c <;> rfl

end GlobalSlot

/-- **What the history of an object keeps**: its code, its constants, and in
the staging slot of each global what the host wrote last. -/
structure Object.Kept (p : Program) (l : ObjectLayout) (o : Object) (calls : List HostCall) (t : Object) : Prop where
  /-- Nothing but the block has changed. -/
  rest : t = { o with block := t.block }
  size : t.block.size = o.block.size
  code : ∀ k, l.trampolineOffset ≤ k → k < l.localOffset → t.block.get k = o.block.get k
  constants : ∀ c ∈ p.constants.slots, t.block.getBytes c.2 c.1.size = o.block.getBytes c.2 c.1.size
  staged : ∀ slot ∈ p.globals, ∀ staging, slot.staging = some (.globalMemory staging) →
    t.block.getBytes staging 16 = padded (slot.toObject.toHost.heldAfter calls)

namespace Object.Kept

variable {p : Program} {l : ObjectLayout} {f : CompiledFunction} {entry : Nat} {o t t' : Object} {calls : List HostCall}

/-- The entry point stays. -/
theorem found (h : Kept p l o calls t) : t.entry? = o.entry? := by
  rw [h.rest]
  rfl

theorem furnished (h : Kept p l o calls t) {globalSize : Nat} (furnished : o.Furnished globalSize) :
    t.Furnished globalSize := by
  rw [h.rest]
  exact { furnished with room := h.size ▸ furnished.room }

/-- An execution runs the code of the object. -/
theorem running (h : Kept p l o calls t) (sited : o.Sited p l f entry) {host : Host}
    (whole : host.base + t.block.size ≤ 2 ^ 63) : p.Running l f entry (t.machine host entry) :=
  .start (sited.deployed.of_same sited.site h.size h.code) whole

/-- **An execution keeps what is sealed.** -/
theorem execute (h : Kept p l o calls t) (sited : o.Sited p l f entry) (executes : Executes p l t t') :
    t.block.Spares (p.Sealed l) t'.block := by
  cases executes with
  | upTo found whole keeps reaches =>
    rw [h.found, sited.found] at found
    cases found
    exact ((h.running sited whole).reaches sited.site keeps reaches).2.2

/-- **Code without operands at address registers** is executed to its end. -/
theorem exists_end (h : Kept p l o calls t) (sited : o.Sited p l f entry)
    (direct : ∀ e ∈ f.assembly.entries, e.isDirect = true) (host : Host) (whole : host.base + t.block.size ≤ 2 ^ 63) :
    p.Keeps l host.rsqrt (t.machine host entry) ∧
      ∃ a, (∀ b, ¬ Machine.Next host.rsqrt a b) ∧ Executes p l t { t with block := a.block } := by
  have running := h.running sited whole
  have keeps : p.Keeps l host.rsqrt (t.machine host entry) :=
    running.keeps_of_direct sited.site fun e he => direct e (List.mem_of_mem_tail he)
  have found : t.entry? = some entry := h.found.trans sited.found
  refine ⟨keeps, ?_⟩
  cases running.ends sited.site keeps (Nat.le_add_left l.localOffset _) with
  | returns reaches returns run =>
    obtain ⟨k, at_⟩ := returns.at_
    have holds := at_.holds.entry at_.here
    rw [← at_.ip] at holds
    refine ⟨_, fun b next => ?_, .upTo found whole keeps reaches⟩
    rw [Machine.Next, (Machine.step_ret holds).1 returns.stack] at next
    cases next
  | faults reaches step ofData run =>
    refine ⟨_, fun b next => ?_, .upTo found whole keeps reaches⟩
    rw [Machine.Next, step] at next
    cases next

theorem executed (h : Kept p l o calls t) (sited : o.Sited p l f entry) (executes : Executes p l t t') :
    Kept p l o calls t' := by
  have spares := h.execute sited executes
  have rest : t' = { t with block := t'.block } := by
    cases executes
    rfl
  refine ⟨by rw [rest, h.rest], spares.size.trans h.size, fun k low high => ?_, fun c hc => ?_,
    fun slot hslot staging some => ?_⟩
  · exact (spares.same k (.code low high)).trans (h.code k low high)
  · exact (spares.getBytes fun k low high => .constant hc low high).trans (h.constants c hc)
  · rw [← h.staged slot hslot staging some]
    have mem : (⟨slot.location, staging⟩ : StagedGlobal) ∈ p.staged :=
      List.mem_filterMap.2 ⟨slot, hslot, by rw [some]; rfl⟩
    exact spares.getBytes fun k low high => .staging mem low high

/-- **A call of the host** stores in one staging slot at most. -/
theorem called {s : Shader} {u : LoweringState} (h : Kept p l o calls t) (lowered : p.Lowered s u)
    (built : o.Built p l) (furnished : o.Furnished p.globalSize) (behind : p.globalSize ≤ l.trampolineOffset)
    (c : HostCall) : Kept p l o (calls ++ [c]) (t.after c) := by
  have furnished' := h.furnished furnished
  have globals : t.globals = p.globals.map GlobalSlot.toObject := by rw [h.rest, ← built.globals]
  have constants : t.constants = p.constants := by rw [h.rest, ← built.constants]
  have named {slot : GlobalSlot} (hslot : slot ∈ p.globals) : slot.toObject ∈ t.globals :=
    globals ▸ List.mem_map_of_mem hslot
  -- A call fails and changes nothing, or it writes the bytes of one global, which are
  -- away from the code, the constants and all other globals.
  rcases furnished'.after_cases c with ⟨idle, same⟩ | ⟨g, hg, bytes, stored, length, others, wrote, after⟩
  · rw [same]
    refine { h with staged := fun slot hslot staging some => ?_ }
    rw [HostVariable.heldAfter_concat, idle _ (named hslot)]
    exact h.staged slot hslot staging some
  · have inside := furnished'.inside g hg
    have away {k : Nat} (out : k < g.offset ∨ g.offset + g.ty.size ≤ k) :
        (t.block.setBytes g.offset bytes).get k = t.block.get k :=
      wrote.spares.same k fun q hq => by
        obtain rfl := List.mem_singleton.1 hq
        simp only [Piece.Covers, Piece.stop, length]
        omega
    rw [after]
    refine ⟨by rw [h.rest], wrote.size.trans h.size, fun k low high => ?_, fun x hx => ?_,
      fun slot hslot staging some => ?_⟩
    · exact (away (.inr (by omega))).trans (h.code k low high)
    · have above := furnished'.constants g hg x (constants.symm ▸ hx)
      exact (Block.getBytes_congr fun k low _ => away (.inr (by omega))).trans (h.constants x hx)
    · obtain ⟨place, offset, small⟩ := (lowered.each slot hslot).1.staged some
      have before := h.staged slot hslot staging some
      by_cases same : slot.toObject = g
      · obtain rfl := same
        rw [HostVariable.heldAfter_concat, stored, Option.getD_some]
        rw [GlobalSlot.ty_toObject] at length
        rw [offset] at wrote ⊢
        exact wrote.getBytes_padded before (by
          rw [HostVariable.length_heldAfter, ObjectGlobal.ty_toHost, GlobalSlot.ty_toObject, length]) (length ▸ small)
      · -- The places of different globals lie apart.
        rw [HostVariable.heldAfter_concat, others _ (named hslot) same, Option.getD_none, ← before]
        rw [globals] at hg
        obtain ⟨slot', hslot', rfl⟩ := List.mem_map.1 hg
        obtain ⟨ty, place', fits⟩ := (lowered.each slot' hslot').1.host
        have symm : Std.Symm fun g h : GlobalSlot => ∀ x ∈ g.places, ∀ y ∈ h.places, x.Apart y :=
          ⟨fun _ _ apart x hx y hy => (apart y hy x hx).symm⟩
        have apart := (GlobalSlot.places_apart lowered.standing.apart).forall hslot hslot'
          (fun eq => same (congrArg _ eq)) _ place _ place'
        have size : Ty.size .vec4 = 16 := rfl
        simp only [Holding.Apart, Location.Apart] at apart
        exact Block.getBytes_congr fun k low high => away (by omega)

end Object.Kept

namespace Program.Lowered

variable {p : Program} {s : Shader} {u : LoweringState} {floor : Nat} {o t : Object} {f : CompiledFunction}
  {entry : Nat} {calls : List HostCall}

/-- **An object that was built has its entry point in its place.** -/
theorem exists_sited (h : p.Lowered s u) (run : Object.build p floor = .ok o)
    (small : (p.objectLayout floor).localOffset + (p.objectLayout floor).localSize ≤ 2 ^ 32) :
    ∃ f entry, (f, entry) ∈ p.functions.zip (p.objectLayout floor).functionOffsets ∧ f.isExported = true ∧
      f.name = entryPoint ∧ o.Sited p (p.objectLayout floor) f entry := by
  have short := short_of_build floor small
  obtain ⟨built, -⟩ := h.built_of_build run short
  obtain ⟨f, entry, mem, exported, named, found⟩ :=
    built.exists_entry (p.objectLayout_ordered floor).2.2 (Object.main_of_build run)
  exact ⟨f, entry, mem, exported, named, built, h.site run small mem, built.deployed h short mem, found⟩

/-- Staging slots start at zero. -/
theorem staged_zero (h : p.Lowered s u) (built : o.Built p (p.objectLayout floor)) {slot : GlobalSlot}
    (hslot : slot ∈ p.globals) {staging : Nat} (some : slot.staging = some (.globalMemory staging)) :
    o.block.getBytes staging 16 = List.replicate 16 0 := by
  have place := GlobalSlot.mem_places hslot ((h.each slot hslot).1.staged some).1
  have inside := h.places_inside place
  have size : Ty.size .vec4 = 16 := rfl
  have bounds := (objectLayout_bounds p floor).1
  rw [← Block.getBytes_new ((p.objectLayout floor).localOffset + (p.objectLayout floor).localSize) staging 16]
  refine Block.getBytes_congr fun k low high => built.wrote.outside k ?_
  rintro q hq ⟨low', -⟩
  rcases List.mem_append.1 hq with hq | hq
  · obtain ⟨c, hc, rfl⟩ := List.mem_map.1 hq
    have above := h.behind ⟨.global, staging, Ty.size .vec4⟩ (mem_slotsOf.2 ⟨_, place, rfl⟩) c hc
    simp only [Slot.stop] at above low'
    omega
  · rcases List.mem_cons.1 hq with rfl | hq
    · simp only at low'
      omega
    · obtain ⟨x, hx, rfl⟩ := List.mem_map.1 hq
      have := (function_bounds p floor hx).1
      simp only at low'
      omega

/-- **What an object goes through keeps** its code, its constants and what the
host has written. -/
theorem kept (h : p.Lowered s u) (run : Object.build p floor = .ok o)
    (sited : o.Sited p (p.objectLayout floor) f entry) (history : Object.History p (p.objectLayout floor) o calls t) :
    Object.Kept p (p.objectLayout floor) o calls t := by
  induction history with
  | built =>
    refine ⟨rfl, rfl, fun _ _ _ => rfl, fun _ _ => rfl, fun slot hslot staging some => ?_⟩
    have small := ((h.each slot hslot).1.staged some).2.2
    rw [h.staged_zero sited.built hslot some, HostVariable.heldAfter_nil, padded, List.length_replicate,
      ObjectGlobal.ty_toHost, GlobalSlot.ty_toObject, List.replicate_append_replicate, Nat.add_sub_cancel' small]
  | call before c ih =>
    exact ih.called h sited.built (Object.furnished_of_build h run).1 (objectLayout_bounds p floor).1 c
  | execute before executes ih => exact ih.executed sited executes

end Program.Lowered

/-- **Direct operands keep to their slots**, in the code of every function of
a program, and so no number of executions changes the code, the constants or
the staging slots of an object, whatever the host has called before. -/
theorem Program.keeps_to_slots {o : Options} {source : String} {p : Program} (compiled : compile o source = .ok p) :
    (∃ shader, Shader.parse o.stage source = .ok shader ∧
      ∀ f ∈ p.functions, ∃ g h c body s u w t, .function g f.name c body ∈ shader.items ∧
        shader.declarations.functions.get? g = some h ∧ Lower.Runs s g h body u w t ∧ f.assembly = t.assembly ∧
        f.transcript.reverse = t.transcript ∧ f.KeepsToSlots p g body t) ∧
    ∀ floor object, Object.build p floor = .ok object →
      (p.objectLayout floor).localOffset + (p.objectLayout floor).localSize ≤ 2 ^ 32 →
      ∀ calls t t', object.History p (p.objectLayout floor) calls t →
        ReflTransGen (Object.Executes p (p.objectLayout floor)) t t' →
        t.block.Spares (p.Sealed (p.objectLayout floor)) t'.block := by
  obtain ⟨shader, last, parsed, lowered⟩ := lowered_of_compile compiled
  refine ⟨⟨shader, parsed, fun f hf => ?_⟩, fun floor object build small calls t t' history executes => ?_⟩
  · obtain ⟨g, c, body, s, v, t, item, -, written, precedes⟩ := lowered.functions f hf
    obtain ⟨h, u, w, known, runs⟩ := written.runs
    exact ⟨g, h, c, body, s, u, w, t, item, known, runs, written.assembly.trans written.coded.assembly.symm,
      by rw [written.transcript, List.reverse_reverse], written.keepsToSlots lowered precedes⟩
  · obtain ⟨f, entry, -, -, -, sited⟩ := lowered.exists_sited build small
    -- The induction is on the executions, each of which has its history.
    have both : object.History p (p.objectLayout floor) calls t' ∧
        t.block.Spares (p.Sealed (p.objectLayout floor)) t'.block := by
      induction executes with
      | refl => exact ⟨history, .refl _⟩
      | tail before execution ih =>
        have kept := lowered.kept build sited ih.1
        exact ⟨.execute ih.1 execution, ih.2.trans (kept.execute sited execution)⟩
    exact both.2

theorem Program.keeps_to_slots_directSource : ∃ p object t, compile sampleOptions directSource = .ok p ∧
    Object.build p 256 = .ok object ∧ (∀ f ∈ p.functions, ∃ g body t, f.KeepsToSlots p g body t) ∧
    Object.Executes p (p.objectLayout 256) object t ∧ object.block.Spares (p.Sealed (p.objectLayout 256)) t.block := by
  obtain ⟨p, compiled, main, small, direct, -⟩ := compiles_directSource
  obtain ⟨_, _, -, lowered⟩ := lowered_of_compile compiled
  obtain ⟨object, build, built⟩ := lowered.built main small
  obtain ⟨f, entry, mem, -, -, sited⟩ := lowered.exists_sited build (by omega)
  have kept := lowered.kept build sited .built
  obtain ⟨-, a, -, executes⟩ := kept.exists_end sited (direct f (List.of_mem_zip mem).1) {} (built.whole (by omega))
  obtain ⟨⟨shader, -, functions⟩, spares⟩ := keeps_to_slots compiled
  refine ⟨p, object, _, compiled, build, fun f hf => ?_, executes,
    spares 256 object build (by omega) _ _ _ .built (.single executes)⟩
  obtain ⟨g, _, _, body, _, _, _, t, -, -, -, -, -, keeps⟩ := functions f hf
  exact ⟨g, body, t, keeps⟩

/-- **Globals in registers restart from what the host wrote.** After any calls
of the host and any executions, each execution comes to its body, and there
the register of each global that lives in one holds what the host stored in
it last, or zero, with zeros above, and the base of the local region is in
its register. -/
theorem Program.restarts_from_staging {o : Options} {source : String} {p : Program} {floor : Nat} {object : Object}
    (compiled : compile o source = .ok p) (build : Object.build p floor = .ok object)
    (small : (p.objectLayout floor).localOffset + (p.objectLayout floor).localSize ≤ 2 ^ 32)
    {calls : List HostCall} {t : Object} (history : object.History p (p.objectLayout floor) calls t) {h : Host}
    {entry : Nat} (found : t.entry? = some entry) (whole : h.base + t.block.size ≤ 2 ^ 63)
    (keeps : p.Keeps (p.objectLayout floor) h.rsqrt (t.machine h entry)) :
    (∃ a, ReflTransGen (Machine.Next h.rsqrt) (t.machine h entry) a ∧ a.ip = entry + 5) ∧
      ∀ a, ReflTransGen (Machine.Next h.rsqrt) (t.machine h entry) a → a.ip = entry + 5 →
        (∀ slot ∈ p.globals, ∀ c id, slot.location = RegisterClass.location c id →
          a.InRegister (padded (slot.toObject.toHost.heldAfter calls)) id c) ∧
        (a.general64 localBaseRegister).toNat = h.base + t.localOffset := by
  obtain ⟨shader, u, -, lowered⟩ := lowered_of_compile compiled
  obtain ⟨f, entry', -, -, -, sited⟩ := lowered.exists_sited build small
  have kept := lowered.kept build sited history
  obtain rfl : entry' = entry := Option.some.inj ((kept.found.trans sited.found).symm.trans found)
  have running := kept.running sited whole
  refine ⟨running.exists_body sited.site (Nat.le_add_right _ _), fun a reaches ip => ?_⟩
  obtain ⟨there, base, spares⟩ := running.reaches sited.site keeps reaches
  obtain ⟨loaded, localBase⟩ := there.loaded sited.site ip
  refine ⟨fun slot hslot c id home => ?_, ?_⟩
  · cases (lowered.each slot hslot).1 with
    | memory offset home' none =>
      rw [home] at home'
      cases c <;> cases home'
    | register c' id' staging pool ofTy home' some aligned =>
      have mem : (⟨slot.location, staging⟩ : StagedGlobal) ∈ p.staged :=
        List.mem_filterMap.2 ⟨slot, hslot, by rw [some]; rfl⟩
      have held := loaded _ mem c id home
      have same : a.block.getBytes staging 16 = t.block.getBytes staging 16 :=
        spares.getBytes fun k low high => .staging mem low high
      rwa [same, kept.staged slot hslot staging some] at held
  · have offset : t.localOffset = (p.objectLayout floor).localOffset := by
      rw [kept.rest]
      exact sited.built.localOffset
    rw [localBase, base, offset]
    rfl

theorem Program.restarts_from_staging_directSource : ∃ p object t t' entry a,
    compile sampleOptions directSource = .ok p ∧ Object.build p 256 = .ok object ∧
    t = object.after (.write "i" (.int 5)) ∧ Object.Executes p (p.objectLayout 256) t t' ∧
    t'.entry? = some entry ∧ ReflTransGen (Machine.Next Binary32.rsqrt) (t'.machine {} entry) a ∧
    a.ip = entry + 5 ∧ a.general64 0 = 5 := by
  obtain ⟨p, compiled, main, small, direct, slot, hslot, named, ty, home⟩ := compiles_directSource
  obtain ⟨_, _, -, lowered⟩ := lowered_of_compile compiled
  obtain ⟨object, build, built⟩ := lowered.built main small
  obtain ⟨f, entry, mem, -, -, sited⟩ := lowered.exists_sited build (by omega)
  have direct := direct f (List.of_mem_zip mem).1
  -- The host writes, and the object is executed to the end.
  have written : object.History p (p.objectLayout 256) [.write "i" (.int 5)] _ := .call .built _
  have kept := lowered.kept build sited written
  obtain ⟨-, b, -, executes⟩ := kept.exists_end sited direct {} (kept.size ▸ built.whole (by omega))
  have executed : object.History p (p.objectLayout 256) [.write "i" (.int 5)] _ := .execute written executes
  have kept' := lowered.kept build sited executed
  have whole : Host.base {} + _ ≤ 2 ^ 63 := kept'.size ▸ built.whole (by omega)
  obtain ⟨keeps, -⟩ := kept'.exists_end sited direct {} whole
  have found := kept'.found.trans sited.found
  obtain ⟨⟨a, reaches, ip⟩, holds⟩ :=
    restarts_from_staging compiled build (by omega) executed found whole keeps
  refine ⟨p, object, _, _, entry, a, compiled, build, rfl, executes, found, reaches, ip, ?_⟩
  have held := (holds a reaches ip).1 slot hslot .general 0 home
  have last : slot.toObject.toHost.heldAfter [.write "i" (.int 5)] = [5, 0, 0, 0] := by
    refine @HostVariable.heldAfter_of_last _ _ [] _ [] (if_pos ⟨?_, ?_⟩) (by simp)
    · exact (congrArg Prod.fst slot.description_toObject).trans named
    · rw [ObjectGlobal.ty_toHost, GlobalSlot.ty_toObject, ty]
      rfl
  rw [last] at held
  exact held.trans (by decide)

end Shading
