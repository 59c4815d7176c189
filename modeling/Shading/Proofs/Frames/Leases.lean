import Shading.Proofs.Frames.Conduct

/-!
# Leases of code that keeps to a permit

A borrowed register is saved before it is used, and loaded again when its
lease ends, so that what was there at the start is there at the end.
-/

namespace Shading

open LoweringState Permit Regime

namespace Lower

variable {P : Permit} {s₁ s t : LoweringState} {registers registers' : List Location} {held held' : List Lease}

/-- The slot of a lease among the slots that registers are saved in. -/
theorem spills_leased {x : Lease} {c : RegisterClass} {id o : Nat} (location : x.location = c.location id)
    (spill : x.spill = some (.globalMemory o)) (avoid : List Location) :
    Transcript.spills [.leased x avoid] = [⟨.global, o, c.spillSize⟩] := by
  simp [Transcript.spills, location, spill, Location.slot?]

/-- A register that is leased stands last among the leased ones. -/
theorem leased_lease {l l' : Layout} {c : RegisterClass} {avoid : List Location} {x : Lease}
    (run : l.lease c avoid = .ok (x, l')) : l'.leased = l.leased ++ [x.location] := by
  unfold Layout.lease at run
  split at run
  · cases run
    cases c <;> rfl
  · split at run
    · cases run
      rfl
    · cases run

/-- The locations of the leases that go on when one ends. -/
theorem erase_locations {xs : List Lease} (nodup : (xs.map Lease.location).Nodup) {x : Lease} (hx : x ∈ xs) :
    (xs.map Lease.location).erase x.location = (xs.erase x).map Lease.location := by
  induction xs with
  | nil => cases hx
  | cons y ys ih =>
    obtain ⟨new, nodup⟩ := List.nodup_cons.1 nodup
    by_cases same : y = x
    · rw [same, List.map_cons, List.erase_cons_head, List.erase_cons_head]
    · have later : x ∈ ys := (List.mem_cons.1 hx).resolve_left (Ne.symm same)
      have other : y.location ≠ x.location := fun eq => new (eq ▸ List.mem_map_of_mem later)
      rw [List.map_cons, List.erase_cons_tail (by simpa using other), List.erase_cons_tail (by simpa using same),
        List.map_cons, ih nodup later]

end Lower

namespace Permit.Kept

variable {P : Permit} {s t : LoweringState} {held : List Lease} {L : Nat} {m₀ m m' : Machine} {rsqrt : Word → Word}
  {x : Lease} {c : RegisterClass} {id o : Nat}

/-- **A free register is leased**: it is none of those that are kept. -/
theorem lease_free (kept : P.Kept s held L m₀ m) (none : x.spill = none) : P.Kept s (held ++ [x]) L m₀ m :=
  { kept with
    register := fun c id k pool notFree word notHeld =>
      kept.register c id k pool notFree word fun y hy => notHeld y (List.mem_append_left _ hy)
    saved := fun y hy c id o k location spill => by
      rcases List.mem_append.1 hy with hy | hy
      · exact kept.saved y hy c id o k location spill
      · rw [List.mem_singleton.1 hy, none] at spill
        cases spill }

/-- What the instruction that saves a register leaves outside its slot. -/
theorem get_of_save (whole : m.base + m.block.size ≤ Machine.addressCount) (inside : o + c.spillSize ≤ m.block.size)
    (run : m.perform rsqrt ⟨(Lower.spillWidth c).store, id, .globalAt o, []⟩ = .ok m') {k : Nat}
    (outside : ¬ (o ≤ k ∧ k < o + c.spillSize)) : m'.block.get k = m.block.get k := by
  refine Machine.perform_bytes run fun a _ address at_ => outside ?_
  rw [Machine.operandAddress?_globalAt rfl, Machine.address_global whole inside (by cases c <;> decide)] at address
  obtain rfl := Option.some.inj address
  have reach : (Lower.spillWidth c).store.reach = c.spillSize := by cases c <;> rfl
  simp only [Machine.bytesAt, reach] at at_
  omega

/-- **A borrowed register is saved** in a new slot, which lies above those of
the registers that are saved already. -/
theorem lease_saved (kept : P.Kept s held L m₀ m) (location : x.location = c.location id) (pool : id ∈ c.pool)
    (spill : x.spill = some (.globalMemory o)) (new : ∀ y ∈ held, y.location ≠ x.location)
    (above : ∀ y ∈ held, ∀ c' id' o', y.location = RegisterClass.location c' id' →
      y.spill = some (.globalMemory o') → o' + c'.spillSize ≤ o)
    (slots : t.spillsSince P.start = ⟨.global, o, c.spillSize⟩ :: s.spillsSince P.start)
    (whole : m.base + m.block.size ≤ Machine.addressCount) (inside : o + c.spillSize ≤ m.block.size)
    (run : m.perform rsqrt ⟨(Lower.spillWidth c).store, id, .globalAt o, []⟩ = .ok m') :
    P.Kept t (held ++ [x]) L m₀ m' := by
  obtain ⟨registers, words⟩ := Machine.perform_save whole inside run
  have frames := Machine.execute_frames run
  have content (c' : RegisterClass) (id' k : Nat) : m'.content c' id' k = m.content c' id' k := by
    cases c' <;> simp only [Machine.content, Machine.general32, Machine.general64, Machine.simd, registers]
  refine ⟨frames.base.trans kept.base, frames.size.trans kept.size, fun j small untouched => ?_,
    fun c' j k pool notFree word notHeld spared => ?_, fun y hy c' j o' k location' spill' notFree word spared => ?_,
    fun k out clear => ?_⟩
  · rw [← kept.wide j small untouched, Machine.general64, Machine.general64, registers]
  · rw [content]
    exact kept.register c' j k pool notFree word (fun y hy => notHeld y (List.mem_append_left _ hy)) spared
  · rcases List.mem_append.1 hy with hy | hy
    · -- The slot of another lease is below the new one.
      have below := above y hy c' j o' location' spill'
      rw [← kept.saved y hy c' j o' k location' spill' notFree word spared, Machine.wordAt, Machine.wordAt]
      refine congrArg wordOfBytes (Block.getBytes_congr fun i low high => get_of_save whole inside run ?_)
      rw [c'.spillSize_eq] at below
      omega
    · rw [List.mem_singleton.1 hy] at location' spill'
      obtain ⟨rfl, rfl⟩ := RegisterClass.location_inj (location.symm.trans location')
      obtain rfl := Location.globalMemory.inj (Option.some.inj (spill.symm.trans spill'))
      rw [words k word]
      exact kept.register c id k pool notFree word (fun y hy => location ▸ new y hy) spared
  · rw [slots] at clear
    rw [get_of_save whole inside run (clear ⟨.global, o, c.spillSize⟩ List.mem_cons_self)]
    exact kept.bytes k out fun slot hs => clear slot (List.mem_cons_of_mem _ hs)

/-- **A lease has ended**, and its register holds what it held at the start. -/
theorem release (kept : P.Kept s held L m₀ m) (location : x.location = c.location id)
    (own : ∀ k, id ∉ P.start.layout.free c → k < c.words → ¬ P.register c id k →
      m.content c id k = m₀.content c id k) : P.Kept s (held.erase x) L m₀ m := by
  refine { kept with
    register := fun d j k pool notFree word notHeld spared => ?_
    saved := fun y hy => kept.saved y (List.mem_of_mem_erase hy) }
  by_cases same : x.location = d.location j
  · obtain ⟨rfl, rfl⟩ := RegisterClass.location_inj (location.symm.trans same)
    exact own k notFree word spared
  · refine kept.register d j k pool notFree word (fun y hy => ?_) spared
    by_cases eq : y = x
    · exact eq ▸ same
    · exact notHeld y ((List.mem_erase_of_ne eq).2 hy)

end Permit.Kept

namespace Lower

variable {P : Permit} {s₁ s t : LoweringState} {registers registers' : List Location} {held held' : List Lease}

/-- **A register is leased**: a borrowed one is saved first. -/
theorem acquire_conducts (h : Conduct P s₁ s registers held) (c : RegisterClass) (avoid : List Location) :
    Results (acquire c avoid) s fun x t => Conduct P s₁ t registers (held ++ [x]) ∧
      ∃ id, s.layout.Grants t.layout c avoid x id := by
  have ok := h.leads.ok
  unfold acquire
  refine .bindGet ?_
  rcases Layout.lease_cases ok.layout c avoid with ⟨-, fails⟩ | ⟨x, l, id, leased, grants⟩
  · rw [fails]
    intro _ _ run
    cases run
  -- The leased registers are told in the order of their leases, the new one last.
  have order : l.leased = P.start.layout.leased ++ (held ++ [x]).map Lease.location := by
    rw [leased_lease leased, h.order, List.map_append, List.append_assoc]
    rfl
  rw [leased]
  refine .bind (.intro rfl ⟨rfl, rfl⟩ : Results (liftM (Except.ok (x, l))) s
    fun a t => (x, l) = a ∧ s = t) ?_
  rintro _ _ ⟨rfl, rfl⟩
  refine .bind (.modify rfl : Results (modify _) _ fun _ t => t = _) ?_
  rintro _ _ rfl
  refine .bind (.modify rfl : Results (record _) _ fun _ t => t = _) ?_
  rintro _ _ rfl
  have step := Leads.ofLayout ok grants.leads (.leased x avoid :: s.transcript)
  rw [addRegisters_nil] at step
  have leads := h.leads.trans step
  rw [List.append_nil] at leads
  rcases grants.spill with ⟨none, -⟩ | ⟨-, o, spill, above, stop, -⟩
  · -- The register was free: nothing is emitted.
    simp only [none]
    refine .pure ⟨h.still leads order step.follows [.leased x avoid] rfl (by simp [Transcript.spills, none]) rfl
      (fun y hy => ?_) fun _ _ _ _ kept => kept.lease_free none, id, grants⟩
    rcases List.mem_append.1 hy with hy | hy
    · exact .inl hy
    · exact .inr (List.mem_singleton.1 hy ▸ none)
  · -- The register is borrowed: an instruction saves it.
    simp only [spill]
    obtain ⟨text, run⟩ := emitStore_eq (s := { s with
      layout := l, transcript := .leased x avoid :: s.transcript }) (spillWidth c).store
      (rfl : operandOf (.globalMemory o) = .ok (.globalAt o))
      (grants.location ▸ registerField_location c id)
    refine .bind (.intro run rfl : Results _ _ fun _ t => t = _) ?_
    rintro _ _ rfl
    let i : Instruction Nat := ⟨(spillWidth c).store, id, .globalAt o, []⟩
    have listed : Transcript.spills [.emitted i l, .leased x avoid] = [⟨.global, o, c.spillSize⟩] :=
      spills_leased grants.location spill avoid
    refine .pure ⟨h.instruction (leads.step (leads_wrote leads.ok i text)) order
      (step.trans (leads_wrote step.ok i text)).follows [.emitted i l, .leased x avoid] rfl rfl ?_ ?_
      (.inr (by rintro _ ⟨⟩)) fun rsqrt L m₀ m m' comes starts kept run => ?_, id, grants⟩
    · rw [listed]
      rintro slot hs
      obtain rfl := List.mem_singleton.1 hs
      exact ⟨rfl, above, stop, fun k hk => .inl (Nat.le_trans (ok.pooled k hk).1 above)⟩
    · intro y hy c' id' o' location' spill'
      rcases List.mem_append.1 hy with hy | hy
      · exact .inr hy
      · rw [List.mem_singleton.1 hy] at location' spill'
        obtain ⟨rfl, rfl⟩ := RegisterClass.location_inj (grants.location.symm.trans location')
        obtain rfl := Location.globalMemory.inj (Option.some.inj (spill.symm.trans spill'))
        rw [listed]
        exact .inl (List.mem_singleton_self _)
    · refine kept.lease_saved grants.location grants.pool spill (fun y hy same => ?_) (fun y hy c' id' o' location' spill' => ?_)
        ?_ (kept.grounded comes.starts.suits).whole (kept.inside starts.suits (leads_wrote leads.ok i text).ok stop) run
      · exact grants.notLeased (grants.location ▸ same ▸ h.leads.layout.mem_leased hy)
      · obtain ⟨-, -, below, -⟩ := h.spills _ (h.slots y hy c' id' o' location' spill')
        exact Nat.le_trans below above
      · rw [spillsSince_append h.transcript [.emitted i l, .leased x avoid] rfl, listed]
        rfl

/-- A lease that ends hands out nothing. -/
theorem follows_release (x : Lease) (layout : t.layout = s.layout.release x) (constants : t.constants = s.constants) :
    s.Follows t := by
  obtain ⟨localRegion, globalRegion⟩ := Layout.regions_release s.layout x
  refine ⟨⟨Nat.le_of_eq ?_, Nat.le_of_eq ?_, Nat.le_of_eq ?_, fun c hc => constants ▸ hc⟩,
    fun c hc => .inl (constants ▸ hc)⟩
  · rw [globalTop, globalTop, layout, globalRegion]
  · rw [Layout.globalSize, Layout.globalSize, layout, globalRegion]
  · rw [Layout.localSize, Layout.localSize, layout, localRegion]

/-- The instruction that loads a register again writes the register of a
lease that is under way. -/
theorem reload_emits {x : Lease} {c : RegisterClass} {id : Nat} (hx : x ∈ held) (location : x.location = c.location id)
    (pool : id ∈ c.pool) (o : Nat) : P.Emits s₁ held ⟨(spillWidth c).load, id, .globalAt o, []⟩ := by
  refine ⟨fun d j writes => ?_, fun writes => ?_, .inr (by rintro _ ⟨⟩)⟩
  · obtain ⟨rfl, rfl⟩ : d = c ∧ j = id := by
      cases c <;> cases d <;> simp_all [Instruction.Writes, Machine.writesGeneral, Machine.writesSimd,
        spillWidth, Width.load]
    exact ⟨pool, .inl ⟨x, hx, location⟩⟩
  · cases c <;> cases writes

/-- **A lease ends**, whichever of those under way it is: a borrowed register
is what it was. -/
theorem release_conducts (h : Conduct P s₁ s registers held) {x : Lease} (hx : x ∈ held) :
    Results (release x) s fun _ t => Conduct P s₁ t registers (held.erase x) := by
  obtain ⟨c, id, pool, location, -⟩ := h.leads.ok.layout.leased _ (h.leads.layout.mem_leased hx)
  have order : (s.layout.release x).leased = P.start.layout.leased ++ (held.erase x).map Lease.location := by
    have notLeased : x.location ∉ P.start.layout.leased := h.leads.layout.not_leased hx
    rw [Layout.leased_release, h.order, List.erase_append_right _ notLeased, erase_locations h.leads.layout.nodup_held hx]
  unfold release
  dsimp only
  split
  · next slot spill =>
    obtain ⟨o, rfl⟩ := h.leads.layout.saved x hx slot spill
    have class_ : (x.location.registerOf?.map Prod.fst).getD .simd = c := by
      rw [location, RegisterClass.registerOf?_location]
      rfl
    rw [class_]
    obtain ⟨text, run⟩ := emit_eq (s := s) (spillWidth c).load (location ▸ registerField_location c id)
      (rfl : operandOf (.globalMemory o) = .ok (.globalAt o)) []
    refine .bind (.intro run rfl : Results _ _ fun _ t => t = _) ?_
    rintro _ _ rfl
    let i : Instruction Nat := ⟨(spillWidth c).load, id, .globalAt o, []⟩
    have leads := (h.leads.step (leads_wrote h.leads.ok i text)).release hx
      (.released x :: .emitted i s.layout :: s.transcript)
    refine .intro rfl (h.instruction leads order (follows_release x rfl rfl)
      [.released x, .emitted i s.layout] rfl rfl (by simp [Transcript.spills])
      (fun y hy _ _ _ _ _ => .inr (List.mem_of_mem_erase hy)) (.inr (by rintro _ ⟨⟩))
      fun rsqrt L m₀ m m' comes starts kept run => ?_)
    have suits := comes.starts.suits
    have after := (kept.perform comes.starts h.within h.leads h.slots (reload_emits hx location pool o) run).mono
      (t := released (wrote s i text) x) (by
        rw [spillsSince_append h.transcript (t := released (wrote s i text) x) [.released x, .emitted i s.layout] rfl]
        exact fun _ h => h)
    obtain ⟨-, -, stop, -⟩ := h.spills _ (h.slots x hx c id o location spill)
    obtain ⟨-, words⟩ := Machine.perform_reload (kept.grounded suits).whole (kept.inside suits h.leads.ok stop) run
    refine after.release location fun k notFree word spared => ?_
    rw [words k word]
    exact kept.saved x hx c id o k location spill notFree word spared
  · next none =>
    refine .intro rfl (h.still (h.leads.release hx (.released x :: s.transcript)) order (follows_release x rfl rfl)
      [.released x] rfl rfl rfl (fun y hy => .inl (List.mem_of_mem_erase hy))
      fun L m₀ m _ kept => kept.release location fun k notFree => ?_)
    -- A register that was not borrowed was free.
    have pooled : x.location ∈ pooledOf held := mem_pooledOf.2 ⟨x, hx, by simp [Lease.isPooled, none], rfl⟩
    obtain ⟨e, i, free, same⟩ := h.leads.layout.taken x.location (List.mem_append_right _ pooled)
    obtain ⟨rfl, rfl⟩ := RegisterClass.location_inj (location.symm.trans same)
    exact absurd free notFree

/-- The lease that was granted last ends. -/
theorem release_last_conducts {x : Lease} (h : Conduct P s₁ s registers (held ++ [x])) :
    Results (release x) s fun _ t => Conduct P s₁ t registers held := by
  have last : (held ++ [x]).erase x = held := erase_last h.leads
  have := release_conducts h (List.mem_append_right _ (List.mem_singleton_self x))
  rwa [last] at this

/-- Ending a lease, if there is one. -/
theorem releaseOption_conducts {lease : Option Lease} (h : Conduct P s₁ s registers (held ++ lease.toList)) :
    Results (releaseOption lease) s fun _ t => Conduct P s₁ t registers held := by
  cases lease with
  | none =>
    rw [Option.toList_none, List.append_nil] at h
    exact .pure h
  | some x => exact release_last_conducts h

end Lower

end Shading
