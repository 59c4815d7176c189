import Shading.Proofs.Discipline.Scopes

/-!
# Tidy states

A state is *tidy* when its transcript keeps the rules, all that is placed
and leased lies apart, and the borrowed registers have been loaded again
(`LoweringState.Tidy`). One lemma for each step of a lowering says that it
leaves a tidy state tidy.
-/

namespace Shading

open LoweringState

/-- **Storage lies apart**: no two holdings share any, no two leases hold one
register, and a register that was free when it was leased is of no holding.
A borrowed register may be of one, its owner. Some variables are among the
holdings. -/
structure Separate (fixed vars : List Holding) (os : List OpenScope) : Prop where
  present : ∀ p ∈ vars, p ∈ holdings fixed os
  apart : (holdings fixed os).Pairwise Holding.Apart
  leases : ((leasesOf os).map Lease.location).Nodup
  pooled : ∀ x ∈ leasesOf os, x.isPooled = true → ∀ p ∈ holdings fixed os,
    p.2.registerOf? ≠ x.location.registerOf?

/-- **A tidy state**, with its open scopes. -/
structure LoweringState.Tidy (fixed vars : List Holding) (s : LoweringState)
    (os : List OpenScope) :
    Prop where
  scopes : Transcript.openScopes s.transcript = some os
  given : s.scopes = os.map OpenScope.scope
  separate : Separate fixed vars os
  kept : ∀ p ∈ holdings fixed os, s.Keeps p.1.size p.2
  homes : ∀ p ∈ holdings fixed os, p.2.IsHome
  leased : s.layout.leased.Perm ((leasesOf os).map Lease.location)
  /-- Registers are saved in slots of their own. -/
  saves : (Transcript.spills s.transcript).Pairwise Slot.Apart
  settled : Transcript.Settled s.transcript
  saved : ∀ slot ∈ Transcript.spills s.transcript, slot.region = .global ∧ slot.stop ≤ s.globalTop
  spills : ∀ slot ∈ Transcript.spills s.transcript, ∀ p ∈ fixed, ∀ slot', p.2.slot? p.1.size = some slot' →
    slot.Apart slot'
  /-- Storage lies apart wherever an instruction is emitted. -/
  emissions : ∀ es i l, (.emitted i l :: es) <:+ s.transcript →
    (∃ os, Transcript.openScopes es = some os ∧ Separate fixed vars os) ∧
      ∀ r, l.sizeOf r ≤ s.layout.sizeOf r

/-- **How the innermost scope grows** on a course on which some leases come
under way. -/
structure OpenScope.Grows (o o' : OpenScope) (held : List Lease) : Prop where
  mark : o'.mark = o.mark
  placed : o.placed <:+ o'.placed
  leases : o'.leases.Perm (held ++ o.leases)

theorem OpenScope.Grows.refl (o : OpenScope) : o.Grows o [] := ⟨rfl, List.suffix_rfl, .refl _⟩

theorem OpenScope.Grows.perm {o o' : OpenScope} {held held' : List Lease} (h : o.Grows o' held)
    (p : held.Perm held') : o.Grows o' held' :=
  ⟨h.mark, h.placed, h.leases.trans (p.append_right _)⟩

theorem OpenScope.Grows.trans {o o' o'' : OpenScope} {held held' : List Lease} (h : o.Grows o' held)
    (h' : o'.Grows o'' held') : o.Grows o'' (held ++ held') where
  mark := h'.mark.trans h.mark
  placed := h.placed.trans h'.placed
  leases := by
    refine h'.leases.trans ((h.leases.append_left held').trans ?_)
    rw [← List.append_assoc]
    exact List.perm_append_comm.append_right _

namespace LoweringState.Tidy

variable {fixed vars : List Holding} {s t : LoweringState} {o : OpenScope} {os : List OpenScope}
  {registers : List Location} {held : List Lease}

/-! ## Steps -/

theorem sizeOf_le (leads : s.Leads t registers held) (r : Region) :
    s.layout.sizeOf r ≤ t.layout.sizeOf r := by
  cases r with
  | global => exact leads.layout.globalHigh
  | «local» => exact leads.layout.localHigh

/-- A step that is no emission adds none. -/
theorem emissions_quiet (h : s.Tidy fixed vars os) {e : LoweringEvent}
    (transcript : t.transcript = e :: s.transcript) (quiet : ∀ i l, e ≠ .emitted i l)
    (sizes : ∀ r, s.layout.sizeOf r ≤ t.layout.sizeOf r) (es : List LoweringEvent)
    (i : Instruction Nat) (l : Layout) (suffix : (.emitted i l :: es) <:+ t.transcript) :
    (∃ os, Transcript.openScopes es = some os ∧ Separate fixed vars os) ∧
      ∀ r, l.sizeOf r ≤ t.layout.sizeOf r := by
  rw [transcript] at suffix
  rcases List.suffix_cons_iff.1 suffix with same | suffix
  · rw [List.cons.injEq] at same
    exact absurd same.1.symm (quiet i l)
  · exact (h.emissions es i l suffix).imp_right fun below r => Nat.le_trans (below r) (sizes r)

/-- Tidiness is a matter of storage. -/
theorem congr (h : s.Tidy fixed vars os) (transcript : t.transcript = s.transcript)
    (scopes : t.scopes = s.scopes) (layout : t.layout = s.layout)
    (division : t.divisionSlots = s.divisionSlots) : t.Tidy fixed vars os where
  scopes := transcript ▸ h.scopes
  given := scopes ▸ h.given
  separate := h.separate
  kept := fun p hp => by
    have kept := h.kept p hp
    revert kept
    cases p.2 <;> simp only [Keeps, globalTop, localTop, layout, division] <;> exact id
  homes := h.homes
  leased := layout ▸ h.leased
  saves := transcript ▸ h.saves
  settled := transcript ▸ h.settled
  saved := by
    rw [transcript, globalTop, layout]
    exact h.saved
  spills := transcript ▸ h.spills
  emissions := by
    rw [transcript, layout]
    exact h.emissions

/-- **A step without storage** leaves a tidy state tidy. -/
theorem step (h : s.Tidy fixed vars os) (leads : s.Leads t [] [])
    (transcript : t.transcript = s.transcript ∨
      ∃ i, t.transcript = .emitted i s.layout :: s.transcript ∧
        ∀ x avoid, .leased x avoid ∈ s.transcript → x.reload? ≠ some i) :
    t.Tidy fixed vars os where
  scopes := by
    rcases transcript with same | ⟨i, eq, -⟩
    · rw [same]
      exact h.scopes
    · rw [eq, Transcript.openScopes, h.scopes]
      cases os <;> rfl
  given := by
    rw [leads.scopes, addRegisters_nil]
    exact h.given
  separate := h.separate
  kept := fun p hp => leads.keeps (h.kept p hp)
  homes := h.homes
  leased := (by simpa using leads.layout.leased : t.layout.leased.Perm s.layout.leased).trans h.leased
  saves := by
    rcases transcript with same | ⟨i, eq, -⟩
    · exact same ▸ h.saves
    · exact eq ▸ h.saves
  settled := by
    rcases transcript with same | ⟨i, eq, other⟩
    · exact same ▸ h.settled
    · exact eq ▸ h.settled.emitted other
  saved := fun slot hs => by
    have old : slot ∈ Transcript.spills s.transcript := by
      rcases transcript with same | ⟨i, eq, -⟩
      · exact same ▸ hs
      · rw [eq] at hs
        exact hs
    exact (h.saved slot old).imp_right fun below => Nat.le_trans below leads.globalTop_le
  spills := by
    rcases transcript with same | ⟨i, eq, -⟩
    · exact same ▸ h.spills
    · exact eq ▸ h.spills
  emissions := fun es i l suffix => by
    have grown (l : Layout) (below : ∀ r, l.sizeOf r ≤ s.layout.sizeOf r) (r : Region) :
        l.sizeOf r ≤ t.layout.sizeOf r := Nat.le_trans (below r) (sizeOf_le leads r)
    rcases transcript with same | ⟨i', eq, -⟩
    · exact (h.emissions es i l (same ▸ suffix)).imp_right (grown l)
    · rw [eq] at suffix
      rcases List.suffix_cons_iff.1 suffix with same | suffix
      · rw [List.cons.injEq, LoweringEvent.emitted.injEq] at same
        obtain ⟨⟨-, rfl⟩, rfl⟩ := same
        exact ⟨⟨os, h.scopes, h.separate⟩, grown _ fun _ => Nat.le_refl _⟩
      · exact (h.emissions es i l suffix).imp_right (grown l)

/-- A lease under way holds a register that is not free. -/
theorem lease_taken (h : s.Tidy fixed vars os) (ok : s.Ok) {x : Lease} (hx : x ∈ leasesOf os) :
    ∃ (c : RegisterClass) (id : Nat), x.location = c.location id ∧ id ∉ s.layout.free c := by
  obtain ⟨c, id, -, eq, taken⟩ := ok.layout.leased x.location
    (h.leased.mem_iff.2 (List.mem_map_of_mem hx))
  exact ⟨c, id, eq, taken⟩

/-- A register that is new is none that is leased. -/
theorem registerOf_ne (h : s.Tidy fixed vars os) (ok : s.Ok) {x : Lease} (hx : x ∈ leasesOf os)
    {out : Location} (fresh : s.Fresh out) : out.registerOf? ≠ x.location.registerOf? := by
  obtain ⟨c, id, eq, taken⟩ := h.lease_taken ok hx
  rw [eq, RegisterClass.registerOf?_location]
  cases out with
  | register i =>
    intro same
    cases same
    exact taken fresh
  | simdRegister i =>
    intro same
    cases same
    exact taken fresh
  | indirectRegister i => exact fresh.elim
  | registerLane i shift => exact fresh.elim
  | _ => nofun

/-- A register that is free is of no holding. -/
theorem registerOf_ne_of_free (h : s.Tidy fixed vars os) {c : RegisterClass} {id : Nat}
    (free : id ∈ s.layout.free c) {p : Holding} (hp : p ∈ holdings fixed os) :
    p.2.registerOf? ≠ some (c, id) := by
  have kept := h.kept p hp
  have home := h.homes p hp
  obtain ⟨ty, l⟩ := p
  cases l with
  | register i =>
    intro same
    cases same
    exact kept free
  | simdRegister i =>
    intro same
    cases same
    exact kept free
  | none => exact home.elim
  | indirectRegister i => exact home.elim
  | registerLane i shift => exact home.elim
  | _ => nofun

theorem mem_holdings_cons {p q : Holding} {mark : Nat} {placed : List Holding} {leases l : List Lease} :
    q ∈ holdings fixed (⟨mark, p :: placed, leases⟩ :: os) ↔
      q = p ∨ q ∈ holdings fixed (⟨mark, placed, l⟩ :: os) := by
  simp [holdings]

/-- **A placement** goes to the innermost scope. -/
theorem place (h : s.Tidy fixed vars (o :: os)) (ok : s.Ok) {ty : Ty} {out : Location}
    (leads : s.Leads t out.own []) (fresh : s.Fresh out) (keeps : t.Keeps ty.size out)
    (transcript : t.transcript = .placed (s.scopes.length - 1) ty out :: s.transcript) :
    t.Tidy fixed vars ({ o with placed := (ty, out) :: o.placed } :: os) where
  scopes := by
    rw [transcript, Transcript.openScopes, h.scopes, h.given]
    simp [Transcript.openScopesAfter]
  given := by
    rw [leads.scopes, h.given]
    simp only [List.map_cons, addRegisters, OpenScope.scope, Location.own, List.reverse_cons,
      List.map_append, List.filter_append]
    cases register : out.isRegister <;> simp [register]
  separate :=
    { present := fun p hp => (mem_holdings_cons (l := o.leases)).2 (.inr (h.separate.present p hp))
      apart := by
        refine List.pairwise_cons.2 ⟨fun p hp => ?_, h.separate.apart⟩
        exact (apart_of_fresh (h.kept p hp) fresh).symm
      leases := h.separate.leases
      pooled := fun x hx pooled p hp => by
        rcases mem_holdings_cons (l := o.leases).1 hp with rfl | hp
        · exact h.registerOf_ne ok hx fresh
        · exact h.separate.pooled x hx pooled p hp }
  kept := fun p hp => by
    rcases mem_holdings_cons (l := o.leases).1 hp with rfl | hp
    · exact keeps
    · exact leads.keeps (h.kept p hp)
  homes := fun p hp => by
    rcases mem_holdings_cons (l := o.leases).1 hp with rfl | hp
    · revert fresh
      cases out <;> simp [Fresh, Location.IsHome]
    · exact h.homes p hp
  leased := (by simpa using leads.layout.leased : t.layout.leased.Perm s.layout.leased).trans h.leased
  saves := by
    rw [transcript]
    exact h.saves
  settled := by
    rw [transcript]
    exact h.settled.quiet fun _ => ⟨rfl, rfl, rfl⟩
  saved := fun slot hs => by
    rw [transcript] at hs
    exact (h.saved slot hs).imp_right fun below => Nat.le_trans below leads.globalTop_le
  spills := by
    rw [transcript]
    exact h.spills
  emissions := h.emissions_quiet transcript nofun (sizeOf_le leads)

/-- A register that is borrowed gets a slot behind all others. -/
theorem spills_lease {x : Lease} {c : RegisterClass} {id : Nat} {avoid : List Location}
    (grants : s.layout.Grants t.layout c avoid x id)
    (transcript : t.transcript = .leased x avoid :: s.transcript) :
    Transcript.spills t.transcript = Transcript.spills s.transcript ∨
      ∃ slot, Transcript.spills t.transcript = slot :: Transcript.spills s.transcript ∧
        slot.region = .global ∧ s.globalTop ≤ slot.offset ∧ slot.stop ≤ t.globalTop := by
  rw [transcript]
  rcases grants.spill with ⟨none, -⟩ | ⟨-, offset, spill, above, stop, -⟩
  · exact .inl (by simp [Transcript.spills, none])
  · refine .inr ⟨⟨.global, offset, c.spillSize⟩, ?_, rfl, above, stop⟩
    simp [Transcript.spills, grants.location, spill, Location.slot?]

/-- A register that is borrowed was not borrowed so before. -/
theorem not_leased (h : s.Tidy fixed vars os) {x : Lease} {c : RegisterClass} {id : Nat} {avoid avoid' : List Location}
    (grants : s.layout.Grants t.layout c avoid x id) (borrowed : x.isPooled = false) :
    .leased x avoid' ∉ s.transcript := by
  intro taken
  rcases grants.spill with ⟨none, -⟩ | ⟨-, offset, spill, above, stop, -⟩
  · rw [Lease.isPooled, none] at borrowed
    cases borrowed
  · have saved : x.saved? = some ⟨.global, offset, c.spillSize⟩ := by
      simp [Lease.saved?, grants.location, spill, Location.slot?]
    have below : offset + c.spillSize ≤ s.globalTop := (h.saved _ (Transcript.mem_spills taken saved)).2
    have above : s.globalTop ≤ offset := above
    have wide : 0 < c.spillSize := by cases c <;> exact Nat.zero_lt_succ _
    omega

/-- **A lease** comes under way in the innermost scope. -/
theorem lease (h : s.Tidy fixed vars (o :: os)) {x : Lease} {c : RegisterClass} {id : Nat}
    {avoid : List Location} (leads : s.Leads t [] [x]) (grants : s.layout.Grants t.layout c avoid x id)
    (fresh : ∀ i l, .emitted i l ∈ s.transcript → x.reload? ≠ some i)
    (transcript : t.transcript = .leased x avoid :: s.transcript) :
    t.Tidy fixed vars ({ o with leases := x :: o.leases } :: os) where
  scopes := by
    rw [transcript, Transcript.openScopes, h.scopes]
    rfl
  given := by
    rw [leads.scopes, addRegisters_nil]
    exact h.given
  separate :=
    { present := h.separate.present
      apart := h.separate.apart
      leases := by
        refine List.nodup_cons.2 ⟨fun again => ?_, h.separate.leases⟩
        exact grants.notLeased (grants.location ▸ h.leased.mem_iff.2 again)
      pooled := fun y hy pooled p hp => by
        rcases List.mem_cons.1 (show y ∈ x :: leasesOf (o :: os) from hy) with rfl | hy
        · rcases grants.spill with ⟨-, free⟩ | ⟨-, offset, spill, -⟩
          · rw [grants.location, RegisterClass.registerOf?_location]
            exact h.registerOf_ne_of_free free hp
          · rw [Lease.isPooled, spill] at pooled
            cases pooled
        · exact h.separate.pooled y hy pooled p hp }
  kept := fun p hp => leads.keeps (h.kept p hp)
  homes := h.homes
  leased := by
    refine leads.layout.leased.trans ((h.leased.append_right _).trans ?_)
    exact List.perm_append_comm
  saves := by
    rcases spills_lease grants transcript with same | ⟨slot, eq, -, above, -⟩
    · exact same ▸ h.saves
    · rw [eq]
      refine List.pairwise_cons.2 ⟨fun old mem _ => .inr ?_, h.saves⟩
      exact Nat.le_trans (h.saved old mem).2 above
  settled := by
    rw [transcript]
    refine h.settled.cons (fun _ _ _ _ => rfl) fun y avoid' here borrowed => ?_
    obtain ⟨rfl, -⟩ := LoweringEvent.leased.inj here
    -- Nothing has been said of the lease before.
    have taken : s.transcript.countP (LoweringEvent.takes y) = 0 :=
      List.countP_eq_zero.2 fun e he takes => by
        cases e with
        | leased z avoid'' =>
          obtain rfl : z = y := by simpa [LoweringEvent.takes] using takes
          exact h.not_leased grants borrowed he
        | _ => cases takes
    have ended : s.transcript.countP (LoweringEvent.ends y) = 0 := by
      have := Transcript.countP_takes y h.scopes
      omega
    rw [ended]
    refine List.countP_eq_zero.2 fun e he reloads => ?_
    cases e with
    | emitted i l => exact fresh i l he (beq_iff_eq.1 reloads)
    | _ => cases reloads
  saved := fun slot hs => by
    have old (mem : slot ∈ Transcript.spills s.transcript) : slot.region = .global ∧ slot.stop ≤ t.globalTop :=
      (h.saved slot mem).imp_right fun below => Nat.le_trans below leads.globalTop_le
    rcases spills_lease grants transcript with same | ⟨new, eq, region, -, stop⟩
    · exact old (same ▸ hs)
    · rw [eq] at hs
      rcases List.mem_cons.1 hs with rfl | hs
      · exact ⟨region, stop⟩
      · exact old hs
  spills := fun slot hs p hp slot' place same => by
    rcases spills_lease grants transcript with eq | ⟨new, eq, region, above, -⟩
    · exact h.spills slot (eq ▸ hs) p hp slot' place same
    · rw [eq] at hs
      rcases List.mem_cons.1 hs with rfl | hs
      · have kept := h.kept p (List.mem_append_right _ hp)
        rw [region] at same
        revert place kept
        cases p.2 <;> rintro ⟨⟩ kept
        · exact .inr (Nat.le_trans kept.1 above)
        · cases same
      · exact h.spills slot hs p hp slot' place same
  emissions := h.emissions_quiet transcript nofun (sizeOf_le leads)

/-- **A lease ends** in the scope that it was taken in, right after its
register was loaded again if it was borrowed. -/
theorem release (h : s.Tidy fixed vars (o :: os)) (ok : s.Ok) {x : Lease} (hx : x ∈ o.leases)
    {es : List LoweringEvent} (layout : t.layout = s.layout.release x) (scopes : t.scopes = s.scopes)
    (division : t.divisionSlots = s.divisionSlots) (transcript : t.transcript = .released x :: es)
    (reloaded : es = s.transcript ∧ x.isPooled = true ∨
      ∃ i, es = .emitted i s.layout :: s.transcript ∧ x.reload? = some i) :
    t.Tidy fixed vars ({ o with leases := o.leases.erase x } :: os) := by
  have under : x ∈ leasesOf (o :: os) := List.mem_append_left _ hx
  obtain ⟨c, id, whole, taken⟩ := h.lease_taken ok under
  -- A register stands under one lease only, so what is erased by its register is this
  -- lease.
  have split : (leasesOf (o :: os)).Perm
      (x :: leasesOf ({ o with leases := o.leases.erase x } :: os)) :=
    (List.perm_cons_erase hx).append_right _
  have sub : ∀ y ∈ leasesOf ({ o with leases := o.leases.erase x } :: os), y ∈ leasesOf (o :: os) :=
    fun y hy => split.mem_iff.2 (List.mem_cons_of_mem _ hy)
  obtain ⟨low, global⟩ := Layout.regions_release s.layout x
  have spills : Transcript.spills t.transcript = Transcript.spills s.transcript := by
    rw [transcript]
    rcases reloaded with ⟨rfl, -⟩ | ⟨i, rfl, -⟩ <;> rfl
  have sizes (r : Region) : s.layout.sizeOf r ≤ t.layout.sizeOf r := by
    cases r <;> simp [layout, Layout.sizeOf, Layout.globalSize, Layout.localSize, low, global]
  exact
    { scopes := by
        have played : Transcript.openScopes es = some (o :: os) ∧ x.isReloaded es = true := by
          rcases reloaded with ⟨rfl, pooled⟩ | ⟨i, rfl, reload⟩
          · refine ⟨h.scopes, ?_⟩
            unfold Lease.isReloaded
            split <;> simp [pooled]
          · refine ⟨?_, by simp [Lease.isReloaded, reload]⟩
            rw [Transcript.openScopes, h.scopes]
            rfl
        rw [transcript, Transcript.openScopes, played.1, Option.bind_some, Transcript.openScopesAfter,
          if_pos ⟨hx, played.2⟩]
      given := scopes ▸ h.given
      separate :=
        { present := h.separate.present
          apart := h.separate.apart
          leases := (List.nodup_cons.1 ((split.map Lease.location).nodup_iff.1 h.separate.leases)).2
          pooled := fun y hy => h.separate.pooled y (sub y hy) }
      kept := fun p hp => by
        have kept := h.kept p hp
        have home := h.homes p hp
        have other := h.separate.pooled x under
        obtain ⟨ty, l⟩ := p
        -- A register that comes back by the release was under the lease, and no
        -- variable has its home there.
        have free {c' : RegisterClass} {i : Nat} (named : l.registerOf? = some (c', i))
            (notFree : i ∉ s.layout.free c') : i ∉ (s.layout.release x).free c' := fun free => by
          rcases (Layout.mem_free_release whole).1 free with free | ⟨pooled, same⟩
          · exact notFree free
          · refine other pooled _ hp (named.trans ?_)
            rw [← same, RegisterClass.registerOf?_location]
        rw [← layout] at free
        cases l with
        | register i => exact free rfl kept
        | simdRegister i => exact free rfl kept
        | globalMemory offset =>
          refine ⟨?_, division ▸ kept.2⟩
          rw [globalTop, layout, global]
          exact kept.1
        | localMemory offset =>
          change _ ≤ t.layout.localRegion.top
          rw [layout, low]
          exact kept
        | none => exact home.elim
        | indirectRegister i => exact home.elim
        | registerLane i shift => exact home.elim
      homes := h.homes
      leased := by
        have := (h.leased.trans (split.map Lease.location)).erase x.location
        rw [List.map_cons, List.erase_cons_head] at this
        rw [layout, Layout.leased_release]
        exact this
      saves := spills ▸ h.saves
      settled := by
        rw [transcript]
        rcases reloaded with ⟨rfl, pooled⟩ | ⟨i, rfl, reload⟩
        · exact h.settled.released pooled
        · obtain ⟨avoid, mem⟩ := Transcript.exists_leased h.scopes under
          exact h.settled.reloaded h.saves mem reload
      saved := fun slot hs => by
        rw [globalTop, layout, global]
        exact h.saved slot (spills ▸ hs)
      spills := spills ▸ h.spills
      emissions := fun es' j l suffix => by
        rw [transcript] at suffix
        have before : (.emitted j l :: es') <:+ es :=
          (List.suffix_cons_iff.1 suffix).resolve_left (by rintro ⟨⟩)
        -- The reload is the only instruction that is new; it was emitted while the
        -- lease went on.
        rcases reloaded with ⟨rfl, -⟩ | ⟨i, rfl, -⟩
        · exact (h.emissions es' j l before).imp_right fun below r => Nat.le_trans (below r) (sizes r)
        · rcases List.suffix_cons_iff.1 before with here | before
          · rw [List.cons.injEq, LoweringEvent.emitted.injEq] at here
            obtain ⟨⟨-, rfl⟩, rfl⟩ := here
            exact ⟨⟨_, h.scopes, h.separate⟩, sizes⟩
          · exact (h.emissions es' j l before).imp_right fun below r => Nat.le_trans (below r) (sizes r) }

/-- **A scope opens.** -/
theorem opened (h : s.Tidy fixed vars os) : (Lower.opened s).Tidy fixed vars (⟨s.localTop, [], []⟩ :: os) where
  scopes := by
    simp only [Lower.opened, Transcript.openScopes, h.scopes, Option.bind_some, Transcript.openScopesAfter, h.given]
    rw [if_pos ⟨List.length_map _, rfl⟩]
    rfl
  given := by
    simp only [Lower.opened, h.given]
    rfl
  separate := ⟨h.separate.present, h.separate.apart, h.separate.leases, h.separate.pooled⟩
  kept := fun p hp => by
    have kept := h.kept p hp
    revert kept
    cases p.2 <;> exact id
  homes := h.homes
  leased := h.leased
  saves := h.saves
  settled := h.settled.quiet fun _ => ⟨rfl, rfl, rfl⟩
  saved := h.saved
  spills := h.spills
  emissions := h.emissions_quiet rfl nofun fun _ => Nat.le_refl _

/-- **The innermost scope closes**, and what it was opened in is as it
was. -/
theorem close {inner : OpenScope} {u : LoweringState} (h : s.Tidy fixed vars os)
    (within : t.Tidy fixed vars (inner :: os)) (leads : s.Leads u [] []) (none : inner.leases = [])
    (global : u.layout.globalRegion = t.layout.globalRegion)
    (high : u.layout.localRegion.highWater = t.layout.localRegion.highWater)
    (transcript : u.transcript = .closed os.length inner.scope :: t.transcript) : u.Tidy fixed vars os where
  scopes := by
    simp only [transcript, Transcript.openScopes, within.scopes, Option.bind_some,
      Transcript.openScopesAfter]
    rw [if_pos ⟨trivial, none, trivial⟩]
  given := by
    rw [leads.scopes, addRegisters_nil]
    exact h.given
  separate := h.separate
  kept := fun p hp => leads.keeps (h.kept p hp)
  homes := h.homes
  leased := (by simpa using leads.layout.leased : u.layout.leased.Perm s.layout.leased).trans h.leased
  saves := by
    rw [transcript]
    exact within.saves
  settled := by
    rw [transcript]
    exact within.settled.quiet fun _ => ⟨rfl, rfl, rfl⟩
  saved := fun slot hs => by
    rw [transcript] at hs
    rw [globalTop, global]
    exact within.saved slot hs
  spills := by
    rw [transcript]
    exact within.spills
  emissions := within.emissions_quiet transcript nofun fun r => by
    cases r <;> simp [Layout.sizeOf, Layout.globalSize, Layout.localSize, global, high]

end LoweringState.Tidy

end Shading
