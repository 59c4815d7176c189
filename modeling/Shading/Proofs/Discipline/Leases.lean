import Shading.Proofs.Discipline.Storage

/-!
# Leases along a course

A borrowed register is saved in a slot of its own, in which nobody has
relied on anything. What is known of the register is known of its slot
from then on, and so it is known again when the register is reloaded,
whatever it was used for in between.
-/

namespace Shading

open LoweringState

namespace Regime

variable {R : Regime} {K : Nat → Prop} {s₀ s t u : LoweringState} {registers : List Location}
  {held : List Lease} {x : Lease} {i : Instruction Nat} {lost gained : Part → Prop}

/-- **Saving a register** in a slot that nothing has been kept in. -/
theorem Admits.borrow {c : RegisterClass} {o id : Nat} (admits : R.Admits K t i lost gained)
    (ready : R.Ready K s) (fine : R.Fine t) (rests : s.Rests t) (leads : s.Leads t [] [x])
    (frames : Transcript.frames t.transcript = Transcript.frames s.transcript)
    (tidy : ∀ fixed vars o os, s.Tidy fixed vars (o :: os) →
      ∃ o', o.Grows o' [x] ∧ t.Tidy fixed vars (o' :: os))
    (location : x.location = c.location id) (spill : x.spill = some (.globalMemory o))
    (new : s.globalTop ≤ o) (keeps : t.Keeps c.spillSize (.globalMemory o))
    (listed : ⟨.global, o, c.spillSize⟩ ∈ Transcript.spills t.transcript)
    (slot : ∀ p, lost p → ∃ j, p = .byte j ∧ o ≤ j ∧ j < o + c.spillSize)
    (stored : ∀ k, 4 * k + 4 ≤ c.spillSize → R.Known t (c.part id k) →
      ∀ j, o + 4 * k ≤ j → j < o + 4 * k + 4 → gained (.byte j))
    (text : String) : R.Course K s (Lower.wrote t i text) [] [x] where
  leads := leads.step (Lower.leads_wrote leads.ok i text)
  fine := admits.fine fine text
  code := ⟨_, by rw [code_wrote fine, Rests.code rests], fun e he l hl => by
    rw [List.mem_singleton.1 he] at hl
    rcases hl with hl | hl <;> cases hl⟩
  transcript := (Rests.suffix rests).trans (List.suffix_cons _ _)
  frames := ⟨[], by rw [Transcript.addSlots_nil]; exact frames⟩
  origins := fun r hr => (Carried.origin _ _ _ (admits.narrow r hr)).trans (Rests.origin? rests r)
  knows := fun p kept known covers => by
    by_cases out : lost p
    · -- The slot lies between the memory in use at `s` and the local region.
      obtain ⟨j, rfl, low, high⟩ := slot p out
      have behind := ready.fine.regime.behind
      have size := (covers.back (Lower.leads_wrote leads.ok i text)).globalSize
      have top := leads.ok.layout.globalTop
      have stop : o + c.spillSize ≤ t.layout.globalRegion.top := keeps.1
      simp only [Layout.globalSize] at size
      rcases kept.2 with below | above <;> omega
    · exact admits.keeps fine text out (Rests.shows rests (fun covers => covers.back leads) known) covers
  soft := fun r hr soft => admits.soft fine text (ready.lt hr) hr
    (Rests.shows rests (fun covers => covers.back leads) soft)
  tidy := fun fixed vars o os before => by
    obtain ⟨o', grows, tidy⟩ := tidy fixed vars o os before
    exact ⟨o', grows, tidy.step (Lower.leads_wrote leads.ok i text) (.inr ⟨i, rfl, admits.other⟩)⟩
  saved := fun y hy c' id' o' _ location' spill' => by
    obtain rfl := List.mem_singleton.1 hy
    rw [spill] at spill'
    obtain rfl := Location.globalMemory.inj (Option.some.inj spill')
    obtain ⟨rfl, rfl⟩ := RegisterClass.location_inj (location.symm.trans location')
    refine ⟨(Lower.leads_wrote leads.ok i text).keeps keeps, listed, fun k hk known j low high => ?_⟩
    refine admits.gains fine text (stored k hk ?_ j low high)
    exact Rests.shows rests (fun covers => covers.back leads) known
  bound := fun l young ⟨e, he, hl⟩ => by
    rcases List.mem_append.1 he with he | he
    · rw [rests.assembly] at he
      exact absurd (ready.fine.ok.assembly.jumps e he l hl) (by omega)
    · rw [List.mem_singleton.1 he] at hl
      cases hl

end Regime

open Regime

namespace Lower

variable {R : Regime} {K : Nat → Prop} {s₀ s t u : LoweringState} {registers : List Location}
  {held : List Lease} {x : Lease}

/-- The instruction that saves a register, and the one that loads it. -/
theorem stored_spillWidth (c : RegisterClass) : ∃ n, (spillWidth c).store.stored? = some (c, n) ∧
    c.spillSize = 4 * n ∧ (c = .general ∧ (spillWidth c).load = .movLoad ∧ n = 1 ∨
      c = .simd ∧ (spillWidth c).load = .movupsLoad ∧ n = 4) := by
  cases c
  · exact ⟨1, rfl, rfl, .inl ⟨rfl, rfl, rfl⟩⟩
  · exact ⟨4, rfl, rfl, .inr ⟨rfl, rfl, rfl⟩⟩

/-- **A scratch register is leased.** -/
theorem acquire_results (ready : R.Ready K s) (c : RegisterClass) (avoid : List Location) :
    Results (acquire c avoid) s fun x t => R.Course K s t [] [x] ∧ R.Calm s t ∧
      ∃ id, s.layout.Grants t.layout c avoid x id := by
  have fine := ready.fine
  unfold acquire
  refine .bindGet ?_
  rcases Layout.lease_cases fine.ok.layout c avoid with ⟨-, fails⟩ | ⟨x, l, id, leased, grants⟩
  · rw [fails]
    intro _ _ run
    cases run
  rw [leased]
  refine .bind (.intro rfl ⟨rfl, rfl⟩ : Results (liftM (Except.ok (x, l))) s
    fun a t => (x, l) = a ∧ s = t) ?_
  rintro _ _ ⟨rfl, rfl⟩
  refine .bind (.modify rfl : Results (modify _) _ fun _ t => t = _) ?_
  rintro _ _ rfl
  refine .bind (.modify rfl : Results (record _) _ fun _ t => t = _) ?_
  rintro _ _ rfl
  have leads := Leads.ofLayout fine.ok grants.leads (.leased x avoid :: s.transcript)
  rw [addRegisters_nil] at leads
  have rests : s.Rests { s with layout := l, transcript := .leased x avoid :: s.transcript } :=
    ⟨rfl, .inr ⟨.leased x avoid, by rintro _ _ ⟨⟩, rfl⟩⟩
  have calm := calm_rests (R := R) rests leads
  have tidy (fixed vars : List Holding) (o : OpenScope) (os : List OpenScope)
      (tidy : s.Tidy fixed vars (o :: os)) : ∃ o', o.Grows o' [x] ∧ LoweringState.Tidy fixed vars
        { s with layout := l, transcript := .leased x avoid :: s.transcript } (o' :: os) :=
    ⟨{ o with leases := x :: o.leases }, ⟨rfl, List.suffix_rfl, .refl _⟩, tidy.lease leads grants
      (fun _ _ before => fine.fresh grants before) rfl⟩
  -- A register that was free is told about without any code; one that is borrowed is
  -- stored in a new slot.
  rcases grants.spill with ⟨none, -⟩ | ⟨borrowed, o, spill, new, stop, aligned⟩
  · simp only [none]
    refine .pure ⟨course_storage ready rests leads rfl ?_ tidy (by simpa using none), calm, id, grants⟩
    simp [Transcript.spills, none]
  · simp only [spill]
    obtain ⟨n, stored, size, -⟩ := stored_spillWidth c
    have spills : Transcript.spills (.leased x avoid :: s.transcript) =
        ⟨.global, o, c.spillSize⟩ :: Transcript.spills s.transcript := by
      simp [Transcript.spills, grants.location, spill, Location.slot?]
    -- The store is emitted in the state in which the slot is part of the transcript
    -- already, so that it may write there.
    have fine' : R.Fine { s with layout := l, transcript := .leased x avoid :: s.transcript } := by
      refine fine.rests rests leads.ok (fun covers => covers.back leads) rfl rfl (fun _ h => h)
        (fun _ h => h) leads.layout.localHigh fine.apart (fun slot h => ?_) fine.housed (fun slot h => ?_)
        leads.globalTop_le
      · exact ⟨(fine.live slot h).1, Nat.le_trans (fine.live slot h).2 leads.localTop_le⟩
      · rw [spills] at h
        rcases List.mem_cons.1 h with rfl | h
        · exact fine.saves_new rfl new stop rfl rfl
        · exact (fine.spills slot h).leads leads
    have listed : (⟨.global, o, c.spillSize⟩ : Slot) ∈
        Transcript.spills (.leased x avoid :: s.transcript) := by
      rw [spills]
      exact List.mem_cons_self
    have keeps : LoweringState.Keeps { s with
        layout := l, transcript := .leased x avoid :: s.transcript } c.spillSize (.globalMemory o) := by
      refine ⟨stop, fun d hd => .inr ?_⟩
      obtain ⟨y, eq, -, below, -⟩ := fine.ok.division _ hd
      simp only [DivisionSlots.at, DivisionSlots.mk.injEq, Location.globalMemory.injEq] at eq
      have new : s.globalTop ≤ o := new
      omega
    have place : R.Room { s with layout := l, transcript := .leased x avoid :: s.transcript } true true n
        (.globalMemory o) :=
      .direct rfl (.spill listed) ⟨rfl, Nat.le_refl _, by simp [Slot.stop, size]⟩
        (Nat.le_trans stop leads.ok.layout.globalTop) (fun _ => trivial) (fun four => by
          cases c
          · simp only [RegisterClass.spillSize] at size
            omega
          · exact aligned) fun _ => rfl
    have admits := admits_store (K := K) fine' stored grants.pool place rfl (by rintro _ ⟨⟩)
    obtain ⟨text, run⟩ := emitStore_eq (s := { s with
      layout := l, transcript := .leased x avoid :: s.transcript }) (spillWidth c).store
      (rfl : operandOf (.globalMemory o) = .ok (.globalAt o))
      (grants.location ▸ registerField_location c id)
    refine .bind (.intro run rfl : Results _ _ fun _ t => t = _) ?_
    rintro _ _ rfl
    refine .pure ⟨admits.borrow ready fine' rests leads rfl tidy grants.location spill new keeps listed
      (fun p out => ?_) (fun k hk known j low high => ?_) text, ?_, id, grants⟩
    · obtain ⟨-, j, rfl, low, high⟩ := out
      exact ⟨j, rfl, low, size ▸ high⟩
    · exact ⟨by rintro _ ⟨⟩, k, by omega, known, j, rfl, low, high⟩
    · have memory : ∀ r, Operand.globalAt o ≠ .register r := by rintro _ ⟨⟩
      exact fun r small exact => admits.exact fine' text small
        (fun h => (writes_of_stored stored memory h).elim) (calm r small exact)

/-! ## Ending a lease -/

/-- A state in which a lease has ended, after its register was loaded
again. -/
def released (s : LoweringState) (x : Lease) : LoweringState :=
  { s with layout := s.layout.release x, transcript := .released x :: s.transcript }

theorem rests_released (s : LoweringState) (x : Lease) : s.Rests (released s x) :=
  ⟨rfl, .inr ⟨.released x, nofun, rfl⟩⟩

theorem covers_released : R.Covers (released s x) ↔ R.Covers s := by
  obtain ⟨low, global⟩ := Layout.regions_release s.layout x
  constructor <;> intro h
  · exact ⟨h.fits, h.constants, fun c hc => by
        have := h.later c hc
        rwa [globalTop, released, global] at this,
      by simpa only [released, Layout.globalSize, global] using h.globalSize,
      by simpa only [released, Layout.localSize, low] using h.localSize⟩
  · exact ⟨h.fits, h.constants, fun c hc => by
        have := h.later c hc
        rwa [globalTop, released, global],
      by simpa only [released, Layout.globalSize, global] using h.globalSize,
      by simpa only [released, Layout.localSize, low] using h.localSize⟩

/-- **A lease ends along a course**, once its register has been loaded
again. -/
theorem course_released (h : R.Walk K s₀ s registers held) (hx : x ∈ held)
    (tidy : ∀ fixed vars o os, s₀.Tidy fixed vars (o :: os) → ∃ o', o.Grows o' (held.erase x) ∧
      (released s x).Tidy fixed vars (o' :: os))
    (bound : ∀ l, s₀.assembly.labels < l → (∃ e ∈ s.assembly.entries, e.jump? = some l) →
      ∃ e ∈ s.assembly.entries, e.mark? = some l) :
    R.Course K s₀ (released s x) registers (held.erase x) := by
  have fine := h.fine
  have leads : s₀.Leads (released s x) registers (held.erase x) := h.leads.release hx _
  have rests := rests_released s x
  obtain ⟨low, global⟩ := Layout.regions_release s.layout x
  have top : (released s x).globalTop = s.globalTop := by rw [globalTop, released, global]; rfl
  have top' : (released s x).localTop = s.localTop := by rw [localTop, released, low]; rfl
  refine
    { leads := leads
      fine := fine.rests rests leads.ok covers_released.1 rfl rfl (fun _ h => h) (fun _ h => h)
        (by simp only [released, Layout.localSize, low]; exact Nat.le_refl _) fine.apart
        (by rw [top']; exact fine.live) fine.housed
        (fun slot hs => { fine.spills slot hs with below := top ▸ (fine.spills slot hs).below })
        (Nat.le_of_eq top.symm)
      code := by rw [Rests.code rests]; exact h.code
      transcript := h.transcript.trans (Rests.suffix rests)
      frames := h.frames
      origins := fun r hr => (Rests.origin? rests r).trans (h.origins r hr)
      knows := fun p kept known => Rests.shows rests covers_released.1 (h.knows p kept known)
      soft := fun r hr soft => Rests.shows rests covers_released.1 (h.soft r hr soft)
      tidy := tidy
      saved := fun y hy c id o pool location spill => by
        obtain ⟨keeps, listed, known⟩ :=
          h.saved y (List.mem_of_mem_erase hy) c id o pool location spill
        refine ⟨⟨by rw [top]; exact keeps.1, keeps.2⟩, listed, fun k hk same j low high => ?_⟩
        exact Rests.shows rests covers_released.1 (known k hk same j low high)
      bound := bound }

/-- A tidy state stays tidy when a lease ends. -/
theorem tidy_released (h : R.Course K s₀ s registers held) (hx : x ∈ held) {t : LoweringState}
    {es : List LoweringEvent} (layout : t.layout = s.layout.release x) (scopes : t.scopes = s.scopes)
    (division : t.divisionSlots = s.divisionSlots) (transcript : t.transcript = .released x :: es)
    (reloaded : es = s.transcript ∧ x.isPooled = true ∨
      ∃ i, es = .emitted i s.layout :: s.transcript ∧ x.reload? = some i)
    (fixed vars : List Holding) (o : OpenScope) (os : List OpenScope) (before : s₀.Tidy fixed vars (o :: os)) :
    ∃ o', o.Grows o' (held.erase x) ∧ t.Tidy fixed vars (o' :: os) := by
  obtain ⟨o', grows, tidy⟩ := h.tidy fixed vars o os before
  refine ⟨{ o' with leases := o'.leases.erase x }, ⟨grows.mark, grows.placed, ?_⟩,
    tidy.release h.fine.ok (grows.leases.mem_iff.2 (List.mem_append_left _ hx)) layout scopes division
      transcript reloaded⟩
  have := grows.leases.erase x
  rwa [List.erase_append_left _ hx] at this

/-- **Loading a register again** from a slot in which it was saved: each
word is known that is known in the slot. -/
theorem carried_reload (fine : R.Fine s) {c : RegisterClass} {n o id : Nat} (pool : id ∈ c.pool)
    (load : c = .general ∧ (spillWidth c).load = .movLoad ∧ n = 1 ∨
      c = .simd ∧ (spillWidth c).load = .movupsLoad ∧ n = 4)
    {use : SlotUse} (uses : s.Uses use ⟨.global, o, c.spillSize⟩)
    (bound : o + c.spillSize ≤ s.layout.globalSize) :
    R.Carried K s ⟨(spillWidth c).load, id, .globalAt o, []⟩
      (fun p => ∃ id' k, p = c.part id' k ∧ id' % 8 = id % 8)
      (fun p => ∃ k < n, p = c.part id k ∧
        ∀ j, o + 4 * k ≤ j → j < o + 4 * k + 4 → R.Known s (.byte j)) := by
  have size : c.spillSize = 4 * n := by
    rcases load with ⟨rfl, -, rfl⟩ | ⟨rfl, -, rfl⟩ <;> rfl
  -- The two loads differ in their width and in the register file; the rest of the proof
  -- speaks of neither.
  have form : (spillWidth c).load.reach = 4 * n ∧ (spillWidth c).load.isAligned = false ∧
      (spillWidth c).load.onRegister = false ∧ (spillWidth c).load.form.immediate = 0 ∧
      (spillWidth c).load.writesOperand = false ∧ (spillWidth c).load.form.wide = false ∧ 0 < n := by
    rcases load with ⟨-, eq, rfl⟩ | ⟨-, eq, rfl⟩ <;> rw [eq] <;> decide
  obtain ⟨reach, aligned, onRegister, immediate, reads, wide, words⟩ := form
  have small := pool_lt pool
  have allowed : Instruction.Allowed s.Uses R.assigned s.layout
      ⟨(spillWidth c).load, id, .globalAt o, []⟩ :=
    { reg := small
      immediate := immediate.symm
      register := by rintro _ ⟨⟩
      address := by rintro _ ⟨⟩
      whole := fun h => by
        rw [onRegister] at h
        cases h
      spares := fun h => by
        rcases load with ⟨rfl, eq, -⟩ | ⟨rfl, eq, -⟩ <;> rw [eq] at h
        · exact general_ne_base pool (by simpa [Machine.writesGeneral] using h)
        · simp [Machine.writesGeneral] at h
      slot := fun r o' place => by
        cases place
        refine ⟨use, _, uses, ⟨rfl, Nat.le_refl _, ?_⟩, bound, fun h => ?_⟩
        · simp only [Slot.stop, reach, size]
          exact Nat.le_refl _
        · rw [reads] at h
          cases h
      aligned := fun h => by
        rw [aligned] at h
        cases h }
  refine
    { allowed := allowed
      located := by rintro _ ⟨⟩
      carries := carries_of fine allowed (fun h => by
          rw [aligned] at h
          cases h)
        fun contained covers a b reaches both permits spans => ?_
      narrow := fun _ _ _ => wide }
  -- Both machines read at the same offset of their block, since the slot lies in the
  -- global region.
  have address := Machine.operandAddress?_globalAt (m := a)
    (i := ⟨(spillWidth c).load, id, .globalAt o, []⟩) rfl
  have address' := address
  rw [operandAddress_congr both.1 both.2.1 (i := ⟨(spillWidth c).load, id, .globalAt o, []⟩) rfl] at address'
  have span := spans _ address (by rw [reach]; omega)
  have stop : o + 4 * n ≤ R.sizeOf .global := by
    exact Nat.le_trans (size ▸ bound) (covers.sizeOf_le .global)
  have at_ := operandAddress_eq fine.regime.behind covers.fits both.1
    (i := ⟨(spillWidth c).load, id, .globalAt o, []⟩) (r := .global) (o := o) rfl stop (by omega) address
    (reach ▸ span)
  rw [at_] at address address'
  refine (Machine.follows_reload (n := n) (c := c)
    (i := Instruction.anchored ⟨(spillWidth c).load, id, .globalAt o, []⟩) ?_ both.aligned address
    address').mono ?_
  · rcases load with ⟨e, eq, e'⟩ | ⟨e, eq, e'⟩
    · exact .inl ⟨eq, e, e'⟩
    · exact .inr ⟨eq, e, e'⟩
  rintro a' b' ⟨others, loaded⟩
  refine ⟨fun p kept same => ?_, fun p gained => ?_⟩
  · exact others p (fun id' k eq named => kept ⟨id', k, eq, named⟩) same
  · obtain ⟨k, hk, rfl, known⟩ := gained
    refine loaded k hk fun j at_ => known j ?_ ?_ covers a b reaches
    all_goals
      have base := both.1.base
      simp only [Machine.bytesAt, offsetOf] at at_
      omega

/-- **What ending a lease comes to**: all but the register of the lease is
as before. -/
structure Releases (R : Regime) (s t : LoweringState) (x : Lease) : Prop where
  keeps : ∀ p, (∀ (c : RegisterClass) id k, x.location = c.location id → id < 8 → p ≠ c.part id k) →
    (∀ id, 8 ≤ id → p ≠ .general id) → (∀ id k, 8 ≤ id → p ≠ .lane id k) →
    R.Known s p → R.Known t p
  exact : ∀ r, r < 8 → x.location ≠ .register r → R.Shows s (R.Exact r) → R.Shows t (R.Exact r)
  origin : ∀ r, Transcript.origin? R.globals t.transcript r =
    Transcript.origin? R.globals s.transcript r
  frames : Transcript.frames t.transcript = Transcript.frames s.transcript

theorem releases_rests (s : LoweringState) (x : Lease) : Releases R s (released s x) x where
  keeps := fun _ _ _ _ known => Rests.shows (rests_released s x) covers_released.1 known
  exact := fun _ _ _ exact => Rests.shows (rests_released s x) covers_released.1 exact
  origin := Rests.origin? (rests_released s x)
  frames := rfl

/-- **A lease ends**, whichever of those under way it is. -/
theorem release_results (h : R.Course K s₀ s registers held) (ready₀ : R.Ready K s₀) (hx : x ∈ held) :
    Results (release x) s fun _ t => R.Course K s₀ t registers (held.erase x) ∧ Releases R s t x := by
  have fine := h.fine
  obtain ⟨c, id, pool, whole, -⟩ := fine.ok.layout.leased _ (h.leads.layout.mem_leased hx)
  have ready : R.Ready K s := h.ready ready₀
  unfold release
  dsimp only
  split
  · next slot spill =>
    obtain ⟨o, rfl⟩ := h.leads.layout.saved x hx slot spill
    obtain ⟨n, -, size, load⟩ := stored_spillWidth c
    -- What the slot was given when the register was borrowed is still known, so the
    -- register is known again once it is loaded.
    obtain ⟨keeps, listed, saved⟩ := h.saved x hx c id o pool whole spill
    have cls : (x.location.registerOf?.map Prod.fst).getD .simd = c := by
      rw [whole, RegisterClass.registerOf?_location]
      rfl
    have wide : (spillWidth c).load.form.wide = false := by cases c <;> decide
    have carried := carried_reload (K := K) fine pool load (.spill listed)
      (Nat.le_trans (fine.spills _ listed).below fine.ok.layout.globalTop)
    rw [cls, whole]
    obtain ⟨text, run⟩ := emit_eq (s := s) (spillWidth c).load
      (registerField_location c id) (rfl : operandOf (.globalMemory o) = .ok (.globalAt o)) []
    refine .bind (.intro run rfl : Results _ _ fun _ t => wrote s _ text = t) ?_
    rintro _ _ rfl
    have walk := carried.walk ready text h.toWalk (fun j ⟨id', k, eq, _⟩ => by
        cases c <;> cases eq) fun p out kept known => by
      obtain ⟨id', k, rfl, named⟩ := out
      have small := pool_lt pool
      rcases load with ⟨rfl, -, rfl⟩ | ⟨rfl, -, rfl⟩
      · have kept : id' < 8 := kept
        obtain rfl : id' = id := by omega
        exact carried.gains fine text ⟨0, by omega, rfl, fun j low high =>
          saved 0 (by decide) known j low high⟩
      · have kept : id' < 8 ∧ k < 4 := kept
        obtain rfl : id' = id := by omega
        have word : 4 * k + 4 ≤ RegisterClass.simd.spillSize := by
          simp only [RegisterClass.spillSize]
          omega
        exact carried.gains fine text ⟨k, kept.2, rfl, fun j low high => saved k word known j low high⟩
    have reload : x.reload? = some ⟨(spillWidth c).load, id, .globalAt o, []⟩ := by
      simp only [Lease.reload?, whole, RegisterClass.registerOf?_location, spill]
    have tidy := tidy_released h hx
      (t := released (wrote s ⟨(spillWidth c).load, id, .globalAt o, []⟩ text) x) rfl rfl rfl rfl
      (.inr ⟨_, rfl, reload⟩)
    refine .intro rfl ⟨course_released walk hx tidy (h.bound_wrote _ text), ?_⟩
    have rests := releases_rests (R := R) (wrote s ⟨(spillWidth c).load, id, .globalAt o, []⟩ text) x
    refine ⟨fun p other high high' known => rests.keeps p other high high' (carried.keeps fine text ?_ known),
      fun r small other exact => rests.exact r small other (carried.exact fine text small ?_ exact),
      fun r => (rests.origin r).trans (Carried.origin _ _ _ fun _ => wide), rests.frames⟩
    · rintro ⟨id', k, rfl, named⟩
      have small := pool_lt pool
      by_cases big : 8 ≤ id'
      · cases c
        · exact high id' big rfl
        · exact high' id' k big rfl
      · obtain rfl : id' = id := by omega
        exact other c id' k whole small rfl
    · intro writes
      rcases load with ⟨rfl, eq, -⟩ | ⟨rfl, eq, -⟩
      · rw [eq] at writes
        have : r = id := by simpa [Machine.writesGeneral, eq_comm] using writes
        exact other (by rw [whole, this]; rfl)
      · rw [eq] at writes
        simp [Machine.writesGeneral] at writes
  -- A register that was free is given back without code.
  · next spill =>
    have pooled : x.isPooled = true := by
      rw [Lease.isPooled, spill]
      rfl
    have tidy := tidy_released h hx (t := released s x) rfl rfl rfl rfl (.inl ⟨rfl, pooled⟩)
    exact .intro rfl ⟨course_released h.toWalk hx tidy h.bound, releases_rests s x⟩

end Lower

end Shading
