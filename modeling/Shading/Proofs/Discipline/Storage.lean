import Shading.Proofs.Discipline.Instructions

/-!
# Storage along a course

Taking storage writes no code, and what was known stays known. A scope
that closes forgets the slots of its temporaries, whose memory is still
the same on both machines. A borrowed register is saved in a slot of its
own and is known again, when it is reloaded, if it was known before.
-/

namespace Shading

open LoweringState

/-- An event that is no emission. -/
def LoweringEvent.IsQuiet (e : LoweringEvent) : Prop := ∀ i l, e ≠ .emitted i l

namespace Transcript

variable {e : LoweringEvent} (globals : List Slot) (es : List LoweringEvent)

theorem containers_quiet (h : e.IsQuiet) : containers globals (e :: es) = containers globals es := by
  cases e with
  | emitted i l => exact absurd rfl (h i l)
  | _ => rfl

theorem emitted_quiet (h : e.IsQuiet) : emitted (e :: es) = emitted es := by
  cases e with
  | emitted i l => exact absurd rfl (h i l)
  | _ => rfl

theorem origin?_quiet (h : e.IsQuiet) (r : Nat) : origin? globals (e :: es) r = origin? globals es r := by
  cases e with
  | emitted i l => exact absurd rfl (h i l)
  | _ => rfl

theorem live_addSlots {slots : List Slot} {fs : List (List Slot)} (h : fs ≠ []) :
    (addSlots slots fs).flatten = slots ++ fs.flatten := by
  cases fs with
  | nil => exact absurd rfl h
  | cons f fs => simp [addSlots]

end Transcript

/-- **Two states that differ in storage alone**, by at most one event. -/
structure LoweringState.Rests (s t : LoweringState) : Prop where
  assembly : t.assembly = s.assembly
  transcript : t.transcript = s.transcript ∨ ∃ e : LoweringEvent, e.IsQuiet ∧ t.transcript = e :: s.transcript

namespace Regime

variable {R : Regime} {K : Nat → Prop} {s₀ s t u : LoweringState} {registers : List Location}
  {held : List Lease}

/-! ## Steps without code -/

theorem Rests.code (h : s.Rests t) : R.code t = R.code s := by
  unfold Regime.code
  rw [h.assembly]
  rcases h.transcript with same | ⟨e, quiet, eq⟩
  · rw [same]
  · rw [eq, Transcript.containers_quiet _ _ quiet]

theorem Rests.reaches (h : s.Rests t) {pair : Pair} : R.Reaches t pair ↔ R.Reaches s pair := by
  unfold Reaches
  rw [Rests.code h]

theorem Rests.origin? (h : s.Rests t) (r : Nat) :
    Transcript.origin? R.globals t.transcript r = Transcript.origin? R.globals s.transcript r := by
  rcases h.transcript with same | ⟨e, quiet, eq⟩
  · rw [same]
  · rw [eq, Transcript.origin?_quiet _ _ quiet]

theorem Rests.suffix (h : s.Rests t) : s.transcript <:+ t.transcript := by
  rcases h.transcript with same | ⟨e, quiet, eq⟩
  · exact same ▸ List.suffix_rfl
  · rw [eq]
    exact List.suffix_cons _ _

theorem Rests.shows (h : s.Rests t) (covers : R.Covers t → R.Covers s)
    {P : Machine → Machine → Prop} (shows_ : R.Shows s P) : R.Shows t P :=
  fun c a b reaches => shows_ (covers c) a b ((Rests.reaches h).1 reaches)

theorem Rests.sought (h : s.Rests t) (covers : R.Covers t → R.Covers s) {label : Nat}
    {P : Machine → Machine → Prop} (sought : R.Sought s label P) : R.Sought t label P :=
  fun c a b reaches => sought (covers c) a b ((Rests.reaches h).1 reaches)

/-- **A state that differs in storage** keeps the rules, if its slots do. -/
theorem Fine.rests (fine : R.Fine s) (rests : s.Rests t) (ok : t.Ok) (covers : R.Covers t → R.Covers s)
    (declarations : t.declarations = s.declarations) (function : t.function = s.function)
    (constants : ∀ c ∈ s.constants.slots, c ∈ t.constants.slots)
    (divisions : ∀ d, s.divisionSlots = some d → t.divisionSlots = some d)
    (localSize : s.layout.localSize ≤ t.layout.localSize)
    (apart : (Transcript.live t.transcript).Pairwise Slot.Apart)
    (live : ∀ slot ∈ Transcript.live t.transcript, slot.region = .local ∧ slot.stop ≤ t.localTop)
    (housed : ∀ id v slot, t.declarations.symbols.get? id = some v → v.kind = .variable →
      v.VisibleIn t.function → v.location.slot? v.ty.size = some slot →
      slot ∈ Transcript.live t.transcript ∨ slot ∈ R.globals)
    (spills : ∀ slot ∈ Transcript.spills t.transcript, R.Saves t slot) (globalTop : s.globalTop ≤ t.globalTop) :
    R.Fine t where
  regime := fine.regime
  ok := ok
  entries := by
    rw [rests.assembly]
    exact fine.entries
  instructions := by
    rw [rests.assembly, fine.instructions]
    rcases rests.transcript with same | ⟨e, quiet, eq⟩
    · rw [same]
    · rw [eq, Transcript.emitted_quiet _ quiet]
  allowed := fun es i l suffix => by
    have before : .emitted i l :: es <:+ s.transcript := by
      rcases rests.transcript with same | ⟨e, quiet, eq⟩
      · rwa [same] at suffix
      · rw [eq] at suffix
        rcases List.suffix_cons_iff.1 suffix with same | suffix
        · rw [List.cons.injEq] at same
          exact absurd same.1.symm (quiet i l)
        · exact suffix
    rw [declarations, function]
    exact (fine.allowed es i l before).mono fun use slot uses => uses.mono constants divisions
  apart := apart
  live := live
  housed := housed
  spills := spills
  globals := fun g hg => Nat.le_trans (fine.globals g hg) globalTop
  containers := fun r slot h => by
    rw [Rests.origin? rests] at h
    exact (fine.containers r slot h).imp id fun ⟨region, stop⟩ => ⟨region, Nat.le_trans stop localSize⟩
  admitted := fun c reaches => fine.admitted (covers c) ((Rests.reaches rests).1 reaches)
  grounded := fun c a b progress => fine.grounded (covers c) a b (by
    unfold InProgress at progress ⊢
    simpa only [Rests.reaches rests] using progress)
  returned := fun c a b reaches => fine.returned (covers c) a b ((Rests.reaches rests).1 reaches)

/-- A register is saved behind all there is in global memory. -/
theorem Fine.saves_new (fine : R.Fine s) {slot : Slot} (region : slot.region = .global)
    (start : s.globalTop ≤ slot.offset) (stop : slot.stop ≤ t.globalTop) (constants : t.constants = s.constants)
    (division : t.divisionSlots = s.divisionSlots) : R.Saves t slot where
  region := region
  below := stop
  constants := fun c hc => .inl (Nat.le_trans (fine.ok.pooled c (constants ▸ hc)).1 start)
  globals := fun g hg => Nat.le_trans (fine.globals g hg) start
  division := fun x hx => by
    obtain ⟨y, eq, -, below, -⟩ := fine.ok.division _ (division ▸ hx)
    obtain rfl : x = y := by simpa [DivisionSlots.at] using eq
    exact .inr (Nat.le_trans below start)

/-- **Taking storage is a course**, if new slots lie behind those there
were. -/
theorem course_rests (ready : R.Ready K s) (rests : s.Rests t) (leads : s.Leads t registers held)
    (frames : ∃ slots, Transcript.frames t.transcript =
      Transcript.addSlots slots (Transcript.frames s.transcript) ∧ slots.Pairwise Slot.Apart ∧
      ∀ slot ∈ slots, slot.region = .local ∧ s.localTop ≤ slot.offset ∧ slot.stop ≤ t.localTop)
    (spills : Transcript.spills t.transcript = Transcript.spills s.transcript)
    (tidy : ∀ fixed vars o os, s.Tidy fixed vars (o :: os) →
    ∃ o', o.Grows o' held ∧ t.Tidy fixed vars (o' :: os))
    (saved : ∀ x ∈ held, x.spill = none) : R.Course K s t registers held := by
  have fine := ready.fine
  obtain ⟨added, constants, -⟩ := leads.constants
  obtain ⟨slots, eq, apart, new⟩ := frames
  have pooled : ∀ c ∈ s.constants.slots, c ∈ t.constants.slots := fun c hc => by
    rw [constants]
    exact List.mem_append_left _ hc
  have old : ∀ slot ∈ Transcript.live s.transcript, slot ∈ Transcript.live t.transcript := fun slot h => by
    rw [Transcript.live, eq]
    exact Transcript.mem_flatten_addSlots h
  -- A slot is live if it was so before, or if it came with the step.
  have cases_live : ∀ slot ∈ Transcript.live t.transcript,
      slot ∈ slots ∨ slot ∈ Transcript.live s.transcript := fun slot h => by
    rw [Transcript.live, eq] at h
    by_cases none : Transcript.frames s.transcript = []
    · rw [none] at h
      cases h
    · rw [Transcript.live_addSlots none] at h
      exact List.mem_append.1 h
  refine
    { leads := leads
      fine := fine.rests rests leads.ok (fun covers => covers.back leads) leads.declarations
        leads.function pooled (fun d hd => ?_) leads.layout.localHigh ?_ (fun slot h => ?_)
        (fun id v slot known isVariable visible place => ?_) (fun slot h => ?_) leads.globalTop_le
      code := ⟨[], by rw [Rests.code rests, List.append_nil], by simp⟩
      transcript := Rests.suffix rests
      frames := ⟨slots, eq⟩
      origins := fun r _ => Rests.origin? rests r
      knows := fun p _ known => Rests.shows rests (fun covers => covers.back leads) known
      soft := fun r _ soft => Rests.shows rests (fun covers => covers.back leads) soft
      tidy := tidy
      saved := fun x hx c id o _ _ spill => by
        rw [saved x hx] at spill
        cases spill
      bound := fun l young ⟨e, he, hl⟩ => by
        rw [rests.assembly] at he
        exact absurd (fine.ok.assembly.jumps e he l hl) (by omega) }
  · rcases leads.division with same | ⟨none, -⟩
    · exact same.trans hd
    · rw [none] at hd
      cases hd
  · by_cases none : Transcript.frames s.transcript = []
    · rw [Transcript.live, eq, none]
      exact .nil
    · rw [Transcript.live, eq, Transcript.live_addSlots none]
      refine List.pairwise_append.2 ⟨apart, fine.apart, fun a ha b hb _ => .inr ?_⟩
      exact Nat.le_trans (fine.live b hb).2 (new a ha).2.1
  · rcases cases_live slot h with h | h
    · exact ⟨(new slot h).1, (new slot h).2.2⟩
    · exact ⟨(fine.live slot h).1, Nat.le_trans (fine.live slot h).2 leads.localTop_le⟩
  · rw [leads.declarations] at known
    rw [leads.function] at visible
    exact (fine.housed id v slot known isVariable visible place).imp (old slot) fun h => h
  · exact (fine.spills slot (spills ▸ h)).leads leads

/-- Steps that change neither code nor frames nor spill slots. -/
theorem course_storage (ready : R.Ready K s) (rests : s.Rests t) (leads : s.Leads t registers held)
    (frames : Transcript.frames t.transcript = Transcript.frames s.transcript)
    (spills : Transcript.spills t.transcript = Transcript.spills s.transcript)
    (tidy : ∀ fixed vars o os, s.Tidy fixed vars (o :: os) →
    ∃ o', o.Grows o' held ∧ t.Tidy fixed vars (o' :: os))
    (saved : ∀ x ∈ held, x.spill = none) : R.Course K s t registers held :=
  course_rests ready rests leads ⟨[], by rw [frames, Transcript.addSlots_nil], .nil, by simp⟩
    spills tidy saved

end Regime

open Regime

namespace Lower

variable {R : Regime} {K : Nat → Prop} {s₀ s t u : LoweringState} {registers : List Location}
  {held : List Lease}

/-! ## Constants and division slots -/

theorem allocateGlobal_rests (size : Nat) : Results (allocateGlobal size) s fun _ t =>
    t.assembly = s.assembly ∧ t.transcript = s.transcript := .intro rfl ⟨rfl, rfl⟩

theorem constant_rests (k : Constant) : Results (constant k) s fun _ t =>
    t.assembly = s.assembly ∧ t.transcript = s.transcript := by
  unfold constant
  refine .bindGet ?_
  split
  · exact .pure ⟨rfl, rfl⟩
  · refine (allocateGlobal_rests k.size).bind fun l t h => ?_
    exact .bind (.modify h : Results (modify _) t fun _ u =>
      u.assembly = s.assembly ∧ u.transcript = s.transcript) fun _ _ h => .pure h

theorem divisionSlots_rests : Results divisionSlots s fun _ t =>
    t.assembly = s.assembly ∧ t.transcript = s.transcript := by
  unfold divisionSlots
  refine .bindGet ?_
  split
  · exact .pure ⟨rfl, rfl⟩
  · refine (allocateGlobal_rests 4).bind fun _ _ h₁ => (allocateGlobal_rests 4).bind fun _ _ h₂ =>
      (allocateGlobal_rests 4).bind fun _ t h₃ => ?_
    have h : t.assembly = s.assembly ∧ t.transcript = s.transcript :=
      ⟨h₃.1.trans (h₂.1.trans h₁.1), h₃.2.trans (h₂.2.trans h₁.2)⟩
    exact .bind (.modify h : Results (modify _) t fun _ u =>
      u.assembly = s.assembly ∧ u.transcript = s.transcript) fun _ _ h => .pure h

/-- A step without code leaves address registers as they are. -/
theorem calm_rests (rests : s.Rests t) (leads : s.Leads t registers held) : R.Calm s t :=
  fun _ _ h => Rests.shows rests (fun covers => covers.back leads) h

/-- **A pooled constant** is where the pool says. -/
theorem constant_results (ready : R.Ready K s) (k : Constant) :
    Results (constant k) s fun l t => R.Course K s t [] [] ∧ R.Calm s t ∧
      ∃ offset, l = .globalMemory offset ∧ (k, offset) ∈ t.constants.slots := by
  have ends := constant_ends (E := fun _ => True) (.refl ready.fine.ok) k
  refine ((Results.ofEnds ends).and (constant_rests k)).mono ?_
  rintro l t ⟨⟨leads, place⟩, assembly, transcript⟩
  have rests : s.Rests t := ⟨assembly, .inl transcript⟩
  exact ⟨course_storage ready rests leads (by rw [transcript]) (by rw [transcript])
    (fun _ _ o _ tidy => ⟨o, .refl o, tidy.step leads (.inl transcript)⟩) (by simp),
    calm_rests rests leads, place⟩

/-- The scratch words of divisions. -/
theorem divisionSlots_results (ready : R.Ready K s) :
    Results divisionSlots s fun d t => R.Course K s t [] [] ∧ t.divisionSlots = some d ∧
      ∃ x, d = .at x := by
  have ends := divisionSlots_ends (E := fun _ => True) (.refl ready.fine.ok)
  refine ((Results.ofEnds ends).and divisionSlots_rests).mono ?_
  rintro d t ⟨⟨leads, known, at_⟩, assembly, transcript⟩
  have rests : s.Rests t := ⟨assembly, .inl transcript⟩
  exact ⟨course_storage ready rests leads (by rw [transcript]) (by rw [transcript])
    (fun _ _ o _ tidy => ⟨o, .refl o, tidy.step leads (.inl transcript)⟩) (by simp), known,
    at_⟩

/-! ## Placing temporaries -/

/-- A place for a temporary: a register, or memory of the local region. -/
def Temporary (out : Location) : Prop :=
  (∃ c id, out = RegisterClass.location c id) ∨ ∃ o, out = .localMemory o

theorem place_rests (ok : s.Ok) (ty : Ty) : Results (place ty) s fun out t => ty.size ≠ 0 ∧
    Temporary out ∧ t.assembly = s.assembly ∧ t.transcript = .placed (s.scopes.length - 1) ty out :: s.transcript := by
  by_cases storage : ty.size = 0
  · have fails (l : Layout) (r : Region) : l.place ty r = .error (.layout (.noStorage ty)) := by
      rw [Layout.place, if_pos storage]
    intro out t run
    rw [place_def] at run
    obtain ⟨s₁, s₂, got, rest⟩ := bind_eq_ok.1 run
    obtain ⟨rfl, rfl⟩ := get_eq_ok.1 got
    cases scopes : s₂.scopes <;> rw [scopes] at rest <;>
      obtain ⟨_, _, placed, -⟩ := bind_eq_ok.1 rest
    · simp [fails, liftM, monadLift, MonadLift.monadLift, StateT.lift, bind, Except.bind] at placed
    · simp [fails, Layout.placeIn, liftM, monadLift, MonadLift.monadLift, StateT.lift, bind, Except.bind]
        at placed
  · rcases Layout.place_eq ok.layout storage .local with
      ⟨c, id, l, placed, -⟩ | ⟨offset, l, placed, -⟩
    · exact .intro (place_eq placed (by simp)) ⟨storage, .inl ⟨c, id, rfl⟩, rfl, rfl⟩
    · exact .intro (place_eq placed rfl) ⟨storage, .inr ⟨offset, rfl⟩, rfl, rfl⟩

theorem placeInMemory_rests (ty : Ty) : Results (placeInMemory ty) s fun out t => ty.size ≠ 0 ∧
    t.assembly = s.assembly ∧ t.transcript = .placed (s.scopes.length - 1) ty out :: s.transcript := by
  intro out t run
  rw [placeInMemory_def] at run
  obtain ⟨s₁, s₂, got, rest⟩ := bind_eq_ok.1 run
  obtain ⟨rfl, rfl⟩ := get_eq_ok.1 got
  obtain ⟨⟨l, layout⟩, s', placed, rest⟩ := bind_eq_ok.1 rest
  by_cases storage : ty.size = 0
  · simp [Layout.placeInMemory, storage, liftM, monadLift, MonadLift.monadLift, StateT.lift, bind,
      Except.bind] at placed
  · rw [Layout.placeInMemory, if_neg storage] at placed
    cases placed
    cases rest
    exact ⟨storage, rfl, rfl⟩

/-- **What placing a temporary comes to**: a place that is new, with a slot
in the innermost scope if it is in memory. -/
structure Placed (R : Regime) (K : Nat → Prop) (s t : LoweringState) (ty : Ty) (out : Location) : Prop where
  course : R.Course K s t out.own []
  calm : R.Calm s t
  storage : ty.size ≠ 0
  places : Places s t ty out
  temporary : Temporary out
  frames : Transcript.frames t.transcript =
    Transcript.addSlots (out.slot? ty.size).toList (Transcript.frames s.transcript)
  layout : ∀ o, out = .localMemory o → o + ty.size ≤ t.layout.localSize

theorem placed_of_rests (ready : R.Ready K s) {ty : Ty} {out : Location}
    (leads : s.Leads t out.own []) (places : Places s t ty out) (storage : ty.size ≠ 0)
    (temporary : Temporary out) (assembly : t.assembly = s.assembly)
    (transcript : t.transcript = .placed (s.scopes.length - 1) ty out :: s.transcript) : Placed R K s t ty out := by
  have rests : s.Rests t := ⟨assembly, .inr ⟨.placed _ ty out, nofun, transcript⟩⟩
  have frames : Transcript.frames t.transcript =
      Transcript.addSlots (out.slot? ty.size).toList (Transcript.frames s.transcript) := by
    rw [transcript, Transcript.frames_placed (by rw [ready.scopes])]
  have local_ : ∀ slot, out.slot? ty.size = some slot →
      ∃ o, out = .localMemory o ∧ slot = ⟨.local, o, ty.size⟩ := fun slot h => by
    rcases temporary with ⟨c, id, rfl⟩ | ⟨o, rfl⟩
    · cases c <;> cases h
    · cases h
      exact ⟨o, rfl, rfl⟩
  refine ⟨course_rests ready rests leads ⟨_, frames, ?_, fun slot h => ?_⟩ (by rw [transcript]; rfl)
    (fun _ _ o _ tidy => ⟨{ o with placed := (ty, out) :: o.placed },
      ⟨rfl, List.suffix_cons _ _, .refl _⟩, tidy.place ready.fine.ok leads places.fresh places.keeps transcript⟩) (by simp), calm_rests rests leads, storage, places, temporary, frames, fun o eq => ?_⟩
  · cases out.slot? ty.size <;> simp
  · obtain ⟨o, rfl, rfl⟩ := local_ slot (Option.mem_toList.1 h)
    exact ⟨rfl, places.fresh, places.keeps⟩
  · subst eq
    exact Nat.le_trans (show o + ty.size ≤ t.localTop from places.keeps) leads.ok.layout.localTop

/-- **Placing a temporary.** -/
theorem place_results (ready : R.Ready K s) (ty : Ty) :
    Results (place ty) s fun out t => Placed R K s t ty out := fun out t run => by
  obtain ⟨storage, temporary, assembly, transcript⟩ := place_rests ready.fine.ok ty out t run
  obtain ⟨leads, places⟩ :=
    (place_ends (E := fun _ => True) (.refl ready.fine.ok) storage).of_ok run
  exact placed_of_rests ready leads places storage temporary assembly transcript

/-- Placing a temporary in memory. -/
theorem placeInMemory_results (ready : R.Ready K s) (ty : Ty) :
    Results (placeInMemory ty) s fun out t => Placed R K s t ty out ∧ ∃ o, out = .localMemory o :=
  fun out t run => by
  obtain ⟨storage, assembly, transcript⟩ := placeInMemory_rests ty out t run
  obtain ⟨leads, places, o, rfl⟩ :=
    (placeInMemory_ends (E := fun _ => True) (.refl ready.fine.ok) storage).of_ok run
  exact ⟨placed_of_rests ready leads places storage (.inr ⟨o, rfl⟩) assembly transcript, o, rfl⟩

/-! ## Scopes -/

theorem rests_opened (s : LoweringState) : s.Rests (opened s) :=
  ⟨rfl, .inr ⟨.opened s.scopes.length s.layout.openScope, nofun, rfl⟩⟩

/-- What is covered does not depend on the open scopes. -/
theorem covers_opened : R.Covers (opened s) ↔ R.Covers s :=
  ⟨fun h => ⟨h.fits, h.constants, h.later, h.globalSize, h.localSize⟩,
    fun h => ⟨h.fits, h.constants, h.later, h.globalSize, h.localSize⟩⟩

/-- **A scope opens.** -/
theorem ready_opened (ready : R.Ready K s) : R.Ready K (opened s) where
  fine := by
    have fine := ready.fine
    refine fine.rests (rests_opened s) (ok_opened fine.ok) covers_opened.1 rfl rfl (fun _ h => h)
      (fun _ h => h) (Nat.le_refl _) fine.apart fine.live fine.housed
      (fun slot hs => { fine.spills slot hs with }) (Nat.le_refl _)
  held := ready.held
  scopes := congrArg (· + 1) ready.scopes

theorem shows_opened {P : Machine → Machine → Prop} : R.Shows (opened s) P ↔ R.Shows s P :=
  ⟨fun h covers a b reaches =>
      h (covers_opened.2 covers) a b ((Rests.reaches (rests_opened s)).2 reaches),
    fun h => Rests.shows (rests_opened s) covers_opened.1 h⟩

theorem kept_opened {p : Part} : R.Kept (opened s) p ↔ R.Kept s p := by
  cases p <;> exact Iff.rfl

/-- **What closing a scope comes to**: the code is as before, and so is
what was shown. -/
structure Closes (R : Regime) (t u : LoweringState) : Prop where
  rests : t.Rests u
  covers : R.Covers u → R.Covers t

theorem Closes.shows (h : Closes R t u) {P : Machine → Machine → Prop} (shows_ : R.Shows t P) :
    R.Shows u P := Rests.shows h.rests h.covers shows_

/-- A state behind `t` in which the scope that was opened at `s` has been
closed. -/
def closed (s t : LoweringState) (rs : List Location) : LoweringState :=
  { t with
    scopes := s.scopes, layout := t.layout.closeScope ⟨s.layout.localRegion.top, rs⟩,
    transcript := .closed s.scopes.length ⟨s.layout.localRegion.top, rs⟩ :: t.transcript }

theorem leave_eq {rs : List Location} (leads : (opened s).Leads t rs []) :
    leaveScope s.scopes.length t = .ok (.unit, closed s t rs) :=
  leaveScope_eq (by rw [leads.scopes]; rfl)

theorem closes_closed (s t : LoweringState) (rs : List Location) : Closes R t (closed s t rs) where
  rests := ⟨rfl, .inr ⟨.closed _ ⟨s.layout.localRegion.top, rs⟩, nofun, rfl⟩⟩
  covers := fun h =>
    have regions := Layout.foldl_giveBack_unchanged t.layout rs
    have global : (closed s t rs).layout.globalRegion = t.layout.globalRegion := regions.2.2
    have high : (closed s t rs).layout.localRegion.highWater = t.layout.localRegion.highWater := by
      change (rs.foldl Layout.giveBack t.layout).localRegion.highWater = _
      rw [regions.2.1]
    ⟨h.fits, h.constants, fun c hc => by
        have := h.later c hc
        rwa [globalTop, global] at this,
      by simpa only [Layout.globalSize, global] using h.globalSize,
      by simpa only [Layout.localSize, high] using h.localSize⟩

/-- **A scope closes** over a path. -/
theorem path_closed {rs : List Location} (ready : R.Ready K s) (h : R.Path K (opened s) t rs []) :
    R.Path K s (closed s t rs) [] [] := by
  have fine := ready.fine
  have closes := closes_closed (R := R) s t rs
  have regions := Layout.foldl_giveBack_unchanged t.layout rs
  have global : (closed s t rs).layout.globalRegion = t.layout.globalRegion := regions.2.2
  have leads : s.Leads (closed s t rs) [] [] :=
    ((leads_close (E := fun _ => True) fine.ok h.leads).of_ok (leave_eq h.leads)).1
  -- Closing takes the innermost frame off, and the frame was put on by opening: the
  -- frames are those of the start.
  have frames : Transcript.frames (closed s t rs).transcript = Transcript.frames s.transcript := by
    obtain ⟨slots, eq⟩ := h.frames
    have last : (Transcript.frames t.transcript).length = s.scopes.length + 1 := by
      rw [eq, Transcript.length_addSlots, ← ready.scopes]
      rfl
    rw [closed, Transcript.frames_closed last, eq]
    rfl
  have live : Transcript.live (closed s t rs).transcript = Transcript.live s.transcript := by
    rw [Transcript.live, frames]
    rfl
  refine
    { leads := leads
      fine := h.fine.rests closes.rests leads.ok closes.covers rfl rfl (fun _ h => h) (fun _ h => h)
        ?_ ?_ (fun slot hs => ?_) (fun id v slot known isVariable visible place => ?_)
        (fun slot hs => { h.fine.spills slot hs with below := ?_ }) ?_
      code := ?_
      transcript := ?_
      frames := ⟨[], by rw [frames, Transcript.addSlots_nil]⟩
      origins := fun r hr => (Rests.origin? closes.rests r).trans
        ((h.origins r hr).trans (Rests.origin? (rests_opened s) r))
      knows := fun p kept known => closes.shows (h.knows p (kept_opened.2 kept) (shows_opened.2 known))
      soft := fun r hr soft => closes.shows (h.soft r hr (shows_opened.2 soft))
      tidy := fun fixed vars o os tidy => ⟨o, .refl o, ?_⟩
      saved := by simp }
  · change _ ≤ (rs.foldl Layout.giveBack t.layout).localRegion.highWater
    rw [regions.2.1]
    exact Nat.le_refl _
  · rw [live]
    exact fine.apart
  · rw [live] at hs
    exact ⟨(fine.live slot hs).1, Nat.le_trans (fine.live slot hs).2 leads.localTop_le⟩
  · rw [live]
    rw [leads.declarations] at known
    rw [leads.function] at visible
    exact fine.housed id v slot known isVariable visible place
  · rw [globalTop, global]
    exact (h.fine.spills slot hs).below
  · exact Nat.le_of_eq (congrArg BumpAllocator.top global.symm)
  · rw [Rests.code closes.rests, ← Rests.code (rests_opened s)]
    -- Neither step emits code, so the code of the path is that of its inside.
    exact h.code
  · exact (Rests.suffix (rests_opened s)).trans (h.transcript.trans (Rests.suffix closes.rests))
  · obtain ⟨inner, grows, within⟩ := h.tidy fixed vars _ _ tidy.opened
    have scopes : t.scopes = ⟨s.layout.localRegion.top, rs⟩ :: s.scopes := h.leads.scopes
    have scope : inner.scope = ⟨s.layout.localRegion.top, rs⟩ := by
      have := within.given.symm.trans scopes
      exact (List.cons.inj this).1
    refine tidy.close within leads (List.perm_nil.1 (by simpa using grows.leases)) global ?_ ?_
    · change (rs.foldl Layout.giveBack t.layout).localRegion.highWater = _
      rw [regions.2.1]
    · rw [scope, closed, tidy.given, List.length_map]

/-- **A path in a scope of its own** leaves nothing behind. -/
theorem inScope_path {α : Type} {action : Lower α} {P : α → LoweringState → Prop}
    (ready : R.Ready K s)
    (inner : Results action (opened s) fun a t => (∃ rs, R.Path K (opened s) t rs []) ∧ P a t) :
    Results (inScope action) s fun a u =>
      ∃ t, R.Path K s u [] [] ∧ Closes R t u ∧ u.localTop = s.localTop ∧ P a t := by
  unfold inScope withScope
  refine .bind (.intro (enterScope_eq s) ⟨rfl, rfl⟩ : Results enterScope s fun id t =>
    id = s.scopes.length ∧ t = opened s) ?_
  rintro _ _ ⟨rfl, rfl⟩
  refine inner.bind fun a t ⟨⟨rs, path⟩, holds⟩ => ?_
  refine .bind (.intro (leave_eq path.leads) rfl :
    Results (leaveScope _) t fun _ u => u = closed s t rs) ?_
  rintro - _ rfl
  exact .pure ⟨t, path_closed ready path, closes_closed s t rs, rfl, holds⟩

/-- **A course in a scope of its own.** -/
theorem inScope_results {α : Type} {action : Lower α} {P : α → LoweringState → Prop}
    (ready : R.Ready K s)
    (inner : Results action (opened s) fun a t => (∃ rs, R.Course K (opened s) t rs []) ∧ P a t) :
    Results (inScope action) s fun a u =>
      ∃ t, R.Course K s u [] [] ∧ Closes R t u ∧ u.localTop = s.localTop ∧ P a t := by
  refine (inScope_path (P := fun a t => (∃ rs, R.Course K (opened s) t rs []) ∧ P a t) ready
    (inner.mono ?_)).mono ?_
  · rintro a t ⟨⟨rs, course⟩, holds⟩
    exact ⟨⟨rs, course.toPath⟩, ⟨rs, course⟩, holds⟩
  · rintro a u ⟨t, path, closes, top, ⟨rs, course⟩, holds⟩
    refine ⟨t, ⟨path, fun l young jump => ?_⟩, closes, top, holds⟩
    rw [closes.rests.assembly] at jump ⊢
    exact course.bound l young jump

end Lower

end Shading
