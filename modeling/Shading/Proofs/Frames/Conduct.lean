import Shading.Proofs.Frames.Permit

/-!
# Code that keeps to a permit

`Conduct` says of the code between two states of a lowering that each machine
which it carries on keeps to a permit, in whichever state it comes. Code goes
on with an instruction that writes where it may, and with a jump over one.
-/

namespace Shading

open LoweringState

/-- **A machine comes to a state**: the code that leads there has carried it
out on a machine to start on. -/
structure Permit.Comes (P : Permit) (s : LoweringState) (rsqrt : Word → Word) (L : Nat) (m₀ m : Machine) : Prop where
  starts : P.Starts s L m₀
  run : Machine.Track.run rsqrt (.running m₀) (s.codeSince P.start) = .running m

/-- **The code since the start of a permit keeps to it**, while some leases
are under way. What is permitted has bounds that have been handed out before
`s₁`. -/
structure Conduct (P : Permit) (s₁ s : LoweringState) (registers : List Location) (held : List Lease) : Prop where
  leads : P.start.Leads s registers held
  order : s.layout.leased = P.start.layout.leased ++ held.map Lease.location
  within : s₁.Within s
  transcript : P.start.transcript <:+ s.transcript
  spills : ∀ slot ∈ s.spillsSince P.start, slot.region = .global ∧ P.start.globalTop ≤ slot.offset ∧
    slot.stop ≤ s.globalTop ∧ ∀ c ∈ s.constants.slots, c.2 + c.1.size ≤ slot.offset ∨ slot.stop ≤ c.2
  slots : ∀ x ∈ held, ∀ c id o, x.location = RegisterClass.location c id → x.spill = some (.globalMemory o) →
    ⟨.global, o, c.spillSize⟩ ∈ s.spillsSince P.start
  direct : ∀ i text, .instruction i text ∈ s.codeSince P.start → P.addressed ∨ ∀ id, i.rm ≠ .indirect id
  stays : ∀ rsqrt L m₀, P.Starts s L m₀ → ∀ l m,
    Machine.Track.run rsqrt (.running m₀) (s.codeSince P.start) ≠ .seeking l m
  keeps : ∀ rsqrt L m₀ m, P.Comes s rsqrt L m₀ m → P.Kept s held L m₀ m

namespace Conduct

variable {P : Permit} {s₁ s t : LoweringState} {registers registers' : List Location} {held held' : List Lease}

theorem refl (P : Permit) : Conduct P P.start P.start [] [] where
  leads := .refl P.ok
  order := (List.append_nil _).symm
  within := .refl _
  transcript := List.suffix_rfl
  spills := by simp
  slots := by simp
  direct := by simp
  stays := by simp
  keeps := fun rsqrt L m₀ m comes => by
    have run := comes.run
    rw [codeSince_self] at run
    cases run
    exact .refl P _ L m₀

/-- **A run over code that goes on** has come to the earlier state before, or
has stopped. -/
theorem run_since (h : Conduct P s₁ s registers held) (follows : s.Follows t) (events : List LoweringEvent)
    (transcript : t.transcript = events ++ s.transcript) {es : List CodeEntry}
    (code : t.assembly.entries = s.assembly.entries ++ es) (rsqrt : Word → Word) {L : Nat} {m₀ : Machine}
    (starts : P.Starts t L m₀) :
    (∃ m, P.Comes s rsqrt L m₀ m ∧ Machine.Track.run rsqrt (.running m₀) (t.codeSince P.start) =
      Machine.Track.run rsqrt (.running m) es) ∨
    Machine.Track.run rsqrt (.running m₀) (t.codeSince P.start) = .stopped := by
  have since : t.codeSince P.start = s.codeSince P.start ++ es :=
    codeSince_of_append (by rw [code, h.leads.entries_eq, List.append_assoc])
  have back : P.Starts s L m₀ := starts.back follows (by
    rw [spillsSince_append h.transcript events transcript]
    exact List.subset_append_right _ _)
  rw [since, Machine.Track.run_append]
  cases before : Machine.Track.run rsqrt (.running m₀) (s.codeSince P.start) with
  | running m => exact .inl ⟨m, ⟨back, before⟩, rfl⟩
  | seeking l m => exact absurd before (h.stays rsqrt L m₀ back l m)
  | stopped => exact .inr (Machine.Track.run_stopped es)

/-- **Code goes on**: each machine that has kept to the permit keeps to it
over the new entries. -/
theorem extend (h : Conduct P s₁ s registers held) (leads : P.start.Leads t registers' held')
    (order : t.layout.leased = P.start.layout.leased ++ held'.map Lease.location)
    (follows : s.Follows t) (events : List LoweringEvent) (transcript : t.transcript = events ++ s.transcript)
    (es : List CodeEntry) (code : t.assembly.entries = s.assembly.entries ++ es)
    (spills : ∀ slot ∈ Transcript.spills events, slot.region = .global ∧ s.globalTop ≤ slot.offset ∧
      slot.stop ≤ t.globalTop ∧ ∀ c ∈ t.constants.slots, c.2 + c.1.size ≤ slot.offset ∨ slot.stop ≤ c.2)
    (slots : ∀ x ∈ held', ∀ c id o, x.location = RegisterClass.location c id → x.spill = some (.globalMemory o) →
      ⟨.global, o, c.spillSize⟩ ∈ Transcript.spills events ∨ x ∈ held)
    (direct : ∀ i text, .instruction i text ∈ es → P.addressed ∨ ∀ id, i.rm ≠ .indirect id)
    (steps : ∀ rsqrt L m₀ m, P.Starts t L m₀ → P.Comes s rsqrt L m₀ m → P.Kept s held L m₀ m →
      (∀ l m', Machine.Track.run rsqrt (.running m) es ≠ .seeking l m') ∧
      ∀ m', Machine.Track.run rsqrt (.running m) es = .running m' → P.Kept t held' L m₀ m') :
    Conduct P s₁ t registers' held' := by
  have listed := spillsSince_append h.transcript events transcript
  -- Of the spills, slots and instructions the new ones come first; a run of the whole
  -- is a run of the old code followed by one of the new, or it has stopped in the old.
  refine ⟨leads, order, h.within.trans follows.toWithin, h.transcript.trans ⟨events, transcript.symm⟩, ?_, ?_, ?_, ?_,
    ?_⟩
  · intro slot hs
    rw [listed] at hs
    rcases List.mem_append.1 hs with hs | hs
    · obtain ⟨region, above, stop, apart⟩ := spills slot hs
      exact ⟨region, Nat.le_trans h.leads.globalTop_le above, stop, apart⟩
    · obtain ⟨region, above, stop, apart⟩ := h.spills slot hs
      refine ⟨region, above, Nat.le_trans stop follows.globalTop, fun c hc => ?_⟩
      rcases follows.added c hc with now | later
      · exact apart c now
      · exact .inr (Nat.le_trans stop later)
  · intro x hx c id o location spill
    rw [listed]
    rcases slots x hx c id o location spill with new | before
    · exact List.mem_append_left _ new
    · exact List.mem_append_right _ (h.slots x before c id o location spill)
  · intro i text hi
    rw [codeSince_of_append (by rw [code, h.leads.entries_eq, List.append_assoc])] at hi
    rcases List.mem_append.1 hi with hi | hi
    · exact h.direct i text hi
    · exact direct i text hi
  · intro rsqrt L m₀ starts l m' run
    rcases h.run_since follows events transcript code rsqrt starts with ⟨m, comes, same⟩ | stopped
    · exact (steps rsqrt L m₀ m starts comes (h.keeps _ _ _ _ comes)).1 l m' (same.symm.trans run)
    · rw [stopped] at run
      cases run
  · rintro rsqrt L m₀ m' ⟨starts, run⟩
    rcases h.run_since follows events transcript code rsqrt starts with ⟨m, comes, same⟩ | stopped
    · exact (steps rsqrt L m₀ m starts comes (h.keeps _ _ _ _ comes)).2 m' (same.symm.trans run)
    · rw [stopped] at run
      cases run

/-- A machine that comes to a state without new code has come to the state
before. -/
theorem back_rest (h : Conduct P s₁ s registers held) (step : s.Leads t registers' [])
    (transcript : t.transcript = s.transcript) (code : t.assembly = s.assembly) {rsqrt : Word → Word} {L : Nat}
    {m₀ m : Machine} (comes : P.Comes t rsqrt L m₀ m) : P.Comes s rsqrt L m₀ m := by
  have run := comes.run
  rcases h.run_since step.follows [] transcript
    (show _ = _ ++ [] by rw [code, List.append_nil]) rsqrt comes.starts with ⟨m', before, same⟩ | stopped
  · rw [same] at run
    cases run
    exact before
  · rw [stopped] at run
    cases run

/-- **A machine that comes to a state behind an instruction** has come to the
state before and carried the instruction out. -/
theorem back_wrote (h : Conduct P s₁ s registers held) {i : Instruction Nat} {text : String} {rsqrt : Word → Word}
    {L : Nat} {m₀ m' : Machine} (comes : P.Comes (Lower.wrote s i text) rsqrt L m₀ m') :
    ∃ m, P.Comes s rsqrt L m₀ m ∧ m.perform rsqrt i = .ok m' := by
  have run := comes.run
  rcases h.run_since (Lower.leads_wrote h.leads.ok i text).follows [.emitted i s.layout] rfl rfl rsqrt
    comes.starts with ⟨m, before, same⟩ | stopped
  · rw [same, Machine.Track.run_instruction] at run
    refine ⟨m, before, ?_⟩
    cases done : m.perform rsqrt i with
    | ok m₁ =>
      rw [done] at run
      cases run
      rfl
    | error f =>
      rw [done] at run
      cases run
  · rw [stopped] at run
    cases run

/-- **A step without code**, which takes no register to save. -/
theorem still (h : Conduct P s₁ s registers held) (leads : P.start.Leads t registers' held')
    (order : t.layout.leased = P.start.layout.leased ++ held'.map Lease.location) (follows : s.Follows t)
    (events : List LoweringEvent) (transcript : t.transcript = events ++ s.transcript)
    (quiet : Transcript.spills events = []) (code : t.assembly = s.assembly)
    (slots : ∀ x ∈ held', x ∈ held ∨ x.spill = none)
    (step : ∀ L m₀ m, P.Starts t L m₀ → P.Kept t held L m₀ m → P.Kept t held' L m₀ m) :
    Conduct P s₁ t registers' held' := by
  have since := spillsSince_append h.transcript events transcript
  rw [quiet, List.nil_append] at since
  refine h.extend leads order follows events transcript [] (by rw [code, List.append_nil]) (by simp [quiet])
    (fun x hx c id o _ spill => ?_) (by simp) fun rsqrt L m₀ m starts _ kept => ⟨by simp, fun m' run => ?_⟩
  · refine .inr ((slots x hx).resolve_right fun none => ?_)
    rw [none] at spill
    cases spill
  · cases run
    exact step L m₀ m starts (kept.mono (by rw [since]; exact fun _ h => h))

/-- A step without code that takes no register and leaves the leases. -/
theorem rest (h : Conduct P s₁ s registers held) (step : s.Leads t registers' [])
    (order : t.layout.leased = s.layout.leased)
    (events : List LoweringEvent) (transcript : t.transcript = events ++ s.transcript)
    (quiet : Transcript.spills events = []) (code : t.assembly = s.assembly) :
    Conduct P s₁ t (registers ++ registers') held := by
  have leads := h.leads.trans step
  rw [List.append_nil] at leads
  exact h.still leads (order.trans h.order) step.follows events transcript quiet code (fun _ => .inl)
    fun _ _ _ _ kept => kept

/-- **Code goes on with an instruction.** -/
theorem instruction (h : Conduct P s₁ s registers held) (leads : P.start.Leads t registers' held')
    (order : t.layout.leased = P.start.layout.leased ++ held'.map Lease.location)
    (follows : s.Follows t) (events : List LoweringEvent) (transcript : t.transcript = events ++ s.transcript)
    {i : Instruction Nat} {text : String} (code : t.assembly.entries = s.assembly.entries ++ [.instruction i text])
    (spills : ∀ slot ∈ Transcript.spills events, slot.region = .global ∧ s.globalTop ≤ slot.offset ∧
      slot.stop ≤ t.globalTop ∧ ∀ c ∈ t.constants.slots, c.2 + c.1.size ≤ slot.offset ∨ slot.stop ≤ c.2)
    (slots : ∀ x ∈ held', ∀ c id o, x.location = RegisterClass.location c id → x.spill = some (.globalMemory o) →
      ⟨.global, o, c.spillSize⟩ ∈ Transcript.spills events ∨ x ∈ held)
    (direct : P.addressed ∨ ∀ id, i.rm ≠ .indirect id)
    (step : ∀ rsqrt L m₀ m m', P.Comes s rsqrt L m₀ m → P.Starts t L m₀ → P.Kept s held L m₀ m →
      m.perform rsqrt i = .ok m' → P.Kept t held' L m₀ m') : Conduct P s₁ t registers' held' := by
  refine h.extend leads order follows events transcript [.instruction i text] code spills slots (fun j text' hj => ?_)
    fun rsqrt L m₀ m starts comes kept => ?_
  · obtain ⟨rfl, -⟩ := CodeEntry.instruction.inj (List.mem_singleton.1 hj)
    exact direct
  · rw [Machine.Track.run_instruction]
    cases run : m.perform rsqrt i with
    | ok m₁ =>
      refine ⟨by rintro _ _ ⟨⟩, ?_⟩
      rintro _ ⟨⟩
      exact step rsqrt L m₀ m m₁ comes starts kept run
    | error f => exact ⟨by rintro _ _ ⟨⟩, by rintro _ ⟨⟩⟩

/-- **An instruction is emitted** that writes where it may. -/
theorem emits (h : Conduct P s₁ s registers held) {i : Instruction Nat} (emits : P.Emits s₁ held i) (text : String) :
    Conduct P s₁ (Lower.wrote s i text) registers held := by
  have step := Lower.leads_wrote h.leads.ok i text
  have same : (Lower.wrote s i text).spillsSince P.start = s.spillsSince P.start :=
    spillsSince_append h.transcript [.emitted i s.layout] rfl
  refine h.instruction (h.leads.step step) h.order step.follows [.emitted i s.layout] rfl rfl
    (by simp [Transcript.spills]) (fun x hx _ _ _ _ _ => .inr hx) emits.direct
    fun rsqrt L m₀ m m' comes _ kept run => ?_
  exact (kept.perform comes.starts h.within h.leads h.slots emits run).mono (by rw [same]; exact fun _ h => h)

/-- **A jump over an instruction** that writes where it may. -/
theorem skip (h : Conduct P s₁ s registers held) {i : Instruction Nat} (emits : P.Emits s₁ held i)
    (layout : t.layout = s.layout) (constants : t.constants = s.constants)
    (transcript : t.transcript = .emitted i s.layout :: s.transcript) (leads : P.start.Leads t registers held)
    (form : JumpForm) (l : Nat) (text : String)
    (code : ∃ d, t.assembly.entries = s.assembly.entries ++ [.jump form l d, .instruction i text, .mark l]) :
    Conduct P s₁ t registers held := by
  obtain ⟨d, code⟩ := code
  have follows : s.Follows t := .of_layout layout constants
  have same : t.spillsSince P.start = s.spillsSince P.start :=
    spillsSince_append h.transcript [.emitted i s.layout] transcript
  refine h.extend leads (by rw [layout]; exact h.order) follows [.emitted i s.layout] transcript _ code (by simp [Transcript.spills])
    (fun x hx _ _ _ _ _ => .inr hx) (fun j text' hj => ?_) fun rsqrt L m₀ m starts comes kept => ?_
  · simp only [List.mem_cons, reduceCtorEq, CodeEntry.instruction.injEq, List.not_mem_nil, or_false,
      false_or] at hj
    exact hj.1 ▸ emits.direct
  · rw [Machine.Track.run_skip]
    split
    · refine ⟨by rintro _ _ ⟨⟩, ?_⟩
      rintro _ ⟨⟩
      exact kept.mono (by rw [same]; exact fun _ h => h)
    · cases run : m.perform rsqrt i with
      | ok m₁ =>
        refine ⟨by rintro _ _ ⟨⟩, ?_⟩
        rintro _ ⟨⟩
        exact (kept.perform comes.starts h.within h.leads h.slots emits run).mono
          (by rw [same]; exact fun _ h => h)
      | error f => exact ⟨by rintro _ _ ⟨⟩, by rintro _ ⟨⟩⟩

end Conduct

end Shading
