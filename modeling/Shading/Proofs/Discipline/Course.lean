import Mathlib.Data.List.Induction
import Shading.Proofs.Discipline.Pairs
import Shading.Proofs.Discipline.Tidy
import Shading.Proofs.Lowering.Steps

/-!
# What a lowering knows of the runs of its code

At each moment of a lowering the code so far has been run, by pairs, in
the way that a `Regime` says. `Regime.Shows s P` says that `P` holds of
every pair that is running at the end of the code of `s`, and
`Regime.Known s p` that a part of the machine is the same on both. This
is how a lowering that knows nothing of machines is followed by
statements about them.

What is known lasts (`Regime.Path`): an instruction computes from what is
known, or else it writes what nobody relies on. Only the slots in which
registers are saved may receive what is not known, and these are new.
Address registers get numbers of 32 bits at the worst, while they are
held.
-/

namespace Shading

open LoweringState

/-! ## Slots at a state -/

/-- The slots there are, with their uses. -/
def LoweringState.Uses (s : LoweringState) : SlotUse → Slot → Prop :=
  Shading.Uses s.declarations s.function s.constants s.divisionSlots s.transcript

namespace Transcript

/-- Frames after some slots were placed in the innermost one. -/
def addSlots (slots : List Slot) : List (List Slot) → List (List Slot)
  | [] => []
  | frame :: frames => (slots ++ frame) :: frames

@[simp] theorem addSlots_nil (fs : List (List Slot)) : addSlots [] fs = fs := by
  cases fs <;> rfl

/-- A temporary is placed in the innermost frame. -/
theorem frames_placed {id : ScopeId} {es : List LoweringEvent} (last : id = (frames es).length - 1) (ty : Ty)
    (out : Location) : frames (.placed id ty out :: es) = addSlots (out.slot? ty.size).toList (frames es) := by
  rw [frames, last, Nat.sub_self]
  cases frames es <;> rfl

theorem addSlots_addSlots (xs ys : List Slot) (fs : List (List Slot)) :
    addSlots ys (addSlots xs fs) = addSlots (ys ++ xs) fs := by
  cases fs <;> simp [addSlots]

@[simp] theorem length_addSlots (slots : List Slot) (fs : List (List Slot)) :
    (addSlots slots fs).length = fs.length := by cases fs <;> rfl

theorem mem_flatten_addSlots {slots : List Slot} {fs : List (List Slot)} {slot : Slot}
    (h : slot ∈ fs.flatten) : slot ∈ (addSlots slots fs).flatten := by
  cases fs with
  | nil => exact h
  | cons f fs =>
    simp only [addSlots, List.flatten_cons, List.mem_append] at h ⊢
    rcases h with h | h
    · exact .inl (.inr h)
    · exact .inr h

theorem mem_temporaries_addSlots {slots : List Slot} {fs : List (List Slot)} {slot : Slot}
    (h : slot ∈ fs.dropLast.flatten) : slot ∈ (addSlots slots fs).dropLast.flatten := by
  match fs with
  | [] => exact h
  | [f] => cases h
  | f :: g :: fs =>
    simp only [addSlots, List.dropLast_cons_cons, List.flatten_cons, List.mem_append] at h ⊢
    rcases h with h | h
    · exact .inl (.inr h)
    · exact .inr h

end Transcript

namespace Regime

variable (R : Regime)

/-! ## Pairs at a state -/

/-- The code of a lowering so far. -/
def code (s : LoweringState) : List Indexed :=
  withContainers s.assembly.entries (Transcript.containers R.globals s.transcript)

/-- What some pair of runs has come to. -/
def Reaches (s : LoweringState) (pair : Pair) : Prop :=
  ∃ a b, R.start a b ∧ Pair.run R (.running a b) (R.code s) = pair

/-- The machines of a pair that goes on. -/
def InProgress (s : LoweringState) (a b : Machine) : Prop :=
  R.Reaches s (.running a b) ∨ ∃ label, R.Reaches s (.seeking label a b)

/-- **The regime is that of a program** to which a lowering leads: it has
the constants so far, and the others will lie further on. -/
structure Covers (s : LoweringState) : Prop where
  fits : R.Fits
  constants : ∀ c ∈ s.constants.slots, c ∈ R.constants
  later : ∀ c ∈ R.constants, c ∈ s.constants.slots ∨ s.globalTop ≤ c.2
  globalSize : s.layout.globalSize ≤ R.globalSize
  localSize : s.layout.localSize ≤ R.localSize

/-- **What holds of all pairs that are running.** -/
def Shows (s : LoweringState) (P : Machine → Machine → Prop) : Prop :=
  R.Covers s → ∀ a b, R.Reaches s (.running a b) → P a b

/-- What holds of all pairs that seek a label. -/
def Sought (s : LoweringState) (label : Nat) (P : Machine → Machine → Prop) : Prop :=
  R.Covers s → ∀ a b, R.Reaches s (.seeking label a b) → P a b

/-- **A part is the same** on both machines of each pair. -/
def Known (s : LoweringState) (p : Part) : Prop := R.Shows s fun a b => a.Same b p

/-- The parts that nothing unknown will be saved in: all but the words of
divisions and global memory that is still free. -/
def Kept (s : LoweringState) : Part → Prop
  | .general id => id < 8
  | .lane id k => id < 8 ∧ k < 4
  | .byte k => (∀ x, s.divisionSlots = some (.at x) → k < x ∨ x + 12 ≤ k) ∧
      (k < s.globalTop ∨ R.localOffset ≤ k)
  | .flags => True

/-- An address register holds an aligned number, or one that is no
address of the block. -/
def Soft (r : Nat) (a _ : Machine) : Prop :=
  2 ^ 32 ≤ R.base → (a.general64 r).toNat % 16 = 0 ∨ (a.general64 r).toNat < 2 ^ 32

/-- An address register holds an aligned number. -/
def Exact (r : Nat) (a _ : Machine) : Prop :=
  2 ^ 32 ≤ R.base → (a.general64 r).toNat % 16 = 0

/-- What is true of both machines of a pair all the time. -/
def Both (a b : Machine) : Prop :=
  R.Grounds a ∧ R.Grounds b ∧ (R.Contained → R.HoldsConstants a ∧ R.HoldsConstants b)

/-- The global variables are the same on both machines of a pair. -/
def Agree (a b : Machine) : Prop := ∀ slot ∈ R.globals, ∀ k, R.bytesOf slot k → a.Same b (.byte k)

/-- **A slot that a register was saved in** lies apart from what else there
is in global memory. -/
structure Saves (s : LoweringState) (slot : Slot) : Prop where
  region : slot.region = .global
  below : slot.stop ≤ s.globalTop
  constants : ∀ c ∈ s.constants.slots, c.2 + c.1.size ≤ slot.offset ∨ slot.stop ≤ c.2
  globals : ∀ g ∈ R.globals, g.stop ≤ slot.offset
  division : ∀ x, s.divisionSlots = some (.at x) → slot.stop ≤ x ∨ x + 12 ≤ slot.offset

/-- **A state whose code keeps the rules.** -/
structure Fine (s : LoweringState) : Prop where
  regime : R.Sound
  ok : s.Ok
  entries : CodeEntry.Starts s.assembly.entries
  instructions : s.assembly.entries.filterMap CodeEntry.instruction? = Transcript.emitted s.transcript
  allowed : ∀ es i l, (.emitted i l :: es) <:+ s.transcript →
    i.Allowed (Shading.Uses s.declarations s.function s.constants s.divisionSlots es) R.assigned l
  /-- Slots in use lie apart from each other in the local region. -/
  apart : (Transcript.live s.transcript).Pairwise Slot.Apart
  live : ∀ slot ∈ Transcript.live s.transcript, slot.region = .local ∧ slot.stop ≤ s.localTop
  /-- Variables have slots of their own. -/
  housed : ∀ id v slot, s.declarations.symbols.get? id = some v → v.kind = .variable →
    v.VisibleIn s.function → v.location.slot? v.ty.size = some slot →
    slot ∈ Transcript.live s.transcript ∨ slot ∈ R.globals
  spills : ∀ slot ∈ Transcript.spills s.transcript, R.Saves s slot
  globals : ∀ g ∈ R.globals, g.stop ≤ s.globalTop
  /-- Address registers point into variables and temporaries. -/
  containers : ∀ r slot, Transcript.origin? R.globals s.transcript r = some slot →
    slot ∈ R.globals ∨ (slot.region = .local ∧ slot.stop ≤ s.layout.localSize)
  admitted : R.Covers s → ¬ R.Reaches s .parted
  grounded : R.Covers s → ∀ a b, R.InProgress s a b → R.Both a b
  returned : R.Covers s → ∀ a b, R.Reaches s (.returned a b) → R.Agree a b

/-- **The course of a lowering with what it knows**, while the registers
of `K` are held. -/
structure Walk (K : Nat → Prop) (s t : LoweringState) (registers : List Location)
    (held : List Lease) : Prop where
  leads : s.Leads t registers held
  fine : R.Fine t
  code : ∃ new, R.code t = R.code s ++ new ∧ ∀ e ∈ new, ∀ l,
    e.1.jump? = some l ∨ e.1.mark? = some l → s.assembly.labels < l
  transcript : s.transcript <:+ t.transcript
  frames : ∃ slots, Transcript.frames t.transcript =
    Transcript.addSlots slots (Transcript.frames s.transcript)
  origins : ∀ r, K r → Transcript.origin? R.globals t.transcript r =
    Transcript.origin? R.globals s.transcript r
  knows : ∀ p, R.Kept s p → R.Known s p → R.Known t p
  soft : ∀ r, K r → R.Shows s (R.Soft r) → R.Shows t (R.Soft r)
  /-- The slot of a borrowed register is known as the register was. -/
  saved : ∀ x ∈ held, ∀ (c : RegisterClass) (id o : Nat), id ∈ c.pool → x.location = c.location id →
    x.spill = some (.globalMemory o) → t.Keeps c.spillSize (.globalMemory o) ∧
    ⟨.global, o, c.spillSize⟩ ∈ Transcript.spills t.transcript ∧
    ∀ k, 4 * k + 4 ≤ c.spillSize → R.Known s (c.part id k) →
      ∀ j, o + 4 * k ≤ j → j < o + 4 * k + 4 → R.Known t (.byte j)

/-- **A walk on which a tidy state stays tidy.** Between the reload of a
register and the end of its lease the state is not tidy. -/
structure Path (K : Nat → Prop) (s t : LoweringState) (registers : List Location)
    (held : List Lease) : Prop extends R.Walk K s t registers held where
  tidy : ∀ fixed vars o os, s.Tidy fixed vars (o :: os) →
    ∃ o', o.Grows o' held ∧ t.Tidy fixed vars (o' :: os)

/-- **A course after which every new jump has its mark.** -/
structure Course (K : Nat → Prop) (s t : LoweringState) (registers : List Location)
    (held : List Lease) : Prop extends R.Path K s t registers held where
  bound : ∀ l, s.assembly.labels < l → (∃ e ∈ t.assembly.entries, e.jump? = some l) →
    ∃ e ∈ t.assembly.entries, e.mark? = some l

/-- **A state to go on from**, in which some registers are held. -/
structure Ready (K : Nat → Prop) (s : LoweringState) : Prop where
  fine : R.Fine s
  held : ∀ r, K r → .register r ∈ s.layout.leased
  /-- The open scopes are those of the transcript. -/
  scopes : (Transcript.frames s.transcript).length = s.scopes.length

/-- Address registers stay aligned. -/
def Calm (s t : LoweringState) : Prop :=
  ∀ r, r < 8 → R.Shows s (R.Exact r) → R.Shows t (R.Exact r)

end Regime

namespace Regime

variable {R : Regime} {K K' : Nat → Prop} {s t u : LoweringState} {registers registers' : List Location}
  {held held' : List Lease}

/-! ## Covered states -/

theorem Covers.back (h : R.Covers t) (leads : s.Leads t registers held) : R.Covers s where
  fits := h.fits
  constants := fun c hc => by
    obtain ⟨added, eq, -⟩ := leads.constants
    exact h.constants c (by rw [eq]; exact List.mem_append_left _ hc)
  later := fun c hc => by
    obtain ⟨added, eq, above⟩ := leads.constants
    rcases h.later c hc with now | later
    · rw [eq] at now
      exact (List.mem_append.1 now).imp id (above c)
    · exact .inr (Nat.le_trans leads.globalTop_le later)
  globalSize := Nat.le_trans leads.layout.globalHigh h.globalSize
  localSize := Nat.le_trans leads.layout.localHigh h.localSize

theorem Shows.mono {P Q : Machine → Machine → Prop} (h : R.Shows s P) (sub : ∀ a b, P a b → Q a b) :
    R.Shows s Q := fun covers a b reaches => sub a b (h covers a b reaches)

/-- Where all pairs are of the same machines, everything is known. -/
theorem Identical.eq_of_run (identical : R.Identical) {es : List Indexed} {a b : Machine}
    (start : R.start a b) {a' b' : Machine} {l : Nat}
    (run : Pair.run R (.running a b) es = .running a' b' ∨
      Pair.run R (.running a b) es = .seeking l a' b') : a' = b' := by
  obtain rfl := identical a b start
  clear start
  suffices twin : ∀ es : List Indexed, ∃ c, Pair.run R (.running a a) es = .running c c ∨
      (∃ l, Pair.run R (.running a a) es = .seeking l c c) ∨
      Pair.run R (.running a a) es = .returned c c ∨ Pair.run R (.running a a) es = .stopped ∨
      Pair.run R (.running a a) es = .parted by
    obtain ⟨c, h⟩ := twin es
    rcases run with run | run <;> simp only [run] at h <;> simp_all
  intro es
  induction es using List.reverseRecOn with
  | nil => exact ⟨a, .inl rfl⟩
  | append_singleton es e ih =>
    obtain ⟨c, ih⟩ := ih
    obtain ⟨e, container⟩ := e
    simp only [Pair.run_concat]
    rcases ih with ih | ⟨l, ih⟩ | ih | ih | ih <;> rw [ih]
    · cases e with
      | instruction i text =>
        simp only [Pair.step, Pair.perform]
        split
        · split
          · exact ⟨c, by simp⟩
          · cases run : c.perform R.rsqrt i with
            | ok d => exact ⟨d, .inl rfl⟩
            | error f => exact ⟨c, by simp⟩
        · exact ⟨c, by simp⟩
      | jump form label d =>
        simp only [Pair.step, if_true]
        split <;> exact ⟨c, by simp⟩
      | cdq => exact ⟨c.extendSign, .inl rfl⟩
      | _ => exact ⟨c, by simp [Pair.step]⟩
    · cases e with
      | mark m =>
        simp only [Pair.step]
        split <;> exact ⟨c, by simp⟩
      | _ => exact ⟨c, by simp [Pair.step]⟩
    · exact ⟨c, by cases e <;> simp [Pair.step]⟩
    · exact ⟨c, by cases e <;> simp [Pair.step]⟩
    · exact ⟨c, by cases e <;> simp [Pair.step]⟩

theorem Identical.known (h : R.Identical) (p : Part) : R.Known s p := by
  rintro - a b ⟨a₀, b₀, start, run⟩
  obtain rfl := h.eq_of_run (l := 0) start (.inl run)
  cases p <;> rfl

/-- A register that is held is one of the pool. -/
theorem Ready.pool (h : R.Ready K s) {r : Nat} (hr : K r) : r ∈ RegisterClass.general.pool := by
  obtain ⟨c, id, pool, eq, -⟩ := h.fine.ok.layout.leased _ (h.held r hr)
  cases c <;> cases eq
  exact pool

theorem Ready.lt (h : R.Ready K s) {r : Nat} (hr : K r) : r < 8 := by
  have := h.pool hr
  simp only [RegisterClass.pool, List.mem_cons, List.not_mem_nil, or_false] at this
  omega

/-- What a register was saved in stays apart. -/
theorem Saves.leads {slot : Slot} (h : R.Saves s slot) (leads : s.Leads t registers held) : R.Saves t slot where
  region := h.region
  below := Nat.le_trans h.below leads.globalTop_le
  constants := fun c hc => by
    obtain ⟨added, eq, above⟩ := leads.constants
    rw [eq] at hc
    rcases List.mem_append.1 hc with old | new
    · exact h.constants c old
    · exact .inr (Nat.le_trans h.below (above c new))
  globals := h.globals
  division := fun x hx => by
    rcases leads.division with same | ⟨-, y, new, above⟩
    · exact h.division x (same ▸ hx)
    · obtain rfl : x = y := by simpa [DivisionSlots.at] using hx.symm.trans new
      exact .inl (Nat.le_trans h.below above)

/-! ## Courses -/

/-- What is kept stays kept. -/
theorem Kept.leads (sound : R.Sound) (covers : R.Covers t) (ok : t.Ok) {p : Part} (h : R.Kept s p)
    (leads : s.Leads t registers held) : R.Kept t p := by
  cases p with
  | byte k =>
    obtain ⟨apart, place⟩ := h
    have grown := leads.globalTop_le
    refine ⟨fun x hx => ?_, place.imp (Nat.lt_of_lt_of_le · grown) id⟩
    rcases leads.division with same | ⟨-, y, new, above⟩
    · exact apart x (same ▸ hx)
    · rw [new] at hx
      simp only [Option.some.injEq, DivisionSlots.at, DivisionSlots.mk.injEq,
        Location.globalMemory.injEq] at hx
      rcases place with low | high
      · omega
      · obtain ⟨z, eq, -, stop, -⟩ := ok.division _ new
        simp only [DivisionSlots.at, DivisionSlots.mk.injEq, Location.globalMemory.injEq] at eq
        have := covers.globalSize
        have := ok.layout.globalTop
        have := sound.behind
        have stop : z + 12 ≤ t.layout.globalRegion.top := stop
        simp only [Layout.globalSize] at *
        omega
  | general id => exact h
  | lane id k => exact h
  | flags => trivial

/-- The words of a register are kept. -/
theorem kept_part {c : RegisterClass} {id k : Nat} (pool : id ∈ c.pool) (word : 4 * k + 4 ≤ c.spillSize) :
    R.Kept s (c.part id k) := by
  cases c <;> simp only [RegisterClass.pool, RegisterClass.spillSize, List.mem_cons, List.not_mem_nil,
    or_false] at pool word <;> simp only [RegisterClass.part, Kept] <;> omega

namespace Path

theorem refl (fine : R.Fine s) : R.Path K s s [] [] where
  leads := .refl fine.ok
  fine := fine
  code := ⟨[], by simp, by simp⟩
  transcript := List.suffix_rfl
  frames := ⟨[], by simp⟩
  origins := fun _ _ => rfl
  knows := fun _ _ h => h
  soft := fun _ _ h => h
  tidy := fun _ _ o _ h => ⟨o, .refl o, h⟩
  saved := by simp

/-- The bytes of a slot that is kept. -/
theorem kept_of_keeps {size o j : Nat} (keeps : s.Keeps size (.globalMemory o))
    (low : o ≤ j) (high : j < o + size) : R.Kept s (.byte j) := by
  refine ⟨fun x hx => ?_, .inl (Nat.lt_of_lt_of_le high keeps.1)⟩
  rcases keeps.2 x hx with h | h <;> omega

/-- **Paths compose.** -/
theorem trans (h : R.Path K s t registers held) (h' : R.Path K t u registers' held') :
    R.Path K s u (registers ++ registers') (held ++ held') where
  leads := h.leads.trans h'.leads
  fine := h'.fine
  code := by
    obtain ⟨new, eq, young⟩ := h.code
    obtain ⟨new', eq', young'⟩ := h'.code
    refine ⟨new ++ new', by rw [eq', eq, List.append_assoc], fun e he l hl => ?_⟩
    rcases List.mem_append.1 he with he | he
    · exact young e he l hl
    · exact Nat.lt_of_le_of_lt h.leads.assembly.labels (young' e he l hl)
  transcript := h.transcript.trans h'.transcript
  frames := by
    obtain ⟨slots, eq⟩ := h.frames
    obtain ⟨slots', eq'⟩ := h'.frames
    exact ⟨slots' ++ slots, by rw [eq', eq, Transcript.addSlots_addSlots]⟩
  origins := fun r hr => (h'.origins r hr).trans (h.origins r hr)
  knows := fun p kept known covers => by
    have covers' := covers.back h'.leads
    exact h'.knows p (kept.leads h.fine.regime covers' h.fine.ok h.leads) (h.knows p kept known) covers
  soft := fun r hr soft => h'.soft r hr (h.soft r hr soft)
  tidy := fun fixed vars o os tidy => by
    obtain ⟨o', grows, tidy⟩ := h.tidy fixed vars o os tidy
    obtain ⟨o'', grows', tidy⟩ := h'.tidy fixed vars o' os tidy
    exact ⟨o'', grows.trans grows', tidy⟩
  saved := fun x hx c id o pool location spill => by
    rcases List.mem_append.1 hx with hx | hx
    · obtain ⟨keeps, mem, known⟩ := h.saved x hx c id o pool location spill
      refine ⟨h'.leads.keeps keeps, ?_, fun k hk same j low high => ?_⟩
      · exact Transcript.spills_of_suffix h'.transcript mem
      · exact h'.knows _ (kept_of_keeps keeps (by omega) (by omega))
          (known k hk same j low high)
    · obtain ⟨keeps, mem, known⟩ := h'.saved x hx c id o pool location spill
      refine ⟨keeps, mem, fun k hk same j low high => known k hk ?_ j low high⟩
      exact h.knows _ (kept_part pool hk) same

/-- Fewer registers are watched. -/
theorem weaken (h : R.Path K s t registers held) (sub : ∀ r, K' r → K r) :
    R.Path K' s t registers held :=
  { h with
    origins := fun r hr => h.origins r (sub r hr)
    soft := fun r hr => h.soft r (sub r hr) }

/-- The order of the leases under way does not matter. -/
theorem perm (h : R.Path K s t registers held) (p : held.Perm held') : R.Path K s t registers held' :=
  { h with
    leads := h.leads.perm p
    tidy := fun fixed vars o os tidy => by
      obtain ⟨o', grows, tidy⟩ := h.tidy fixed vars o os tidy
      exact ⟨o', grows.perm p, tidy⟩
    saved := fun x hx => h.saved x (p.mem_iff.2 hx) }

/-- A path goes on with steps that leave nothing behind. -/
theorem step (h : R.Path K s t registers held) (h' : R.Path K t u [] []) :
    R.Path K s u registers held := by
  simpa using h.trans h'

/-- **Pairs that seek an older label** are those of before. -/
theorem reaches_seeking (h : R.Path K s t registers held) {label : Nat} (old : label ≤ s.assembly.labels)
    {a b : Machine} (reaches : R.Reaches t (.seeking label a b)) : R.Reaches s (.seeking label a b) := by
  obtain ⟨new, eq, young⟩ := h.code
  obtain ⟨a₀, b₀, start, run⟩ := reaches
  rw [eq, Pair.run_append] at run
  refine ⟨a₀, b₀, start, ?_⟩
  generalize Pair.run R (.running a₀ b₀) (R.code s) = pair at run
  clear eq
  -- All jumps of the new code lead to labels of its own. A pair that seeks an old label
  -- behind it has therefore been seeking it since before the code.
  induction new using List.reverseRecOn with
  | nil => exact run
  | append_singleton es e ih =>
    refine ih (fun e he => young e (List.mem_append_left _ he)) ?_
    have other := young e (List.mem_append_right _ (List.mem_singleton_self e))
    rw [Pair.run_concat] at run
    obtain ⟨e, c⟩ := e
    revert run
    generalize Pair.run R pair es = before
    intro run
    cases before with
    | running a' b' =>
      cases e with
      | instruction i text =>
        simp only [Pair.step, Pair.perform] at run
        split at run
        · split at run
          · cases run
          · split at run <;> cases run
        · cases run
      | jump form l d =>
        simp only [Pair.step] at run
        split at run
        · split at run
          · cases run
            have := other label (.inl rfl)
            omega
          · cases run
        · cases run
      | _ => cases run
    | seeking l a' b' =>
      cases e with
      | mark m =>
        simp only [Pair.step] at run
        split at run
        · cases run
        · exact run
      | _ => exact run
    | returned a' b' => cases e <;> cases run
    | stopped => cases e <;> cases run
    | parted => cases e <;> cases run

theorem ready (h : R.Path K s t registers held) (ready : R.Ready K s) : R.Ready K t :=
  ⟨h.fine, fun r hr => h.leads.layout.leased.mem_iff.2 (List.mem_append_left _ (ready.held r hr)), by
    obtain ⟨slots, eq⟩ := h.frames
    rw [eq, Transcript.length_addSlots, h.leads.scopes, length_addRegisters, ready.scopes]⟩

theorem sought (h : R.Path K s t registers held) {label : Nat} (old : label ≤ s.assembly.labels)
    {P : Machine → Machine → Prop} (sought : R.Sought s label P) : R.Sought t label P :=
  fun covers a b reaches => sought (covers.back h.leads) a b (h.reaches_seeking old reaches)

end Path

namespace Course

theorem refl (fine : R.Fine s) : R.Course K s s [] [] :=
  ⟨.refl fine, fun l young ⟨e, he, hl⟩ => absurd (fine.ok.assembly.jumps e he l hl) (by omega)⟩

/-- **Courses compose.** -/
theorem trans (h : R.Course K s t registers held) (h' : R.Course K t u registers' held') :
    R.Course K s u (registers ++ registers') (held ++ held') where
  toPath := h.toPath.trans h'.toPath
  bound := fun l young jump => by
    by_cases older : l ≤ t.assembly.labels
    · obtain ⟨es, eq, new⟩ := h'.leads.assembly.entries
      obtain ⟨e, he, hl⟩ := jump
      rw [eq] at he ⊢
      rcases List.mem_append.1 he with he | he
      · obtain ⟨e', he', hl'⟩ := h.bound l young ⟨e, he, hl⟩
        exact ⟨e', List.mem_append_left _ he', hl'⟩
      · exact absurd (new e he l (.inl hl)) (by omega)
    · exact h'.bound l (by omega) jump

theorem weaken (h : R.Course K s t registers held) (sub : ∀ r, K' r → K r) :
    R.Course K' s t registers held := ⟨h.toPath.weaken sub, h.bound⟩

theorem perm (h : R.Course K s t registers held) (p : held.Perm held') :
    R.Course K s t registers held' := ⟨h.toPath.perm p, h.bound⟩

/-- A course goes on with steps that leave nothing behind. -/
theorem step (h : R.Course K s t registers held) (h' : R.Course K t u [] []) :
    R.Course K s u registers held := by
  simpa using h.trans h'

end Course

end Regime

end Shading
