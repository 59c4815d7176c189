import Shading.Proofs.Discipline.Leases

/-!
# Jumps along a path

Entries that are no instructions touch no memory. A jump that is taken
carries what was known in front of it along to its mark
(`Regime.Sought`), and behind the mark is known what was known on both
ways there. A label is pending (`LoweringState.Pending`) until it is
bound.
-/

namespace Shading

open LoweringState

namespace Regime

variable {R : Regime} {K : Nat → Prop} {s₀ s t u v : LoweringState} {registers registers' : List Location}
  {held held' : List Lease} {e : CodeEntry} {l : Nat} {P : Machine → Machine → Prop}

/-! ## Entries that are no instructions -/

/-- A state behind whose code an entry has been written. -/
def passed (s : LoweringState) (e : CodeEntry) (labels : Nat) : LoweringState :=
  { s with assembly := { s.assembly with entries := s.assembly.entries ++ [e], labels := labels } }

/-- **What a pair of machines makes of an entry** that is no instruction. -/
structure Passes (R : Regime) (K : Nat → Prop) (s : LoweringState) (e : CodeEntry) : Prop where
  plain : e.instruction? = none
  starts : CodeEntry.Starts (s.assembly.entries ++ [e])
  together : R.Covers s → ∀ a b, R.Reaches s (.running a b) → R.Both a b →
    Pair.step R (.running a b) (e, none) ≠ .parted
  goes : R.Covers s → ∀ a b a' b', R.Reaches s (.running a b) → R.Both a b →
    (Pair.step R (.running a b) (e, none) = .running a' b' ∨
      ∃ l, Pair.step R (.running a b) (e, none) = .seeking l a' b') →
    R.Both a' b' ∧ (∀ p, a.Same b p → a'.Same b' p) ∧ ∀ r, K r → R.Soft r a b → R.Soft r a' b'
  ends : R.Covers s → ∀ a b a' b', R.Reaches s (.running a b) →
    Pair.step R (.running a b) (e, none) = .returned a' b' → R.Agree a' b'

theorem code_passed (fine : R.Fine s) (plain : e.instruction? = none) (labels : Nat) :
    R.code (passed s e labels) = R.code s ++ [(e, none)] := by
  have count : (s.assembly.entries.filterMap CodeEntry.instruction?).length =
      (Transcript.containers R.globals s.transcript).length := by
    rw [fine.instructions, Transcript.length_containers]
  have := withContainers_append (l := [e]) (k := []) count
  rw [List.append_nil] at this
  refine this.trans (congrArg _ ?_)
  cases e <;> rfl

/-- Where an entry leads was led to before. -/
theorem reaches_passed (fine : R.Fine s) (plain : e.instruction? = none) {labels : Nat} {pair : Pair}
    (reaches : R.Reaches (passed s e labels) pair) :
    ∃ before, R.Reaches s before ∧ Pair.step R before (e, none) = pair := by
  obtain ⟨a, b, start, run⟩ := reaches
  rw [code_passed fine plain, Pair.run_concat] at run
  exact ⟨_, ⟨a, b, start, rfl⟩, run⟩

/-- An entry without a mark is not what is sought. -/
theorem step_seeking (unmarked : e.mark? = none) (l : Nat) (a b : Machine) :
    Pair.step R (.seeking l a b) (e, none) = .seeking l a b := by
  cases e <;> first | rfl | cases unmarked

theorem step_over (pair : Pair) (past : (∃ a b, pair = .returned a b) ∨ pair = .stopped ∨ pair = .parted) :
    Pair.step R pair (e, none) = pair := by
  rcases past with ⟨a, b, rfl⟩ | rfl | rfl <;> cases e <;> rfl

/-- Pairs that run behind an entry ran before it. -/
theorem Passes.running (passes : R.Passes K s e) (fine : R.Fine s) (unmarked : e.mark? = none)
    {labels : Nat} {a' b' : Machine} (reaches : R.Reaches (passed s e labels) (.running a' b')) :
    ∃ a b, R.Reaches s (.running a b) ∧ Pair.step R (.running a b) (e, none) = .running a' b' := by
  obtain ⟨before, reaches, step⟩ := reaches_passed fine passes.plain reaches
  cases before with
  | running a b => exact ⟨a, b, reaches, step⟩
  | seeking l a b =>
    rw [step_seeking unmarked] at step
    cases step
  | returned a b =>
    rw [step_over _ (.inl ⟨a, b, rfl⟩)] at step
    cases step
  | stopped =>
    rw [step_over _ (.inr (.inl rfl))] at step
    cases step
  | parted =>
    rw [step_over _ (.inr (.inr rfl))] at step
    cases step

/-- **An entry that is no instruction leads on.** -/
theorem Passes.path (passes : R.Passes K s e) (ready : R.Ready K s) {labels : Nat}
    (unmarked : e.mark? = none) (leads : s.Leads (passed s e labels) [] [])
    (young : ∀ l, e.jump? = some l → s.assembly.labels < l) :
    R.Path K s (passed s e labels) [] [] := by
  have fine := ready.fine
  have back (covers : R.Covers (passed s e labels)) : R.Covers s := covers.back leads
  -- Two machines that are still running together agree, so the entry is carried out on
  -- both of them or on neither.
  have both {a b : Machine} (covers : R.Covers s) (reaches : R.Reaches s (.running a b)) : R.Both a b :=
    fine.grounded covers a b (.inl reaches)
  refine
    { leads := leads
      fine :=
        { fine with
          ok := leads.ok
          entries := passes.starts
          instructions := ?_
          spills := fun slot hs => { fine.spills slot hs with }
          admitted := fun covers reaches => ?_
          grounded := fun covers a' b' progress => ?_
          returned := fun covers a' b' reaches => ?_ }
      code := ⟨_, code_passed fine passes.plain labels, fun x hx l hl => ?_⟩
      transcript := List.suffix_rfl
      frames := ⟨[], by rw [Transcript.addSlots_nil]; rfl⟩
      origins := fun _ _ => rfl
      knows := fun p _ known covers a' b' reaches => ?_
      soft := fun r hr soft covers a' b' reaches => ?_
      tidy := fun _ _ o _ tidy => ⟨o, .refl o, tidy.step leads (.inl rfl)⟩
      saved := by simp }
  · change (s.assembly.entries ++ [e]).filterMap _ = _
    rw [List.filterMap_append, fine.instructions]
    simp [passes.plain]; rfl
  · obtain ⟨before, reaches, step⟩ := reaches_passed fine passes.plain reaches
    cases before with
    | running a b => exact passes.together (back covers) a b reaches (both (back covers) reaches) step
    | seeking l a b =>
      rw [step_seeking unmarked] at step
      cases step
    | parted => exact fine.admitted (back covers) reaches
    | returned a b =>
      rw [step_over _ (.inl ⟨a, b, rfl⟩)] at step
      cases step
    | stopped =>
      rw [step_over _ (.inr (.inl rfl))] at step
      cases step
  -- Whether the pair runs on or looks for a label, it came from a pair before the
  -- entry, and an entry without a label is passed over by a pair that looks for one.
  · have cases_ : ∀ pair, R.Reaches (passed s e labels) pair →
        (pair = .running a' b' ∨ ∃ l, pair = .seeking l a' b') → R.Both a' b' := by
      intro pair reaches form
      obtain ⟨before, earlier, step⟩ := reaches_passed fine passes.plain reaches
      cases before with
      | running a b =>
        refine (passes.goes (back covers) a b a' b' earlier (both (back covers) earlier) ?_).1
        rw [step]
        exact form
      | seeking l a b =>
        rw [step_seeking unmarked] at step
        subst step
        rcases form with form | ⟨l', form⟩ <;> cases form
        exact fine.grounded (back covers) a' b' (.inr ⟨_, earlier⟩)
      | parted => exact absurd earlier (fine.admitted (back covers))
      | returned a b =>
        rw [step_over _ (.inl ⟨a, b, rfl⟩)] at step
        subst step
        rcases form with form | ⟨l', form⟩ <;> cases form
      | stopped =>
        rw [step_over _ (.inr (.inl rfl))] at step
        subst step
        rcases form with form | ⟨l', form⟩ <;> cases form
    rcases progress with reaches | ⟨l, reaches⟩
    · exact cases_ _ reaches (.inl rfl)
    · exact cases_ _ reaches (.inr ⟨l, rfl⟩)
  · obtain ⟨before, reaches, step⟩ := reaches_passed fine passes.plain reaches
    cases before with
    | running a b => exact passes.ends (back covers) a b a' b' reaches step
    | seeking l a b =>
      rw [step_seeking unmarked] at step
      cases step
    | returned a b =>
      rw [step_over _ (.inl ⟨a, b, rfl⟩)] at step
      exact fine.returned (back covers) a' b' (step ▸ reaches)
    | stopped =>
      rw [step_over _ (.inr (.inl rfl))] at step
      cases step
    | parted =>
      rw [step_over _ (.inr (.inr rfl))] at step
      cases step
  · rw [List.mem_singleton.1 hx, unmarked] at hl
    exact young l (hl.resolve_right nofun)
  · obtain ⟨a, b, reaches, step⟩ := passes.running fine unmarked reaches
    exact (passes.goes (back covers) a b a' b' reaches (both (back covers) reaches) (.inl step)).2.1 p
      (known (back covers) a b reaches)
  · obtain ⟨a, b, reaches, step⟩ := passes.running fine unmarked reaches
    exact (passes.goes (back covers) a b a' b' reaches (both (back covers) reaches) (.inl step)).2.2 r hr
      (soft (back covers) a b reaches)

/-- What holds of a pair that an entry leaves as it is. -/
theorem Passes.shows (passes : R.Passes K s e) (fine : R.Fine s) (unmarked : e.mark? = none)
    {labels : Nat} (leads : s.Leads (passed s e labels) [] [])
    (same : ∀ a b a' b', Pair.step R (.running a b) (e, none) = .running a' b' → a' = a ∧ b' = b)
    (shows_ : R.Shows s P) : R.Shows (passed s e labels) P := fun covers a' b' reaches => by
  obtain ⟨a, b, reaches, step⟩ := passes.running fine unmarked reaches
  obtain ⟨rfl, rfl⟩ := same a b a' b' step
  exact shows_ (covers.back leads) a' b' reaches

end Regime

/-! ## Labels that wait for their mark -/

/-- **The labels that are pending** between two states: every other new
jump has its mark. -/
def LoweringState.Pending (s t : LoweringState) (labels : List Nat) : Prop :=
  ∀ l, s.assembly.labels < l → (∃ e ∈ t.assembly.entries, e.jump? = some l) →
    (∃ e ∈ t.assembly.entries, e.mark? = some l) ∨ l ∈ labels

namespace LoweringState.Pending

variable {R : Regime} {K : Nat → Prop} {s t u : LoweringState} {labels : List Nat}
  {registers : List Location} {held : List Lease}

theorem refl (ok : s.Ok) : s.Pending s [] := fun l young ⟨e, he, hl⟩ =>
  absurd (ok.assembly.jumps e he l hl) (by omega)

/-- A course leaves no label pending. -/
theorem course (h : s.Pending t labels) (course : R.Course K t u registers held) :
    s.Pending u labels := fun l young jump => by
  by_cases older : l ≤ t.assembly.labels
  · obtain ⟨es, eq, new⟩ := course.leads.assembly.entries
    obtain ⟨e, he, hl⟩ := jump
    rw [eq] at he ⊢
    rcases List.mem_append.1 he with he | he
    · exact (h l young ⟨e, he, hl⟩).imp (fun ⟨e', he', hl'⟩ => ⟨e', List.mem_append_left _ he', hl'⟩) id
    · exact absurd (new e he l (.inl hl)) (by omega)
  · exact .inl (course.bound l (by omega) jump)

/-- A jump leaves its label pending. -/
theorem jump (h : s.Pending t labels) (form : JumpForm) :
    s.Pending (Regime.passed t (.jump form (t.assembly.labels + 1) 0) (t.assembly.labels + 1))
      ((t.assembly.labels + 1) :: labels) := fun l young ⟨e, he, hl⟩ => by
  rcases List.mem_append.1 he with he | he
  · exact (h l young ⟨e, he, hl⟩).imp (fun ⟨e', he', hl'⟩ => ⟨e', List.mem_append_left _ he', hl'⟩)
      (List.mem_cons_of_mem _)
  · rw [List.mem_singleton.1 he] at hl
    cases hl
    exact .inr List.mem_cons_self

/-- A mark ends the wait for it. -/
theorem bind {l : Nat} {d : Int} (h : s.Pending t (l :: labels)) :
    s.Pending { t with assembly := { t.assembly with
      entries := t.assembly.entries.map (Assembly.setDistance l d) ++ [.mark l] } } labels :=
  fun l' young ⟨e, he, hl⟩ => by
  rcases List.mem_append.1 he with he | he
  · obtain ⟨x, hx, rfl⟩ := List.mem_map.1 he
    rw [CodeEntry.jump?_setDistance] at hl
    rcases h l' young ⟨x, hx, hl⟩ with ⟨e', he', hl'⟩ | pending
    · exact .inl ⟨_, List.mem_append_left _ (List.mem_map_of_mem he'), by simpa using hl'⟩
    · rcases List.mem_cons.1 pending with rfl | pending
      · exact .inl ⟨.mark l', List.mem_append_right _ (List.mem_singleton_self _), rfl⟩
      · exact .inr pending
  · rw [List.mem_singleton.1 he] at hl
    cases hl

end LoweringState.Pending

namespace Regime

variable {R : Regime} {K : Nat → Prop} {s₀ s t u v : LoweringState} {registers registers' : List Location}
  {held held' : List Lease} {e : CodeEntry} {l : Nat} {P : Machine → Machine → Prop}

/-- A path with no label pending is a course. -/
theorem Path.course (h : R.Path K s t registers held) (pending : s.Pending t []) :
    R.Course K s t registers held :=
  ⟨h, fun l young jump => (pending l young jump).resolve_right (List.not_mem_nil)⟩

theorem Course.pending (h : R.Course K s t registers held) : s.Pending t [] :=
  fun l young jump => .inl (h.bound l young jump)

/-- An entry that neither jumps nor is a mark leaves nothing pending. -/
theorem Passes.course (passes : R.Passes K s e) (ready : R.Ready K s) (unmarked : e.mark? = none)
    (straight : e.jump? = none) (leads : s.Leads (passed s e s.assembly.labels) [] []) :
    R.Course K s (passed s e s.assembly.labels) [] [] := by
  have young : ∀ l, e.jump? = some l → s.assembly.labels < l := by simp [straight]
  refine (passes.path ready unmarked leads young).course ?_
  rintro l young ⟨e', he, hl⟩
  rcases List.mem_append.1 he with he | he
  · exact absurd (ready.fine.ok.assembly.jumps e' he l hl) (by omega)
  · rw [List.mem_singleton.1 he, straight] at hl
    cases hl

/-! ## Jumps -/

/-- What is sought has a jump. -/
theorem jump_of_seeking {es : List Indexed} {a b a' b' : Machine}
    (run : Pair.run R (.running a b) es = .seeking l a' b') : ∃ e ∈ es, e.1.jump? = some l := by
  -- Entries that only pass a seeking pair on were behind a jump; the jump itself is the
  -- last entry that found the pair running.
  induction es using List.reverseRecOn generalizing a' b' with
  | nil => cases run
  | append_singleton es e ih =>
    rw [Pair.run_concat] at run
    have earlier {a' b' : Machine} (run : Pair.run R (.running a b) es = .seeking l a' b') :
        ∃ x ∈ es ++ [e], x.1.jump? = some l := by
      obtain ⟨x, hx, hl⟩ := ih run
      exact ⟨x, List.mem_append_left _ hx, hl⟩
    revert run earlier
    generalize Pair.run R (.running a b) es = before
    intro run earlier
    obtain ⟨e, c⟩ := e
    cases before with
    | running x y =>
      cases e with
      | instruction i text =>
        simp only [Pair.step, Pair.perform] at run
        split at run
        · split at run
          · cases run
          · split at run <;> cases run
        · cases run
      | jump form l' d =>
        simp only [Pair.step] at run
        split at run
        · split at run
          · cases run
            exact ⟨_, List.mem_append_right _ (List.mem_singleton_self _), rfl⟩
          · cases run
        · cases run
      | _ => cases run
    | seeking l' x y =>
      cases e with
      | mark m =>
        simp only [Pair.step] at run
        split at run
        · cases run
        · cases run
          exact earlier rfl
      | _ =>
        cases run
        exact earlier rfl
    | returned x y => cases e <;> cases run
    | stopped => cases e <;> cases run
    | parted => cases e <;> cases run

theorem mem_of_mem_withContainers {es : List CodeEntry} {cs : List (Option Slot)} {e : Indexed}
    (h : e ∈ withContainers es cs) : e.1 ∈ es := by
  induction es generalizing cs with
  | nil => cases h
  | cons x es ih =>
    have here {c : Option Slot} {cs' : List (Option Slot)}
        (h : e ∈ (x, c) :: withContainers es cs') : e.1 ∈ x :: es := by
      rcases List.mem_cons.1 h with rfl | h
      · exact List.mem_cons_self
      · exact List.mem_cons_of_mem _ (ih h)
    cases x with
    | instruction i text => cases cs <;> exact here h
    | _ => exact here h

/-- A label that is not given out is not sought. -/
theorem Fine.label_le (fine : R.Fine s) {a b : Machine} (reaches : R.Reaches s (.seeking l a b)) :
    l ≤ s.assembly.labels := by
  obtain ⟨a₀, b₀, start, run⟩ := reaches
  obtain ⟨e, he, hl⟩ := jump_of_seeking run
  exact fine.ok.assembly.jumps _ (mem_of_mem_withContainers he) l hl

/-! ## Marks -/

/-- A state in which a label has been bound. -/
def boundAt (t : LoweringState) (l : Nat) (d : Int) : LoweringState :=
  { t with assembly := { t.assembly with
      entries := t.assembly.entries.map (Assembly.setDistance l d) ++ [.mark l] } }

theorem instruction?_setDistance (l : Nat) (d : Int) (e : CodeEntry) :
    (Assembly.setDistance l d e).instruction? = e.instruction? := by cases e <;> rfl

theorem withContainers_setDistance (l : Nat) (d : Int) (es : List CodeEntry) (cs : List (Option Slot)) :
    withContainers (es.map (Assembly.setDistance l d)) cs =
      (withContainers es cs).map (Pair.setDistance l d) := by
  induction es generalizing cs with
  | nil => rfl
  | cons e es ih =>
    cases e with
    | instruction i text =>
      cases cs with
      | nil => exact congrArg _ (ih [])
      | cons c cs => exact congrArg _ (ih cs)
    | _ => exact congrArg _ (ih cs)

theorem code_boundAt (fine : R.Fine t) (l : Nat) (d : Int) :
    R.code (boundAt t l d) = (R.code t).map (Pair.setDistance l d) ++ [(.mark l, none)] := by
  have count : ((t.assembly.entries.map (Assembly.setDistance l d)).filterMap
      CodeEntry.instruction?).length = (Transcript.containers R.globals t.transcript).length := by
    rw [Transcript.length_containers, ← fine.instructions, List.filterMap_map]
    congr 2
    exact funext (instruction?_setDistance l d)
  have := withContainers_append (l := [.mark l]) (k := []) count
  rw [List.append_nil, withContainers_setDistance] at this
  exact this

theorem reaches_boundAt (fine : R.Fine t) {d : Int} {pair : Pair} (reaches : R.Reaches (boundAt t l d) pair) :
    ∃ before, R.Reaches t before ∧ Pair.step R before (.mark l, none) = pair := by
  obtain ⟨a, b, start, run⟩ := reaches
  rw [code_boundAt fine, Pair.run_concat, Pair.run_setDistance] at run
  exact ⟨_, ⟨a, b, start, rfl⟩, run⟩

/-- Pairs that run behind a mark ran in front of it, or sought it. -/
theorem running_boundAt (fine : R.Fine t) {d : Int} {a b : Machine}
    (reaches : R.Reaches (boundAt t l d) (.running a b)) :
    R.Reaches t (.running a b) ∨ R.Reaches t (.seeking l a b) := by
  obtain ⟨before, earlier, step⟩ := reaches_boundAt fine reaches
  cases before with
  | running x y =>
    cases step
    exact .inl earlier
  | seeking l' x y =>
    simp only [Pair.step] at step
    split at step
    · next same =>
      cases step
      exact .inr (same ▸ earlier)
    · cases step
  | _ => cases step

/-- Other marks are sought still. -/
theorem seeking_boundAt (fine : R.Fine t) {d : Int} {l' : Nat} {a b : Machine}
    (reaches : R.Reaches (boundAt t l d) (.seeking l' a b)) : l' ≠ l ∧ R.Reaches t (.seeking l' a b) := by
  obtain ⟨before, earlier, step⟩ := reaches_boundAt fine reaches
  cases before with
  | seeking m x y =>
    simp only [Pair.step] at step
    split at step
    · cases step
    · next other =>
      cases step
      exact ⟨fun same => other same.symm, earlier⟩
  | _ => cases step

/-- **A label is bound along a path.** The pairs that arrive by its jump
know what was known at `v`, in front of the jump. -/
theorem Path.bind (h : R.Path K s t registers held) (hv : R.Path K s v registers' held)
    (arrive : ∀ P, R.Shows v P → R.Sought t l P) {d : Int} (young : s.assembly.labels < l)
    (base : s.Ok) (leads : s.Leads (boundAt t l d) registers held) :
    R.Path K s (boundAt t l d) registers held := by
  have fine := h.fine
  have covers_iff : R.Covers (boundAt t l d) ↔ R.Covers t :=
    ⟨fun h => ⟨h.fits, h.constants, h.later, h.globalSize, h.localSize⟩,
      fun h => ⟨h.fits, h.constants, h.later, h.globalSize, h.localSize⟩⟩
  -- A pair that runs on behind the label ran there already or came by a jump, and both
  -- ways show the fact.
  have both {P : Machine → Machine → Prop} (hs : R.Shows v P) (ht : R.Shows t P) :
      R.Shows (boundAt t l d) P := fun covers a b reaches => by
    rcases running_boundAt fine reaches with reaches | reaches
    · exact ht (covers_iff.1 covers) a b reaches
    · exact arrive P hs (covers_iff.1 covers) a b reaches
  refine
    { leads := leads
      fine :=
        { fine with
          ok := leads.ok
          entries := (fine.entries.setDistance l d).concat rfl
          instructions := ?_
          spills := fun slot hs => { fine.spills slot hs with }
          admitted := fun covers reaches => ?_
          grounded := fun covers a b progress => ?_
          returned := fun covers a b reaches => ?_ }
      code := ?_
      transcript := h.transcript
      frames := h.frames
      origins := h.origins
      knows := fun p kept known => both (hv.knows p kept known) (h.knows p kept known)
      soft := fun r hr soft => both (hv.soft r hr soft) (h.soft r hr soft)
      tidy := fun fixed vars o os tidy => by
        obtain ⟨o', grows, tidy⟩ := h.tidy fixed vars o os tidy
        exact ⟨o', grows, tidy.congr rfl rfl rfl rfl⟩
      saved := fun x hx c id o pool location spill => ?_ }
  · change _ = Transcript.emitted t.transcript
    rw [← fine.instructions]
    change (t.assembly.entries.map (Assembly.setDistance l d) ++ [CodeEntry.mark l]).filterMap _ = _
    rw [List.filterMap_append, List.filterMap_map]
    have same : CodeEntry.instruction? ∘ Assembly.setDistance l d = CodeEntry.instruction? :=
      funext (instruction?_setDistance l d)
    rw [same]
    simp [CodeEntry.instruction?]
  · obtain ⟨before, earlier, step⟩ := reaches_boundAt fine reaches
    cases before with
    | parted => exact fine.admitted (covers_iff.1 covers) earlier
    | seeking l' x y =>
      simp only [Pair.step] at step
      split at step <;> cases step
    | _ => cases step
  · rcases progress with reaches | ⟨l', reaches⟩
    · rcases running_boundAt fine reaches with reaches | reaches
      · exact fine.grounded (covers_iff.1 covers) a b (.inl reaches)
      · exact fine.grounded (covers_iff.1 covers) a b (.inr ⟨l, reaches⟩)
    · exact fine.grounded (covers_iff.1 covers) a b (.inr ⟨l', (seeking_boundAt fine reaches).2⟩)
  · obtain ⟨before, earlier, step⟩ := reaches_boundAt fine reaches
    cases before with
    | returned x y =>
      cases step
      exact fine.returned (covers_iff.1 covers) a b earlier
    | seeking l' x y =>
      simp only [Pair.step] at step
      split at step <;> cases step
    | _ => cases step
  · obtain ⟨new, eq, later⟩ := h.code
    -- The distances that are set are those of jumps to this label, and the code before
    -- the start has none: the label is younger.
    have old : (R.code s).map (Pair.setDistance l d) = R.code s := by
      refine (List.map_congr_left fun e he => ?_).trans (List.map_id _)
      have he := mem_of_mem_withContainers he
      obtain ⟨e, c⟩ := e
      cases e with
      | jump form l' d' =>
        have : l' ≠ l := by
          have := base.assembly.jumps _ he l' rfl
          omega
        simp [Pair.setDistance, Assembly.setDistance, this]
      | _ => rfl
    refine ⟨new.map (Pair.setDistance l d) ++ [(.mark l, none)], ?_, fun e he l' hl => ?_⟩
    · rw [code_boundAt fine, eq, List.map_append, old, List.append_assoc]
    · rcases List.mem_append.1 he with he | he
      · obtain ⟨x, hx, rfl⟩ := List.mem_map.1 he
        refine later x hx l' ?_
        simpa [Pair.setDistance] using hl
      · rw [List.mem_singleton.1 he] at hl
        rcases hl with hl | hl <;> cases hl
        exact young
  · obtain ⟨keeps, listed, known⟩ := h.saved x hx c id o pool location spill
    obtain ⟨-, -, known'⟩ := hv.saved x hx c id o pool location spill
    exact ⟨keeps, listed, fun k hk same j low high => both (known' k hk same j low high)
      (known k hk same j low high)⟩

end Regime

open Regime

namespace Lower

variable {R : Regime} {K : Nat → Prop} {s₀ s t u v : LoweringState} {registers registers' : List Location}
  {held : List Lease} {l : Nat}

/-- **What a jump comes to**: it leaves all as it is, and what was known in
front of it is known where its label is bound. -/
structure Jumps (R : Regime) (K : Nat → Prop) (s t : LoweringState) (form : JumpForm) (l : Nat) : Prop where
  path : R.Path K s t [] []
  state : t = passed s (.jump form l 0) l
  label : l = s.assembly.labels + 1
  isOpen : t.assembly.Open form l
  arrives : ∀ P, R.Shows s P → R.Sought t l P
  shows : ∀ P, R.Shows s P → R.Shows t P
  /-- Behind a jump that is always taken there are no runs. -/
  leaves : form = .always → ∀ P, R.Shows t P

theorem emitJump_results (ready : R.Ready K s) (form : JumpForm)
    (decides : form = .always ∨ R.Known s .flags) :
    Results (emitJump form) s fun l t => Jumps R K s t form l := by
  have fine := ready.fine
  obtain ⟨ok, isOpen, new⟩ := Assembly.leads_jump fine.ok.assembly form
  have leads : s.Leads (passed s (.jump form (s.assembly.labels + 1) 0) (s.assembly.labels + 1)) [] [] :=
    .ofAssembly fine.ok ok s.transcript
  -- Either the jump is always taken, or the flags are known: both machines decide
  -- alike.
  have agree (covers : R.Covers s) {a b : Machine} (reaches : R.Reaches s (.running a b)) :
      form.taken a.registers.flags = form.taken b.registers.flags := by
    rcases decides with rfl | known
    · rfl
    · have same : a.registers.flags = b.registers.flags := known covers a b reaches
      rw [same]
  have passes : R.Passes K s (.jump form (s.assembly.labels + 1) 0) :=
    { plain := rfl
      starts := fine.entries.concat rfl
      together := fun covers a b reaches _ step => by
        simp only [Pair.step, agree covers reaches, if_true] at step
        split at step <;> cases step
      goes := fun covers a b a' b' reaches both step => by
        simp only [Pair.step, agree covers reaches, if_true] at step
        have : a' = a ∧ b' = b := by
          rcases step with step | ⟨l, step⟩ <;> split at step <;> cases step <;> exact ⟨rfl, rfl⟩
        obtain ⟨rfl, rfl⟩ := this
        exact ⟨both, fun _ h => h, fun _ _ h => h⟩
      ends := fun covers a b a' b' reaches step => by
        simp only [Pair.step, agree covers reaches, if_true] at step
        split at step <;> cases step }
  refine .intro rfl
    { path := passes.path ready rfl leads fun l hl => by
        cases hl
        omega
      state := rfl
      label := rfl
      isOpen := isOpen
      arrives := fun P shows_ covers a b reaches => ?_
      shows := fun P => passes.shows fine rfl leads fun a b a' b' step => ?_
      leaves := fun always P covers a b reaches => ?_ }
  · obtain ⟨before, earlier, step⟩ := reaches_passed fine passes.plain reaches
    cases before with
    | running x y =>
      simp only [Pair.step] at step
      split at step
      · split at step
        · cases step
          exact shows_ (covers.back leads) a b earlier
        · cases step
      · cases step
    | seeking l' x y =>
      cases step
      exact absurd (fine.label_le earlier) (by omega)
    | _ => cases step
  · simp only [Pair.step] at step
    split at step
    · split at step
      · cases step
      · cases step
        exact ⟨rfl, rfl⟩
    · cases step
  · subst always
    obtain ⟨x, y, -, step⟩ := passes.running fine rfl reaches
    simp [Pair.step, JumpForm.taken] at step

/-- **What binding a label comes to**, between a state `t` and `u`: what was
known at `v`, in front of the jump, and at `t` is known behind the mark. -/
structure Marks (R : Regime) (v t u : LoweringState) (l : Nat) : Prop where
  shows : ∀ P, R.Shows v P → R.Shows t P → R.Shows u P
  sought : ∀ l' P, l' ≠ l → R.Sought t l' P → R.Sought u l' P
  isOpen : ∀ form l', l' ≠ l → t.assembly.Open form l' → u.assembly.Open form l'
  pending : ∀ (s : LoweringState) labels, s.Pending t (l :: labels) → s.Pending u labels
  labels : u.assembly.labels = t.assembly.labels
  layout : u.layout = t.layout

theorem bindLabel_results (h : R.Path K s t registers held) (hv : R.Path K s v registers' held)
    (arrive : ∀ P, R.Shows v P → R.Sought t l P) {form : JumpForm} (isOpen : t.assembly.Open form l)
    (young : s.assembly.labels < l) (base : s.Ok) :
    Results (bindLabel l) t fun _ u => R.Path K s u registers held ∧ Marks R v t u l := by
  have fine := h.fine
  obtain ⟨i, d, hi, bind⟩ := Assembly.bind_eq fine.ok.assembly isOpen
  unfold bindLabel
  refine .bindGet ?_
  rw [bind]
  split
  · next fits =>
    have assembly := h.leads.assembly.bind young base.assembly isOpen hi rfl fits
    have leads : s.Leads (boundAt t l ((t.assembly.size : Int) -
        Assembly.startOf t.assembly.entries (i + 1))) registers held :=
      { h.leads with
        ok := ⟨fine.ok.layout, assembly.sound, fine.ok.agrees, fine.ok.ascending, fine.ok.pooled, fine.ok.division⟩
        assembly := assembly }
    refine .intro rfl ⟨h.bind hv arrive young base leads, ?_⟩
    exact
      { shows := fun P hs ht covers a b reaches => by
          have covers : R.Covers t := ⟨covers.fits, covers.constants, covers.later, covers.globalSize, covers.localSize⟩
          rcases running_boundAt fine reaches with reaches | reaches
          · exact ht covers a b reaches
          · exact arrive P hs covers a b reaches
        sought := fun l' P other sought covers a b reaches =>
          sought ⟨covers.fits, covers.constants, covers.later, covers.globalSize, covers.localSize⟩ a b
            (seeking_boundAt fine reaches).2
        isOpen := fun form' l' other isOpen' => isOpen'.bind other
        pending := fun s labels pending => pending.bind
        labels := rfl
        layout := rfl }
  · intro _ _ run
    cases run

/-! ## Other entries -/

/-- **Calling the trampoline** is not part of the runs. -/
theorem course_call (ready : R.Ready K s) (first : s.assembly.entries = []) :
    R.Course K s (passed s (.call "trampoline") s.assembly.labels) [] [] := by
  have leads : s.Leads (passed s (.call "trampoline") s.assembly.labels) [] [] :=
    .ofAssembly ready.fine.ok (Assembly.leads_write ready.fine.ok.assembly ⟨rfl, rfl⟩) s.transcript
  have passes : R.Passes K s (.call "trampoline") :=
    { plain := rfl
      starts := ⟨[], .inr (by rw [first]; rfl), by simp⟩
      together := fun _ a b _ _ => by simp [Pair.step]
      goes := fun _ a b a' b' _ both step => by
        rcases step with step | ⟨l, step⟩ <;> cases step
        exact ⟨both, fun _ h => h, fun _ _ h => h⟩
      ends := fun _ a b _ _ _ => by simp [Pair.step] }
  exact passes.course ready rfl rfl leads

/-- **Returning** ends the runs, with the global variables the same on both
machines. -/
theorem emitReturn_results (ready : R.Ready K s) (agree : R.Shows s R.Agree) :
    Results emitReturn s fun _ t => R.Course K s t [] [] ∧ t = passed s .ret s.assembly.labels ∧
      ∀ P, R.Shows t P := by
  have leads : s.Leads (passed s .ret s.assembly.labels) [] [] :=
    .ofAssembly ready.fine.ok (Assembly.leads_write ready.fine.ok.assembly ⟨rfl, rfl⟩) s.transcript
  have passes : R.Passes K s .ret :=
    { plain := rfl
      starts := ready.fine.entries.concat rfl
      together := fun _ a b _ _ => by simp [Pair.step]
      goes := fun _ a b a' b' _ both step => by
        rcases step with step | ⟨l, step⟩ <;> cases step
      ends := fun covers a b a' b' reaches step => by
        cases step
        exact agree covers a b reaches }
  refine .intro rfl ⟨passes.course ready rfl rfl leads, rfl, fun P covers a b reaches => ?_⟩
  obtain ⟨x, y, -, step⟩ := passes.running ready.fine rfl reaches
  cases step

/-- What the sign extension of `eax` leaves in a general register. -/
theorem general64_extendSign (m : Machine) (id : Nat) :
    m.extendSign.general64 id = if id % 8 = 2 then
      (if Binary32.isNegative (m.general32 0) then (0xFFFFFFFF : Word) else 0).toUInt64
    else m.general64 id := by
  rw [Machine.extendSign, Machine.setGeneral32, Machine.general64_set]

/-- **Extending the sign of `eax`** into `edx`. -/
theorem cdq_results (ready : R.Ready K s) (known : R.Known s (.general 0)) :
    Results (modifyAssembly fun a => a.write .cdq) s fun _ t =>
      R.Emits K s t (· = 2) (· = .general 2) := by
  have fine := ready.fine
  have leads : s.Leads (passed s .cdq s.assembly.labels) [] [] :=
    .ofAssembly fine.ok (Assembly.leads_write fine.ok.assembly ⟨rfl, rfl⟩) s.transcript
  have grounds {m : Machine} (h : R.Grounds m) : R.Grounds m.extendSign := by
    refine ⟨h.base, h.size, ?_⟩
    rw [general64_extendSign]
    exact h.localBase
  -- Neither operand nor address is used, so the two machines pass it alike from any
  -- state.
  have passes : R.Passes K s .cdq :=
    { plain := rfl
      starts := fine.entries.concat rfl
      together := fun _ a b _ _ => by simp [Pair.step]
      goes := fun covers a b a' b' reaches both step => by
        rcases step with step | ⟨l, step⟩ <;> cases step
        have low : a.general64 0 = b.general64 0 := known covers a b reaches
        refine ⟨⟨grounds both.1, grounds both.2.1, both.2.2⟩, fun p same => ?_, fun r _ soft high => ?_⟩
        · cases p with
          | general id =>
            have word : a.general32 0 = b.general32 0 := by rw [Machine.general32, low]; rfl
            change a.extendSign.general64 id = b.extendSign.general64 id
            rw [general64_extendSign, general64_extendSign, word, same]
          | lane id k => exact same
          | byte k => exact same
          | flags => exact same
        · rw [general64_extendSign]
          split
          · refine .inr ?_
            rw [UInt32.toNat_toUInt64]
            exact UInt32.toNat_lt _
          · exact soft high
      ends := fun _ a b _ _ _ => by simp [Pair.step] }
  refine .intro rfl ⟨⟨passes.course ready rfl rfl leads, fun p gained covers a' b' reaches => ?_,
    fun r small other exact covers a' b' reaches high => ?_⟩, fun p known covers a' b' reaches => ?_⟩
  -- The high half is the sign of a known word, and so is known after it.
  · obtain ⟨a, b, earlier, step⟩ := passes.running fine rfl reaches
    cases step
    have low : a.general64 0 = b.general64 0 := known (covers.back leads) a b earlier
    have word : a.general32 0 = b.general32 0 := by rw [Machine.general32, low]; rfl
    subst gained
    change a.extendSign.general64 2 = b.extendSign.general64 2
    rw [general64_extendSign, general64_extendSign, word]
    rfl
  · obtain ⟨a, b, earlier, step⟩ := passes.running fine rfl reaches
    cases step
    rw [general64_extendSign, if_neg (by omega)]
    exact exact (covers.back leads) a b earlier high
  · obtain ⟨a, b, earlier, step⟩ := passes.running fine rfl reaches
    have both := fine.grounded (covers.back leads) a b (.inl earlier)
    exact (passes.goes (covers.back leads) a b a' b' earlier both (.inl step)).2.1 p
      (known (covers.back leads) a b earlier)

end Lower

end Shading
