import Shading.Proofs.Discipline.Program

/-!
# The discipline of the allocator

A lowering keeps the rules of its scopes and leases. Played back from the
start, the transcript of a function is accepted to its end
(`Transcript.openScopes`), with no scope left open: each placement is in
the innermost scope, scopes close in the reverse order of their opening
with what was placed in them and with no lease under way, and a lease ends
in the scope that it was taken in, a borrowed register right after its
reload. As the slots that registers are saved in lie apart, from each other
and from all else that a function reads, the instruction that reloads a
borrowed register is emitted once (`Transcript.reloaded_once`).

Every statement that a lowering comes by (`Lower.Visits`), however deep it
stands, and every function leaves the free registers, the leases and the
top of the local region as they were (`LoweringState.SameStorage`).
-/

namespace Shading

open LoweringState Regime

/-! ## Transcripts that keep the rules -/

namespace Transcript

/-- The rules are kept from the start on. -/
theorem openScopes_of_append {later es : List LoweringEvent} {os : List OpenScope}
    (played : openScopes (later ++ es) = some os) : ∃ os', openScopes es = some os' := by
  induction later generalizing os with
  | nil => exact ⟨os, played⟩
  | cons e later ih =>
    obtain ⟨os', before, -⟩ := Option.bind_eq_some_iff.1 played
    exact ih before

/-- **A borrowed register is reloaded right before its lease ends.** -/
theorem reload_of_released {later es : List LoweringEvent} {x : Lease} {os : List OpenScope}
    (played : openScopes (later ++ .released x :: es) = some os) (borrowed : x.isPooled = false) :
    ∃ i l before, es = .emitted i l :: before ∧ x.reload? = some i := by
  obtain ⟨os', played⟩ := openScopes_of_append played
  obtain ⟨os'', -, after⟩ := Option.bind_eq_some_iff.1 played
  cases os'' with
  | nil => cases after
  | cons o rest =>
    simp only [openScopesAfter] at after
    split at after
    · next held =>
      have reloaded := held.2
      rcases es with - | ⟨e, before⟩
      · exact absurd reloaded (by simp [Lease.isReloaded, borrowed])
      · cases e with
        | emitted i l =>
          rw [Lease.isReloaded, borrowed, Bool.false_or, beq_iff_eq] at reloaded
          exact ⟨i, l, before, rfl, reloaded⟩
        | _ => exact absurd reloaded (by simp [Lease.isReloaded, borrowed])
    · cases after

/-- The slot that a borrowed register is saved in is listed once for each
of its leases. -/
theorem countP_takes_le {x : Lease} {slot : Slot} (saved : x.saved? = some slot) (es : List LoweringEvent) :
    es.countP (LoweringEvent.takes x) ≤ (spills es).count slot := by
  rw [spills_eq_filterMap, List.count, List.countP_filterMap]
  refine List.countP_mono_left fun e _ takes => ?_
  cases e with
  | leased y avoid =>
    obtain rfl : y = x := by simpa [LoweringEvent.takes] using takes
    simp [LoweringEvent.saved?, saved]
  | _ => cases takes

/-- A borrowed register is leased once: a second lease of the slot would not
lie apart from the first one. -/
theorem countP_takes_le_one {es : List LoweringEvent} (saves : (spills es).Pairwise Slot.Apart) {x : Lease}
    {slot : Slot} (saved : x.saved? = some slot) (wide : 0 < slot.size) :
    es.countP (LoweringEvent.takes x) ≤ 1 := by
  refine Nat.le_trans (countP_takes_le saved es) ?_
  by_contra twice
  have two : (List.replicate 2 slot).Sublist (spills es) :=
    List.replicate_sublist_iff.2 (show 2 ≤ _ by omega)
  have apart := (List.pairwise_cons.1 (saves.sublist two)).1 _ (List.mem_singleton_self _) rfl
  simp only [Slot.stop] at apart
  omega

/-- **A borrowed register is reloaded exactly once**: its lease ends once,
right behind the reload, and nowhere else does the transcript have the
instruction that loads it. -/
theorem reloaded_once {es : List LoweringEvent} (played : openScopes es = some [])
    (saves : (spills es).Pairwise Slot.Apart) (settled : Settled es) {x : Lease} {avoid : List Location}
    (taken : .leased x avoid ∈ es) (borrowed : x.isPooled = false) :
    ∃ later i l before, es = later ++ .released x :: .emitted i l :: before ∧ x.reload? = some i ∧
      (.released x ∉ later ∧ .released x ∉ before) ∧
      ∀ l', .emitted i l' ∉ later ∧ .emitted i l' ∉ before := by
  have count := countP_takes x played
  simp only [leasesOf, List.flatMap_nil, List.count_nil, Nat.add_zero] at count
  have some : 0 < es.countP (LoweringEvent.takes x) :=
    List.countP_pos_iff.2 ⟨_, taken, by simp [LoweringEvent.takes]⟩
  obtain ⟨e, he, ends⟩ := List.countP_pos_iff.1 (count ▸ some)
  obtain rfl : e = .released x := by
    cases e with
    | released y => rw [show y = x from by simpa [LoweringEvent.ends] using ends]
    | _ => cases ends
  have loads := settled x avoid taken borrowed
  obtain ⟨later, rest, rfl⟩ := List.append_of_mem he
  obtain ⟨i, l, before, rfl, reload⟩ := reload_of_released played borrowed
  obtain ⟨c, id, offset, -, saved, -⟩ := x.reload?_eq_some.1 reload
  have once := countP_takes_le_one saves saved (by cases c <;> exact Nat.zero_lt_succ _)
  -- One lease of the register, so one end of it, so one instruction that loads it.
  rw [count, List.countP_append, List.countP_cons, List.countP_cons] at once
  simp only [List.countP_append, List.countP_cons] at loads
  simp only [LoweringEvent.ends, LoweringEvent.reloads, reload, beq_self_eq_true, if_true, Bool.false_eq_true,
    if_false] at once loads
  have ended (part : List LoweringEvent) (none : part.countP (LoweringEvent.ends x) = 0) :
      .released x ∉ part := fun mem =>
    List.countP_eq_zero.1 none _ mem (by simp [LoweringEvent.ends])
  have loaded (part : List LoweringEvent) (none : part.countP (LoweringEvent.reloads x) = 0) (l' : Layout) :
      .emitted i l' ∉ part := fun mem =>
    List.countP_eq_zero.1 none _ mem (by simp [LoweringEvent.reloads, reload])
  exact ⟨later, i, l, before, rfl, reload, ⟨ended later (by omega), ended before (by omega)⟩,
    fun l' => ⟨loaded later (by omega) l', loaded before (by omega) l'⟩⟩

end Transcript

/-! ## What a lowering comes by -/

namespace Lower

mutual

/-- **A lowering comes by a statement**: when the statements are lowered from
`s`, the statement `st` among them, at any depth, is lowered from `t` to
`u`. -/
inductive Visits (st : Statement) (t u : LoweringState) : List Statement → LoweringState → Prop
  | here {ss : List Statement} (run : statement st t = .ok ((), u)) : Visits st t u (st :: ss) t
  | later {x : Statement} {ss : List Statement} {s s' : LoweringState}
      (run : statement x s = .ok ((), s')) (rest : Visits st t u ss s') : Visits st t u (x :: ss) s
  | inner {c : IfStatement} {ss : List Statement} {s : LoweringState}
      (choice : VisitsChoice st t u c s) : Visits st t u (.branch c :: ss) s

/-- A statement in a choice. -/
inductive VisitsChoice (st : Statement) (t u : LoweringState) : IfStatement → LoweringState → Prop
  | body {e : Expr} {body : List Statement} {otherwise : ElseBranch} {skip : Nat} {s s' : LoweringState}
      (condition : condition e s = .ok (skip, s')) (inner : Visits st t u body s') :
      VisitsChoice st t u (.mk e body otherwise) s
  | chain {e : Expr} {body : List Statement} {c : IfStatement} {skip stop : Nat}
      {s s₁ s₂ s₃ s₄ : LoweringState} (condition : condition e s = .ok (skip, s₁))
      (passed : statements body s₁ = .ok ((), s₂)) (jump : emitJump .always s₂ = .ok (stop, s₃))
      (bind : bindLabel skip s₃ = .ok ((), s₄)) (inner : VisitsChoice st t u c s₄) :
      VisitsChoice st t u (.mk e body (.chain c)) s
  | block {e : Expr} {body others : List Statement} {skip stop : Nat}
      {s s₁ s₂ s₃ s₄ : LoweringState} (condition : condition e s = .ok (skip, s₁))
      (passed : statements body s₁ = .ok ((), s₂)) (jump : emitJump .always s₂ = .ok (stop, s₃))
      (bind : bindLabel skip s₃ = .ok ((), s₄)) (inner : Visits st t u others s₄) :
      VisitsChoice st t u (.mk e body (.block others)) s

end

end Lower

/-- **Registers and local memory are as they were.** -/
structure LoweringState.SameStorage (s t : LoweringState) : Prop where
  free : ∀ c, t.layout.free c = s.layout.free c
  leased : t.layout.leased = s.layout.leased
  localTop : t.localTop = s.localTop

/-- A course that leaves nothing behind it. -/
theorem LoweringState.sameStorage_of_leads {s t : LoweringState} (ok : s.Ok) (leads : s.Leads t [] [])
    (quiet : s.layout.leased = []) (top : t.localTop = s.localTop) : s.SameStorage t where
  free := fun c => by
    have before := ok.layout.ascending c
    have after := leads.ok.layout.ascending c
    have same : (t.layout.free c).Perm (s.layout.free c) :=
      (List.perm_ext_iff_of_nodup (after.imp Nat.ne_of_lt) (before.imp Nat.ne_of_lt)).2 fun id => by
        simp [leads.layout.free c id]
    exact same.eq_of_pairwise (fun a b _ _ h h' => absurd (Nat.lt_trans h h') (Nat.lt_irrefl a)) after before
  leased := by
    have same : t.layout.leased.Perm s.layout.leased := by simpa using leads.layout.leased
    rw [quiet] at same ⊢
    exact List.perm_nil.1 same
  localTop := top

namespace Lower

variable {R : Regime} {d : Declarations} {g : FunctionId} {K : Nat → Prop}

mutual

/-- **What a lowering comes by is on its course.** -/
theorem Visits.footing (sound : d.Sound) {ss : List Statement} {s t u : LoweringState} {st : Statement}
    (visits : Visits st t u ss s) (footing : R.Footing K d (some g) s) (typed : Statement.AllTyped d g ss)
    (assigned : ∀ id ∈ Statement.allAssigned ss, R.assigned id) :
    R.Footing K d (some g) t ∧ R.Path K s t [] [] ∧ Restores R K t u := by
  cases visits with
  | here run =>
    simp only [Statement.AllTyped] at typed
    simp only [Statement.allAssigned, List.mem_append] at assigned
    exact ⟨footing, .refl footing.ready.fine, statement_results sound st s footing typed.1
      (fun id h => assigned id (.inl h)) _ _ run⟩
  | later run rest =>
    simp only [Statement.AllTyped] at typed
    simp only [Statement.allAssigned, List.mem_append] at assigned
    have course := statement_results sound _ s footing typed.1 (fun id h => assigned id (.inl h)) _ _ run
    obtain ⟨there, path, restores⟩ := Visits.footing sound rest (footing.course course.toPath) typed.2
      fun id h => assigned id (.inr h)
    exact ⟨there, course.toPath.step path, restores⟩
  | inner choice =>
    simp only [Statement.AllTyped, Statement.Typed] at typed
    simp only [Statement.allAssigned, Statement.assigned, List.mem_append] at assigned
    exact VisitsChoice.footing sound choice footing typed.1 fun id h => assigned id (.inl h)

theorem VisitsChoice.footing (sound : d.Sound) {c : IfStatement} {s t u : LoweringState} {st : Statement}
    (visits : VisitsChoice st t u c s) (footing : R.Footing K d (some g) s) (typed : c.Typed d g)
    (assigned : ∀ id ∈ c.assigned, R.assigned id) :
    R.Footing K d (some g) t ∧ R.Path K s t [] [] ∧ Restores R K t u := by
  cases visits with
  | body condition inner =>
    simp only [IfStatement.Typed] at typed
    simp only [IfStatement.assigned, List.mem_append] at assigned
    obtain ⟨typedC, truth, typedB, typedO⟩ := typed
    obtain ⟨k, awaits⟩ := condition_results sound footing typedC truth
      (fun id h => assigned id (by simp [h])) _ _ condition
    obtain ⟨there, path, restores⟩ := Visits.footing sound inner (footing.course awaits.path) typedB
      fun id h => assigned id (by simp [h])
    exact ⟨there, awaits.path.step path, restores⟩
  | chain condition passed jump bind inner =>
    simp only [IfStatement.Typed, ElseBranch.Typed] at typed
    simp only [IfStatement.assigned, ElseBranch.assigned, List.mem_append] at assigned
    obtain ⟨typedC, truth, typedB, typedO⟩ := typed
    obtain ⟨k, awaits⟩ := condition_results sound footing typedC truth
      (fun id h => assigned id (by simp [h])) _ _ condition
    have course := statements_results sound _ _ (footing.course awaits.path) typedB
      (fun id h => assigned id (by simp [h])) _ _ passed
    obtain ⟨footing₄, waits⟩ := alternative_enters footing (awaits.course course) jump bind
    obtain ⟨there, path, restores⟩ := VisitsChoice.footing sound inner footing₄ typedO
      fun id h => assigned id (by simp [h])
    exact ⟨there, waits.path.step path, restores⟩
  | block condition passed jump bind inner =>
    simp only [IfStatement.Typed, ElseBranch.Typed] at typed
    simp only [IfStatement.assigned, ElseBranch.assigned, List.mem_append] at assigned
    obtain ⟨typedC, truth, typedB, typedO⟩ := typed
    obtain ⟨k, awaits⟩ := condition_results sound footing typedC truth
      (fun id h => assigned id (by simp [h])) _ _ condition
    have course := statements_results sound _ _ (footing.course awaits.path) typedB
      (fun id h => assigned id (by simp [h])) _ _ passed
    obtain ⟨footing₄, waits⟩ := alternative_enters footing (awaits.course course) jump bind
    obtain ⟨there, path, restores⟩ := Visits.footing sound inner footing₄ typedO
      fun id h => assigned id (by simp [h])
    exact ⟨there, waits.path.step path, restores⟩

end

/-! ## Functions -/

/-- The state in which the statements of a function are lowered, when its
variables have moved in by the state `u`. -/
abbrev bodyStart (u : LoweringState) : LoweringState := passed u (.call "trampoline") u.assembly.labels

/-- **The lowering of a function follows the discipline of the allocator**,
from the state `s` to `t`; its variables have moved in by the state `u`, and
some storage was given out in advance. -/
structure Disciplined (fixed : List Holding) (g : FunctionId) (body : List Statement) (s u t : LoweringState) :
    Prop where
  /-- The transcript keeps the rules of scopes and leases to its end. -/
  played : Transcript.openScopes t.transcript = some []
  /-- The instructions of the function are those that the transcript tells of. -/
  code : t.assembly.entries.filterMap CodeEntry.instruction? = Transcript.emitted t.transcript
  /-- The instruction that reloads a borrowed register is emitted once, right
  before its lease ends, which it does once. -/
  reloaded : ∀ x avoid, .leased x avoid ∈ t.transcript → x.isPooled = false → ∃ later i l before,
    t.transcript = later ++ .released x :: .emitted i l :: before ∧ x.reload? = some i ∧
      (.released x ∉ later ∧ .released x ∉ before) ∧
      ∀ l', .emitted i l' ∉ later ∧ .emitted i l' ∉ before
  /-- Storage lies apart at each emission: the variables that the function
  sees are there, as are the temporaries of open scopes and the leases. -/
  separate : ∃ vars : List Holding,
    (∀ id v, t.declarations.symbols.get? id = some v → v.kind = .variable → v.VisibleIn (some g) →
      (v.ty, v.location) ∈ vars) ∧
    ∀ es i l, (.emitted i l :: es) <:+ t.transcript →
      ∃ os, Transcript.openScopes es = some os ∧ Separate fixed vars os
  statements : ∀ st x y, Visits st x y body (bodyStart u) → x.SameStorage y
  function : s.SameStorage t

variable {globals staging : List Holding} {body : List Statement} {s t u v w : LoweringState} {h : Function}

/-- **The statements of a function** are lowered from a footing, with no
lease under way. -/
theorem Runs.footing (sound : d.Sound) (known : d.functions.get? g = some h)
    (standing : Standing globals staging d s) (runs : Runs s g h body u w t) (suits : R.Suits globals body) :
    R.Footing (fun _ => False) d (some g) (bodyStart u) ∧ u.layout.leased = [] := by
  obtain ⟨rs, o, rehouses, moving⟩ := moveIn_results sound known standing _ u runs.moveIn
  have footing := moving.footing suits (rehouses.leads.function : u.function = some g) fun _ => Iff.rfl
  refine ⟨footing.course (course_call footing.ready moving.entries).toPath, ?_⟩
  have leased := moving.tidy.leased
  have none : Shading.leasesOf [o] = [] := by simp [Shading.leasesOf, moving.leases]
  rw [none] at leased
  exact List.perm_nil.1 leased

/-- **A function is lowered by the rules.** -/
theorem Coded.disciplined (sound : d.Sound) (known : d.functions.get? g = some h)
    (typed : Statement.AllTyped d g body) (standing : Standing globals staging d s)
    (runs : Runs s g h body u w t) (coded : Coded globals staging d g body s v t) :
    Disciplined (globals ++ staging) g body s u t := by
  obtain ⟨vars, o, tidy, none, all, -, transcript⟩ := coded.tidy
  have played : Transcript.openScopes t.transcript = some [] := by
    rw [transcript, Transcript.openScopes, tidy.scopes]
    simp [Transcript.openScopesAfter, none]
  have suits := idle_suits standing body
  obtain ⟨footing, quiet⟩ := runs.footing sound known standing suits
  exact
    { played
      code := by
        rw [coded.assembly, transcript]
        exact (coded.complete _ suits).fine.instructions
      reloaded := fun x avoid taken borrowed => by
        refine Transcript.reloaded_once played ?_ ?_ taken borrowed
        · rw [transcript]
          exact tidy.saves
        · rw [transcript]
          exact tidy.settled.quiet fun _ => ⟨rfl, rfl, rfl⟩
      separate := by
        refine ⟨vars, fun id x found kind visible => ?_, fun es i l suffix => ?_⟩
        · rw [coded.declarations] at found
          obtain ⟨x', found', eq⟩ := coded.relabels id x found
          refine all id x ⟨x', found', ?_, ?_⟩ found
          · rw [eq] at kind
            exact kind
          · rw [eq] at visible
            exact visible
        · rw [transcript] at suffix
          rcases List.suffix_cons_iff.1 suffix with same | suffix
          · cases same
          · exact (tidy.emissions es i l suffix).1
      statements := fun st x y visits => by
        obtain ⟨there, path, restores⟩ := visits.footing sound footing typed fun _ _ => trivial
        refine sameStorage_of_leads there.ready.fine.ok restores.leads ?_ restores.top
        have same : x.layout.leased.Perm (bodyStart u).layout.leased := by
          simpa using path.leads.layout.leased
        rw [show (bodyStart u).layout.leased = [] from quiet] at same
        exact List.perm_nil.1 same
      function := by
        obtain ⟨z, leads, rfl⟩ := coded.leads
        have start : ({ entered s g with declarations := z.declarations } : LoweringState).Ok :=
          ((Leads.refl (ok_entered standing.settled.ok g)).relabel _).ok
        have idle : s.layout.leased = [] :=
          List.length_eq_zero_iff.1 (Nat.le_zero.1 standing.settled.free)
        obtain ⟨free, leased, top⟩ := sameStorage_of_leads start leads idle coded.localTop
        exact ⟨free, leased, top⟩ }

end Lower

/-- **The discipline of the allocator** is followed by the lowering of every
function of a program that compiles. -/
theorem Program.follows_discipline {o : Options} {source : String} {p : Program}
    (run : compile o source = .ok p) {f : CompiledFunction} (hf : f ∈ p.functions) :
    ∃ shader g h c body s u w t, Shader.parse o.stage source = .ok shader ∧
      .function g f.name c body ∈ shader.items ∧ shader.declarations.functions.get? g = some h ∧
      Lower.Runs s g h body u w t ∧ f.assembly = t.assembly ∧ f.transcript.reverse = t.transcript ∧
      Lower.Disciplined (homesOf p.globals ++ stagesOf p.globals) g body s u t := by
  obtain ⟨shader, last, parsed, lowered⟩ := lowered_of_compile run
  obtain ⟨g, c, body, s, v, t, item, -, written, -⟩ := lowered.functions f hf
  obtain ⟨h, u, w, known, runs⟩ := written.runs
  exact ⟨shader, g, h, c, body, s, u, w, t, parsed, item, known, runs,
    written.assembly.trans written.coded.assembly.symm, by rw [written.transcript, List.reverse_reverse],
    written.coded.disciplined lowered.typed.sound known written.typed written.standing runs⟩

theorem Program.follows_discipline_sampleSource : ∃ p f, compile sampleOptions sampleSource = .ok p ∧
    f ∈ p.functions ∧ Transcript.openScopes f.transcript.reverse = some [] := by
  obtain ⟨p, compiled, main, -⟩ := compiles_sampleSource
  obtain ⟨f, hf, -⟩ := List.any_eq_true.1 main
  obtain ⟨_, _, _, _, _, _, _, _, _, -, -, -, -, -, transcript, disciplined⟩ := follows_discipline compiled hf
  exact ⟨p, f, compiled, hf, transcript ▸ disciplined.played⟩

end Shading
