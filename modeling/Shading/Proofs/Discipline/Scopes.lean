import Mathlib.Data.List.Pairwise
import Shading.Proofs.Discipline.Slots
import Shading.Proofs.Lowering.Places

/-!
# The scopes of a transcript

`Transcript.openScopes` plays a transcript back. It follows which scopes
are open, and what has been placed and leased in each of them. It stops at
a step against the rules: a placement in a scope that is not the innermost
one, a lease outside of all scopes, a lease that ends in another scope than
it was taken in, or without the reload of a borrowed register, and a scope
that closes out of order, with a lease under way, or with other registers
than were placed in it. The scopes are named by how many were open when they
opened, so that the innermost one has the last name.

A borrowed register is loaded again once. An instruction may come twice in
a transcript, so this is said by counting: the instructions that load the
register of a lease are as many as the ends of that lease
(`Transcript.Settled`).
-/

namespace Shading

open LoweringState

/-- **What has been placed**, by its type. -/
abbrev Holding := Ty × Location

/-- Two holdings share no storage. -/
def Holding.Apart (p q : Holding) : Prop := p.2.Apart p.1.size q.1.size q.2

/-- **An open scope**, with what has been placed and leased in it and not
been given back, last first. -/
structure OpenScope where
  /-- The top of the local region when the scope opened. -/
  mark : Nat
  placed : List Holding := []
  leases : List Lease := []

/-- The scope as it is when it closes: it gives back the registers that were
placed in it. -/
def OpenScope.scope (o : OpenScope) : TemporaryScope :=
  ⟨o.mark, (o.placed.reverse.map Prod.snd).filter Location.isRegister⟩

/-- The instruction that loads a borrowed register again. -/
def Lease.reload? (x : Lease) : Option (Instruction Nat) :=
  match x.location.registerOf?, x.spill with
  | some (c, id), some (.globalMemory offset) =>
    some ⟨(Lower.spillWidth c).load, id, .globalAt offset, []⟩
  | _, _ => none

/-- The slot that a borrowed register is saved in. -/
def Lease.saved? (x : Lease) : Option Slot :=
  x.location.registerOf?.bind fun (c, _) => x.spill.bind (Location.slot? c.spillSize)

theorem Lease.reload?_eq_some {x : Lease} {i : Instruction Nat} : x.reload? = some i ↔
    ∃ c id offset, i = ⟨(Lower.spillWidth c).load, id, .globalAt offset, []⟩ ∧
      x.saved? = some ⟨.global, offset, c.spillSize⟩ ∧ x.location.registerOf? = some (c, id) := by
  unfold reload? saved?
  constructor
  · intro h
    split at h
    · next c id offset register spill =>
      exact ⟨c, id, offset, (Option.some.inj h).symm, by rw [register, spill]; rfl, register⟩
    · cases h
  · rintro ⟨c, id, offset, rfl, saved, register⟩
    rw [register] at saved ⊢
    cases spill : x.spill with
    | none =>
      rw [spill] at saved
      cases saved
    | some l =>
      rw [spill] at saved
      cases l <;> cases saved
      rfl

/-- A reload reads global memory. -/
theorem Lease.reload?_ne_of_rm {x : Lease} {i : Instruction Nat} (other : ∀ o, i.rm ≠ .globalAt o) :
    x.reload? ≠ some i := by
  intro reload
  obtain ⟨c, id, offset, rfl, -⟩ := x.reload?_eq_some.1 reload
  exact other offset rfl

/-- A reload loads. -/
theorem Lease.reload?_ne_of_opcode {x : Lease} {i : Instruction Nat}
    (other : ∀ c, i.opcode ≠ (Lower.spillWidth c).load) : x.reload? ≠ some i := by
  intro reload
  obtain ⟨c, id, offset, rfl, -⟩ := x.reload?_eq_some.1 reload
  exact other c rfl

/-- Whether the register of a lease has just been reloaded, or needs no
reload. -/
def Lease.isReloaded (x : Lease) : List LoweringEvent → Bool
  | .emitted i _ :: _ => x.isPooled || x.reload? == some i
  | _ => x.isPooled

/-- The slot that a step saves a register in. -/
def LoweringEvent.saved? : LoweringEvent → Option Slot
  | .leased x _ => x.saved?
  | _ => none

/-- Whether a step takes a lease. -/
def LoweringEvent.takes (x : Lease) : LoweringEvent → Bool
  | .leased y _ => y == x
  | _ => false

/-- Whether a step ends a lease. -/
def LoweringEvent.ends (x : Lease) : LoweringEvent → Bool
  | .released y => y == x
  | _ => false

/-- Whether a step emits the instruction that loads the register of a lease
again. -/
def LoweringEvent.reloads (x : Lease) : LoweringEvent → Bool
  | .emitted i _ => x.reload? == some i
  | _ => false

namespace Transcript

/-- **The open scopes after a step**, innermost first, if the step keeps the
rules. -/
def openScopesAfter (before : List LoweringEvent) :
    LoweringEvent → List OpenScope → Option (List OpenScope)
  | .opened id scope, os =>
    if id = os.length ∧ scope.registers = [] then some (⟨scope.mark, [], []⟩ :: os) else none
  | .placed id ty location, o :: os =>
    if id = os.length then some ({ o with placed := (ty, location) :: o.placed } :: os) else none
  | .leased x _, o :: os => some ({ o with leases := x :: o.leases } :: os)
  | .released x, o :: os =>
    if x ∈ o.leases ∧ x.isReloaded before then some ({ o with leases := o.leases.erase x } :: os)
    else none
  | .closed id scope, o :: os =>
    if id = os.length ∧ o.leases = [] ∧ scope = o.scope then some os else none
  | .emitted _ _, os => some os
  | _, [] => none

/-- **The open scopes of a transcript**, innermost first, if all of its steps
keep the rules. -/
def openScopes : List LoweringEvent → Option (List OpenScope)
  | [] => some []
  | e :: es => (openScopes es).bind (openScopesAfter es e)

end Transcript

/-- All that has been placed in some scopes and in advance. -/
def holdings (fixed : List Holding) (os : List OpenScope) : List Holding :=
  os.flatMap OpenScope.placed ++ fixed

/-- The leases under way in some scopes. -/
def leasesOf (os : List OpenScope) : List Lease := os.flatMap OpenScope.leases

namespace Transcript

/-- **A lease that was taken has ended or is under way.** -/
theorem countP_takes (x : Lease) : ∀ {es : List LoweringEvent} {os : List OpenScope},
    openScopes es = some os →
      es.countP (LoweringEvent.takes x) = es.countP (LoweringEvent.ends x) + (leasesOf os).count x
  | [], os, played => by
    cases played
    rfl
  | e :: es, os, played => by
    obtain ⟨os', before, after⟩ := Option.bind_eq_some_iff.1 played
    have ih := countP_takes x before
    -- Only two events change the leases that are open, and a scope closes when it has
    -- none.
    have scope (o : OpenScope) (rest : List OpenScope) :
        (leasesOf (o :: rest)).count x = o.leases.count x + (leasesOf rest).count x := by
      simp [leasesOf]
    rw [List.countP_cons, List.countP_cons, ih]
    cases e with
    | opened id s =>
      simp only [openScopesAfter] at after
      split at after
      · cases after
        simp [LoweringEvent.takes, LoweringEvent.ends, scope]
      · cases after
    | emitted i l => cases os' <;> cases after <;> simp [LoweringEvent.takes, LoweringEvent.ends]
    | placed id ty l =>
      cases os' with
      | nil => cases after
      | cons o os' =>
        simp only [openScopesAfter] at after
        split at after
        · cases after
          simp [LoweringEvent.takes, LoweringEvent.ends, scope]
        · cases after
    | leased y avoid =>
      cases os' with
      | nil => cases after
      | cons o os' =>
        cases after
        simp only [LoweringEvent.takes, LoweringEvent.ends, scope, List.count_cons]
        simp
        omega
    | released y =>
      cases os' with
      | nil => cases after
      | cons o os' =>
        simp only [openScopesAfter] at after
        split at after
        · next held =>
          cases after
          have some : y = x → 0 < o.leases.count x := fun same => List.count_pos_iff.2 (same ▸ held.1)
          simp only [LoweringEvent.takes, LoweringEvent.ends, scope, List.count_erase]
          by_cases same : y = x
          · have := some same
            simp [same]
            omega
          · simp [same]
        · cases after
    | closed id s =>
      cases os' with
      | nil => cases after
      | cons o os' =>
        simp only [openScopesAfter] at after
        split at after
        · next done =>
          cases after
          simp [LoweringEvent.takes, LoweringEvent.ends, scope, done.2.1]
        · cases after

/-- A lease that is under way was taken. -/
theorem exists_leased {es : List LoweringEvent} {os : List OpenScope} (played : openScopes es = some os) {x : Lease}
    (under : x ∈ leasesOf os) : ∃ avoid, .leased x avoid ∈ es := by
  have some : 0 < es.countP (LoweringEvent.takes x) := by
    rw [countP_takes x played]
    exact Nat.add_pos_right _ (List.count_pos_iff.2 under)
  obtain ⟨e, he, takes⟩ := List.countP_pos_iff.1 some
  cases e with
  | leased y avoid =>
    obtain rfl : y = x := by simpa [LoweringEvent.takes] using takes
    exact ⟨avoid, he⟩
  | _ => cases takes

/-! ### Reloads -/

/-- The slot that a register was saved in is listed. -/
theorem mem_spills {es : List LoweringEvent} {x : Lease} {avoid : List Location} {slot : Slot}
    (taken : .leased x avoid ∈ es) (saved : x.saved? = some slot) : slot ∈ spills es :=
  List.mem_filterMap.2 ⟨_, taken, saved⟩

theorem spills_of_suffix {es es' : List LoweringEvent} {slot : Slot} (h : es <:+ es')
    (mem : slot ∈ spills es) : slot ∈ spills es' := by
  obtain ⟨new, rfl⟩ := h
  simp only [spills, List.filterMap_append, List.mem_append]
  exact .inr mem

theorem spills_eq_filterMap (es : List LoweringEvent) : spills es = es.filterMap LoweringEvent.saved? :=
  List.filterMap_congr fun e _ => by cases e <;> rfl

/-- A slot is that of one lease only. -/
theorem eq_of_saved {es : List LoweringEvent} (saves : (spills es).Pairwise Slot.Apart) {x y : Lease}
    {avoid avoid' : List Location} (hx : .leased x avoid ∈ es) (hy : .leased y avoid' ∈ es) {slot : Slot}
    (wide : 0 < slot.size) (savedX : x.saved? = some slot) (savedY : y.saved? = some slot) : x = y := by
  by_contra other
  have : Std.Symm fun e e' : LoweringEvent =>
      ∀ b, e.saved? = some b → ∀ b', e'.saved? = some b' → b.Apart b' :=
    ⟨fun e e' apart b hb b' hb' region => (apart b' hb' b hb region.symm).symm⟩
  rw [spills_eq_filterMap, List.pairwise_filterMap] at saves
  have apart : slot.Apart slot :=
    saves.forall hx hy (fun same => other (LoweringEvent.leased.inj same).1) slot savedX slot savedY
  have apart := apart rfl
  simp only [Slot.stop] at apart
  omega

/-- **Borrowed registers have been loaded again as often as their leases have
ended.** -/
def Settled (es : List LoweringEvent) : Prop :=
  ∀ x avoid, .leased x avoid ∈ es → x.isPooled = false →
    es.countP (LoweringEvent.reloads x) = es.countP (LoweringEvent.ends x)

namespace Settled

variable {e : LoweringEvent} {es : List LoweringEvent} {x : Lease} {avoid : List Location}

/-- A step that ends no lease that it does not reload, and a new lease of
which nothing has been said. -/
theorem cons (h : Settled es)
    (same : ∀ x avoid, .leased x avoid ∈ es → x.isPooled = false → e.reloads x = e.ends x)
    (new : ∀ x avoid, .leased x avoid = e → x.isPooled = false →
      es.countP (LoweringEvent.reloads x) = es.countP (LoweringEvent.ends x)) : Settled (e :: es) := by
  intro x avoid taken borrowed
  rw [List.countP_cons, List.countP_cons]
  rcases List.mem_cons.1 taken with here | before
  · rw [new x avoid here borrowed, ← here]
    rfl
  · rw [h x avoid before borrowed, same x avoid before borrowed]

/-- A step that emits nothing and takes and ends no lease. -/
theorem quiet (h : Settled es) (quiet : ∀ x, e.takes x = false ∧ e.ends x = false ∧ e.reloads x = false) :
    Settled (e :: es) :=
  h.cons (fun x _ _ _ => (quiet x).2.2.trans (quiet x).2.1.symm) fun x avoid here _ => by
    have none := (quiet x).1
    rw [← here] at none
    simp [LoweringEvent.takes] at none

/-- An instruction that reloads nothing. -/
theorem emitted (h : Settled es) {i : Instruction Nat} {l : Layout}
    (other : ∀ x avoid, .leased x avoid ∈ es → x.reload? ≠ some i) : Settled (.emitted i l :: es) :=
  h.cons (fun x avoid taken _ => by simpa [LoweringEvent.reloads, LoweringEvent.ends] using other x avoid taken)
    (by rintro _ _ ⟨⟩)

/-- A register that was not borrowed is given back. -/
theorem released (h : Settled es) (pooled : x.isPooled = true) : Settled (.released x :: es) :=
  h.cons (fun y avoid _ borrowed => by
    have other : x ≠ y := by
      rintro rfl
      rw [pooled] at borrowed
      cases borrowed
    simp [LoweringEvent.reloads, LoweringEvent.ends, other]) (by rintro _ _ ⟨⟩)

/-- **A borrowed register is loaded again and given back.** -/
theorem reloaded (h : Settled es) (saves : (spills es).Pairwise Slot.Apart) (taken : .leased x avoid ∈ es)
    {i : Instruction Nat} {l : Layout} (reload : x.reload? = some i) :
    Settled (.released x :: .emitted i l :: es) := by
  intro y avoid' taken' borrowed
  have before : .leased y avoid' ∈ es := by simpa using taken'
  -- No other lease has its register in the slot that is read.
  have one : y.reload? = some i ↔ x = y := by
    refine ⟨fun reload' => ?_, fun same => same ▸ reload⟩
    obtain ⟨c, id, offset, rfl, saved, -⟩ := x.reload?_eq_some.1 reload
    obtain ⟨c', id', offset', eq, saved', -⟩ := y.reload?_eq_some.1 reload'
    simp only [Instruction.mk.injEq, Operand.globalAt.injEq, and_true] at eq
    obtain ⟨load, -, rfl⟩ := eq
    obtain rfl : c = c' := by
      cases c <;> cases c' <;> first | rfl | cases load
    refine eq_of_saved saves taken before ?_ saved saved'
    cases c <;> exact Nat.zero_lt_succ _
  simp only [List.countP_cons, h y avoid' before borrowed, LoweringEvent.reloads, LoweringEvent.ends, beq_iff_eq, one,
    Bool.false_eq_true, if_false, Nat.add_zero]

end Settled

end Transcript

end Shading
