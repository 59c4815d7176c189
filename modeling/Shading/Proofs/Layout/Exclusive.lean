import Mathlib.Data.List.Induction
import Shading.Proofs.Layout.Sessions

/-!
# Which registers are shared

A lease that borrows leaves the register to its owner. Where the owner is
an open scope, the scope may close first: its registers are given back,
the borrowed one with them, and the next operation may hand it out again,
to a second lease or to a value, while the first lease still has it.

A session is `Exclusive` if its leases have different registers and none
of these is free. That is what it takes for the next operation to share no
register, whichever it is (`Session.Sound.sharesNone_iff`). Every
operation keeps it, except a closing that `Exposes` a borrowed register
(`Session.Exclusive.step`). So no register is shared in the course of some
operations just if no scope closes over a lease that borrowed from it
(`Session.sheltered_iff`).
-/

namespace Shading.Layout

/-- The registers of the pool of a class, other than one. -/
def allBut (c : RegisterClass) (id : Nat) : List Location :=
  (c.pool.filter (· ≠ id)).map c.location

theorem mem_registersOf_allBut {c : RegisterClass} {id i : Nat} :
    i ∈ registersOf c (allBut c id) ↔ i ∈ c.pool ∧ i ≠ id := by
  simp only [mem_registersOf, allBut, List.mem_map, List.mem_filter, decide_eq_true_eq]
  constructor
  · rintro ⟨x, ⟨j, h, rfl⟩, same⟩
    obtain rfl : j = i := by simpa using same
    exact h
  · exact fun h => ⟨_, ⟨i, h, rfl⟩, by simp⟩

/-- A free register is leased when all others are to be avoided. -/
theorem lease_allBut {l : Layout} {c : RegisterClass} {id : Nat} (pooled : ∀ i ∈ l.free c, i ∈ c.pool)
    (free : id ∈ l.free c) :
    ∃ l', l.lease c (allBut c id) = .ok (⟨c.location id, none⟩, l') := by
  rcases l.lease_outcome c (allBut c id) with ⟨i, hi, clear, grant⟩ | ⟨taken, -⟩
  · rw [mem_registersOf_allBut, not_and, not_not] at clear
    rw [clear (pooled i hi)] at grant
    exact ⟨_, grant⟩
  · exact absurd rfl (mem_registersOf_allBut.1 (taken id free)).2

namespace Session

variable {s t : Session} {account : List (Action × Answer)} {a : Action} {answer : Answer}

/-- **The leases are exclusive**: they have different registers, and none
of these is free. -/
def Exclusive (s : Session) : Prop := (s.held ++ s.layout.available).Nodup

/-- **The next operation shares no register**, whichever it is: the leases
under way after it have different registers, and what it places is not in
the register of a lease. -/
def SharesNone (s : Session) : Prop :=
  ∀ a answer t, s.step a = .ok (answer, t) → t.held.Nodup ∧
    ∀ x, answer = .placed x → x.registerOf?.isSome → x ∉ s.held

/-- **An operation exposes a lease**: it closes a scope and a lease has
one of the registers of the scope. -/
def Exposes (s : Session) (a : Action) : Prop :=
  ∃ n scope, a = .closeScope n ∧ s.openScope? n = some scope ∧ ∃ x ∈ scope.registers, x ∈ s.held

theorem exclusive_iff_count :
    s.Exclusive ↔ ∀ x, s.held.count x + s.layout.available.count x ≤ 1 := by
  simp only [Exclusive, List.nodup_iff_count_le_one, List.count_append]

theorem exclusive_start : Exclusive {} := nodup_registers

/-! ## One operation -/

/-- An operation that changes no lease, and after which no more registers
are free than before. -/
theorem Exclusive.mono (excl : s.Exclusive) (leases : t.leases = s.leases)
    (free : ∀ x, t.layout.available.count x ≤ s.layout.available.count x) : t.Exclusive := by
  rw [exclusive_iff_count] at excl ⊢
  intro x
  have := excl x
  have := free x
  rw [held, leases]
  simp only [held] at *
  omega

/-- A placement. -/
theorem Exclusive.take (excl : s.Exclusive) {x : Location} {size : Nat}
    (takes : s.layout.Takes t.layout x size) (leases : t.leases = s.leases) : t.Exclusive := by
  refine excl.mono leases fun y => ?_
  rw [takes.available.count_eq y, List.count_append]
  exact Nat.le_add_left _ _

/-- A scope that closes and exposes no lease. -/
theorem Exclusive.close (excl : s.Exclusive) (sound : s.Sound account) {id : Nat}
    {scope : TemporaryScope} (isOpen : s.scopes[id]? = some (some scope))
    (apart : ∀ x ∈ scope.registers, x ∉ s.held) :
    Exclusive { s with layout := s.layout.closeScope scope, scopes := s.scopes.set id none } := by
  obtain ⟨whole, once⟩ := sound.apart_scope isOpen
  have back : (s.layout.closeScope scope).available.Perm (scope.registers ++ s.layout.available) :=
    available_foldl_giveBack whole once
  refine exclusive_iff_count.2 fun x => ?_
  have excl := exclusive_iff_count.1 excl x
  have once := List.nodup_iff_count_le_one.1 once x
  change s.held.count x + (s.layout.closeScope scope).available.count x ≤ 1
  rw [back.count_eq x]
  rw [List.count_append] at once ⊢
  by_cases mem : x ∈ scope.registers
  · have := List.count_eq_zero.2 (apart x mem)
    omega
  · have := List.count_eq_zero.2 mem
    omega

/-- A lease took its register off the free ones, or the register was
neither free nor any lease's. -/
theorem Sound.origin_lease (sound : s.Sound account) {c : RegisterClass} {avoid : List Location}
    {y : Lease} {l : Layout} (grant : s.layout.lease c avoid = .ok (y, l)) :
    pooledOf [y] = [y.location] ∨
      pooledOf [y] = [] ∧ y.location ∉ s.held ∧ y.location ∉ s.layout.available := by
  rcases s.layout.lease_outcome c avoid with
    ⟨id, -, -, granted⟩ | ⟨taken, ⟨id, -, clear, unleased, granted⟩ | ⟨-, refusal⟩⟩
  · rw [grant] at granted
    cases granted
    exact .inl rfl
  · rw [grant] at granted
    cases granted
    exact .inr ⟨rfl, sound.leased.mem_iff.not.1 unleased,
      location_mem_available.not.2 fun free => clear (taken id free)⟩
  · rw [refusal] at grant
    cases grant

/-- A lease that is granted. -/
theorem Exclusive.lease (excl : s.Exclusive) (sound : s.Sound account) {c : RegisterClass}
    {avoid : List Location} {y : Lease} {l : Layout} (grant : s.layout.lease c avoid = .ok (y, l)) :
    Exclusive { s with layout := l, leases := s.leases ++ [some y] } := by
  refine exclusive_iff_count.2 fun x => ?_
  have excl := exclusive_iff_count.1 excl x
  have available := (leases_lease grant).available.count_eq x
  have more : held { s with layout := l, leases := s.leases ++ [some y] } = s.held ++ [y.location] := by
    simp [held]
  change (held { s with layout := l, leases := s.leases ++ [some y] }).count x + l.available.count x ≤ 1
  rw [more]
  rw [List.count_append] at available ⊢
  rcases sound.origin_lease grant with pooled | ⟨borrowed, unleased, taken⟩
  · rw [pooled] at available
    omega
  · rw [borrowed, List.count_nil] at available
    by_cases same : x = y.location
    · subst same
      have := List.count_eq_zero.2 unleased
      have := List.count_eq_zero.2 taken
      have := List.count_singleton_self (a := y.location)
      omega
    · have := List.count_eq_zero.2 (List.mem_singleton.not.2 same)
      omega

/-- A lease that ends: if it took its register off the free ones, the
register is free instead. -/
theorem Exclusive.release (excl : s.Exclusive) (sound : s.Sound account) {id : Nat} {y : Lease}
    (underWay : s.leases[id]? = some (some y)) :
    Exclusive { s with layout := s.layout.release y, leases := s.leases.set id none } := by
  obtain ⟨whole, once⟩ := sound.apart_lease underWay
  have back := available_release whole once
  have ended := perm_flatMap_set (fun o : Option Lease => o.toList.map Lease.location) underWay none
  refine exclusive_iff_count.2 fun x => ?_
  have excl := exclusive_iff_count.1 excl x
  have back := back.count_eq x
  have ended := ended.count_eq x
  have part : (pooledOf [y]).count x ≤ [y.location].count x := by
    obtain ⟨z, slot⟩ := y
    cases slot with
    | none => exact Nat.le_refl _
    | some slot => exact Nat.zero_le _
  simp only [held, List.count_append, Option.toList_some, Option.toList_none, List.map_nil,
    List.map_cons, List.count_nil] at excl back ended ⊢
  omega

/-- **Every operation that exposes no lease keeps the leases
exclusive.** -/
theorem Exclusive.step (excl : s.Exclusive) (sound : s.Sound account) (hidden : ¬ s.Exposes a)
    (run : s.step a = .ok (answer, t)) : t.Exclusive := by
  -- A request takes registers that are free, and a release gives back what one lease
  -- alone holds. Closing a scope is the one action that could give a register to two
  -- owners, and `hidden` rules that out.
  cases a with
  | allocateGlobal size =>
    cases run
    exact excl.take (s.layout.takes_allocate .global size) rfl
  | place ty r =>
    simp only [Session.step, Bind.bind, Except.bind, Pure.pure, Except.pure] at run
    split at run <;> cases run
    next placed => exact excl.take (takes_place placed) rfl
  | placeInMemory ty r =>
    simp only [Session.step, Bind.bind, Except.bind, Pure.pure, Except.pure] at run
    split at run <;> cases run
    next placed => exact excl.take (takes_placeInMemory placed) rfl
  | openScope =>
    cases run
    exact excl
  | placeInScope id ty =>
    simp only [Session.step, Bind.bind, Except.bind, Pure.pure, Except.pure] at run
    split at run
    · cases run
      exact excl
    · split at run <;> cases run
      next placed => exact excl.take (takes_placeIn placed).1 rfl
  | placeInScopeMemory id ty =>
    simp only [Session.step, Bind.bind, Except.bind, Pure.pure, Except.pure] at run
    split at run
    · cases run
      exact excl
    · split at run <;> cases run
      next placed => exact excl.take (takes_placeInMemory placed) rfl
  | closeScope id =>
    simp only [Session.step] at run
    split at run <;> cases run
    · exact excl
    · exact excl
    · next scope isOpen =>
      exact excl.close sound isOpen fun x mem leased =>
        hidden ⟨id, scope, rfl, by rw [openScope?, isOpen, Option.join_some], x, mem, leased⟩
  | lease c avoid =>
    simp only [Session.step, Bind.bind, Except.bind, Pure.pure, Except.pure] at run
    split at run <;> cases run
    next granted => exact excl.lease sound granted
  | release id =>
    simp only [Session.step] at run
    split at run <;> cases run
    · exact excl
    · exact excl
    · next underWay => exact excl.release sound underWay

/-! ## What the next operation shares -/

/-- A register that is placed was free. -/
theorem mem_available_of_placed {x : Location} (isRegister : x.registerOf?.isSome)
    (run : s.step a = .ok (.placed x, t)) : x ∈ s.layout.available := by
  have free {l : Layout} {size : Nat} (takes : s.layout.Takes l x size) : x ∈ s.layout.available :=
    takes.available.mem_iff.2 (List.mem_append_left _ (by simp [Location.taken, isRegister]))
  cases a with
  | allocateGlobal size =>
    cases run
    exact free (s.layout.takes_allocate .global size)
  | place ty r =>
    simp only [Session.step, Bind.bind, Except.bind, Pure.pure, Except.pure] at run
    split at run <;> cases run
    next placed => exact free (takes_place placed)
  | placeInMemory ty r =>
    simp only [Session.step, Bind.bind, Except.bind, Pure.pure, Except.pure] at run
    split at run <;> cases run
    next placed => exact free (takes_placeInMemory placed)
  | openScope => cases run
  | placeInScope id ty =>
    simp only [Session.step, Bind.bind, Except.bind, Pure.pure, Except.pure] at run
    split at run
    · cases run
    · split at run <;> cases run
      next placed => exact free (takes_placeIn placed).1
  | placeInScopeMemory id ty =>
    simp only [Session.step, Bind.bind, Except.bind, Pure.pure, Except.pure] at run
    split at run
    · cases run
    · split at run <;> cases run
      next placed => exact free (takes_placeInMemory placed)
  | closeScope id =>
    simp only [Session.step] at run
    split at run <;> cases run
  | lease c avoid =>
    simp only [Session.step, Bind.bind, Except.bind, Pure.pure, Except.pure] at run
    split at run <;> cases run
  | release id =>
    simp only [Session.step] at run
    split at run <;> cases run

/-- Leases that are exclusive have different registers after the next
operation, even if it exposes one of them. -/
theorem Exclusive.nodup_held (excl : s.Exclusive) (sound : s.Sound account)
    (run : s.step a = .ok (answer, t)) : t.held.Nodup := by
  by_cases hidden : s.Exposes a
  · obtain ⟨n, scope, rfl, isOpen, -⟩ := hidden
    have open' := Option.join_eq_some_iff.1 isOpen
    simp only [Session.step, open'] at run
    cases run
    exact (List.nodup_append.1 excl).1
  · exact (List.nodup_append.1 (excl.step sound hidden run)).1

/-- A register of a lease that is free can be leased once more. -/
theorem exists_shared_lease (sound : s.Sound account) {x : Location} (leased : x ∈ s.held)
    (free : x ∈ s.layout.available) :
    ∃ a answer t, s.step a = .ok (answer, t) ∧ ¬ t.held.Nodup := by
  obtain ⟨c, id, mem, rfl⟩ := mem_available.1 free
  obtain ⟨l, grant⟩ := lease_allBut (fun i hi => sound.mem_pool (o := .free) hi) mem
  refine ⟨.lease c (allBut c id), .leased ⟨c.location id, none⟩, _, by rw [Session.step, grant]; rfl, ?_⟩
  have more : held { s with layout := l, leases := s.leases ++ [some ⟨c.location id, none⟩] } =
      s.held ++ [c.location id] := by simp [held]
  rw [more]
  exact fun apart => (List.nodup_append.1 apart).2.2 _ leased _ (List.mem_singleton_self _) rfl

/-- **The next operation shares no register just if the leases are
exclusive.** -/
theorem Sound.sharesNone_iff (sound : s.Sound account) : s.SharesNone ↔ s.Exclusive := by
  constructor
  · intro none
    refine List.nodup_append.2 ⟨?_, ?_, ?_⟩
    · exact (none .openScope _ _ rfl).1
    · exact (List.nodup_append.1 (List.nodup_append.1 (List.nodup_append.1 sound.nodup).1).1).1
    · rintro x leased y free rfl
      obtain ⟨a, answer, t, run, shared⟩ := exists_shared_lease sound leased free
      exact shared (none a answer t run).1
  · intro excl a answer t run
    refine ⟨excl.nodup_held sound run, ?_⟩
    rintro x rfl isRegister leased
    exact (List.nodup_append.1 excl).2.2 x leased x (mem_available_of_placed isRegister run) rfl

/-! ## A course of operations -/

/-- **No scope closes over a lease** in the course of some operations. -/
def Sheltered (actions : List Action) : Prop :=
  ∀ before a, before ++ [a] <+: actions → ¬ (afterAll {} before).Exposes a

theorem afterAll_concat (s : Session) (actions : List Action) (a : Action) :
    s.afterAll (actions ++ [a]) = (s.afterAll actions).after a := by
  simp [afterAll]

/-- The leases are exclusive as long as no scope closes over one. -/
theorem Sheltered.exclusive {actions : List Action} (sheltered : Sheltered actions)
    {before : List Action} (part : before <+: actions) : (afterAll {} before).Exclusive := by
  induction before using List.reverseRecOn with
  | nil => exact exclusive_start
  | append_singleton before a ih =>
    have excl := ih ((List.prefix_append _ _).trans part)
    rw [afterAll_concat, after]
    cases run : (afterAll {} before).step a with
    | error e => exact excl
    | ok v => exact excl.step (sound_start.afterAll before) (sheltered before a part) run

/-- A scope that closes over a lease leaves the register of the lease
free. -/
theorem Exposes.not_exclusive (exposes : s.Exposes a) (sound : s.Sound account) :
    ¬ (s.after a).Exclusive := by
  obtain ⟨n, scope, rfl, isOpen, x, mem, leased⟩ := exposes
  have isOpen := Option.join_eq_some_iff.1 isOpen
  obtain ⟨whole, once⟩ := sound.apart_scope isOpen
  have back : (s.layout.closeScope scope).available.Perm (scope.registers ++ s.layout.available) :=
    available_foldl_giveBack whole once
  have closed : s.after (.closeScope n) =
      { s with layout := s.layout.closeScope scope, scopes := s.scopes.set n none } := by
    simp [after, Session.step, isOpen]
  rw [closed]
  exact fun excl => (List.nodup_append.1 excl).2.2 x leased x
    (back.mem_iff.2 (List.mem_append_left _ mem)) rfl

/-- **No register is shared in the course of some operations, and by the
operation after them, just if no scope closes over a lease.** -/
theorem sheltered_iff (actions : List Action) :
    Sheltered actions ↔ ∀ before, before <+: actions → (afterAll {} before).SharesNone := by
  constructor
  · exact fun sheltered before part =>
      (sound_start.afterAll before).sharesNone_iff.2 (sheltered.exclusive part)
  · intro none before a part exposes
    refine exposes.not_exclusive (sound_start.afterAll before) ?_
    rw [← afterAll_concat]
    exact (sound_start.afterAll _).sharesNone_iff.1 (none _ part)

/-- **Two leases have one register**: the scope that owns it closes over
the first. -/
theorem held_closed_over :
    ¬ (afterAll {} [.openScope, .placeInScope 0 .int, .placeInScope 0 .int, .placeInScope 0 .int,
      .placeInScope 0 .int, .lease .general [], .closeScope 0, .lease .general []]).held.Nodup := by
  decide

end Session

end Shading.Layout
