import Shading.Proofs.Layout.Handing

/-!
# Who owns a register and a range of memory

In a session the layout operations come in any order: scopes close while
younger ones are open, leases end in any order, and a lease may borrow a
register that has an owner. The owners still partition the registers, and
no byte of global memory is handed out twice.

The account of a session is the list of the operations that were granted,
with their answers (`Session.granted`). From it come the ranges of global
memory that were handed out (`rangesOf`) and the registers that were
placed for good (`placedOf`). `Session.Sound` relates a session to its
account: every register of the pools is exactly once among the free ones,
the registers of the open scopes, those of the leases under way that were
free, and those placed for good. Each operation keeps this
(`Session.Sound.step`), and `Session.Orderly` is what it comes to for a
reader: `Session.orderly_afterAll` holds it of every session.
-/

namespace Shading.Layout

variable {l l' : Layout} {x : Location} {c : RegisterClass} {id : Nat}

/-- The bytes that an operation asks for. -/
def Action.size : Action → Nat
  | .allocateGlobal size => size
  | .place ty _ | .placeInMemory ty _ | .placeInScope _ ty | .placeInScopeMemory _ ty => ty.size
  | .lease cls _ => cls.spillSize
  | .openScope | .closeScope _ | .release _ => 0

/-- The place that an answer hands out: that of a placement, or the one
to save a borrowed register in. -/
def Answer.place? : Answer → Option Location
  | .placed location => some location
  | .leased lease => lease.spill
  | .opened _ | .done | .unknown => none

/-- **The range of global memory** that a granted operation handed
out. -/
def rangeOf (granted : Action × Answer) : Option (Nat × Nat) :=
  (granted.2.place?.bind Location.globalOffset?).map (·, granted.1.size)

/-- **The register that a granted operation placed for good.** A scope
gives back what is placed in it. -/
def placedBy : Action × Answer → List Location
  | (.place _ _, .placed location) => location.taken
  | _ => []

/-- The ranges of global memory that were handed out, in their order. -/
def rangesOf (account : List (Action × Answer)) : List (Nat × Nat) := account.filterMap rangeOf

/-- The registers that were placed for good. -/
def placedOf (account : List (Action × Answer)) : List Location := account.flatMap placedBy

namespace Session

/-- **The operations that are granted**, with their answers. -/
def granted (s : Session) : List Action → List (Action × Answer)
  | [] => []
  | a :: as =>
    match s.step a with
    | .ok (answer, t) => (a, answer) :: t.granted as
    | .error _ => s.granted as

/-- The registers of the open scopes. -/
def inScopes (s : Session) : List Location :=
  s.scopes.flatMap fun scope => scope.elim [] TemporaryScope.registers

/-- The registers that the leases under way took from the free ones. -/
def pooled (s : Session) : List Location := s.leases.flatMap fun lease => pooledOf lease.toList

/-- The registers of all leases under way. -/
def held (s : Session) : List Location :=
  s.leases.flatMap fun lease => lease.toList.map Lease.location

/-- **A session agrees with its account.** -/
structure Sound (s : Session) (account : List (Action × Answer)) : Prop where
  ascending : ∀ c, (s.layout.free c).Pairwise (· < ·)
  /-- Every register has one owner. -/
  owned : (s.layout.available ++ s.inScopes ++ s.pooled ++ placedOf account).Perm registers
  leased : s.layout.leased.Perm s.held
  memory : s.layout.globalRegion.Handed (rangesOf account)

theorem sound_start : Sound {} [] where
  ascending c := by cases c <;> decide
  owned := .refl _
  leased := .refl _
  memory := ⟨.nil, nofun, Nat.le_refl _⟩

/-- Something else at one place of a list, in what the list is made
of. -/
theorem perm_flatMap_set {α β : Type} (f : α → List β) {xs : List α} {n : Nat} {a : α}
    (h : xs[n]? = some a) (b : α) : ((xs.set n b).flatMap f ++ f a).Perm (xs.flatMap f ++ f b) := by
  induction xs generalizing n with
  | nil => simp at h
  | cons x xs ih =>
    cases n with
    | zero =>
      obtain rfl : x = a := by simpa using h
      simp only [List.set_cons_zero, List.flatMap_cons, List.append_assoc]
      exact (List.perm_append_comm_assoc _ _ _).trans
        ((List.perm_append_comm.append_left _).trans (List.perm_append_comm_assoc _ _ _))
    | succ n =>
      simp only [List.set_cons_succ, List.flatMap_cons, List.append_assoc]
      exact (ih (by simpa using h)).append_left _

/-! ## One operation -/

section Step

variable {s t : Session} {account : List (Action × Answer)} {a : Action} {answer : Answer}

/-- What a granted operation has to keep for the account to go on. -/
theorem Sound.grant (sound : s.Sound account)
    (ascending : ∀ c, (t.layout.free c).Pairwise (· < ·))
    (owned : (t.layout.available ++ t.inScopes ++ t.pooled ++ placedBy (a, answer)).Perm
      (s.layout.available ++ s.inScopes ++ s.pooled))
    (leased : t.layout.leased.Perm t.held)
    (hands : s.layout.globalRegion.Hands t.layout.globalRegion (rangeOf (a, answer))) :
    t.Sound (account ++ [(a, answer)]) where
  ascending := ascending
  owned := by
    refine .trans ?_ sound.owned
    rw [List.perm_iff_count] at owned ⊢
    intro x
    have := owned x
    simp only [placedOf, List.flatMap_append, List.flatMap_singleton, List.count_append] at this ⊢
    omega
  leased := leased
  memory := by
    have := sound.memory.hand hands
    cases handed : rangeOf (a, answer) <;> simpa [rangesOf, handed] using this

/-- An operation that leaves the layout alone, and neither closes a scope
nor ends a lease. -/
theorem Sound.idle (sound : s.Sound account) (layout : t.layout = s.layout)
    (scopes : t.inScopes = s.inScopes) (leases : t.leases = s.leases)
    (nothing : placedBy (a, answer) = [] ∧ rangeOf (a, answer) = none) :
    t.Sound (account ++ [(a, answer)]) := by
  refine sound.grant ?_ ?_ ?_ ?_
  · rw [layout]
    exact sound.ascending
  · rw [layout, scopes, nothing.1, pooled, leases, List.append_nil]
    exact .refl _
  · rw [layout, held, leases]
    exact sound.leased
  · rw [layout, nothing.2]
    exact rfl

/-- A placement, in a scope that then lists the register or for good. -/
theorem Sound.take (sound : s.Sound account) {l : Layout} {x : Location}
    {scopes : List (Option TemporaryScope)} (takes : s.layout.Takes l x a.size)
    (lists : (inScopes { s with layout := l, scopes } ++ placedBy (a, .placed x)).Perm
      (s.inScopes ++ x.taken)) :
    Sound { s with layout := l, scopes } (account ++ [(a, .placed x)]) := by
  refine sound.grant (takes.ascending sound.ascending) ?_ ?_ takes.hands
  · have available := takes.available
    rw [List.perm_iff_count] at lists available ⊢
    intro y
    have := lists y
    have := available y
    simp only [List.count_append, pooled] at *
    omega
  · rw [takes.leased]
    exact sound.leased

/-- A placement that no scope lists. -/
theorem Sound.takeForGood (sound : s.Sound account) {l : Layout} {x : Location}
    (takes : s.layout.Takes l x a.size) (lists : placedBy (a, .placed x) = x.taken) :
    Sound { s with layout := l } (account ++ [(a, .placed x)]) :=
  sound.take takes (lists ▸ .refl _)

theorem taken_placeInMemory {l l' : Layout} {x : Location} {ty : Ty} {r : Region}
    (h : l.placeInMemory ty r = .ok (x, l')) : x.taken = [] := by
  rw [placeInMemory] at h
  split at h
  · cases h
  · have := congrArg Prod.fst (Except.ok.inj h)
    cases r <;> cases this <;> rfl

/-- What scopes and leases hold has no other owner: together with the
free registers it is part of the pools. -/
theorem Sound.apart (sound : s.Sound account) {xs : List Location}
    (part : xs.Subperm (s.inScopes ++ s.pooled)) :
    (∀ x ∈ xs, x ∈ registers) ∧ (xs ++ s.layout.available).Nodup := by
  have turned : (s.inScopes ++ s.pooled ++ s.layout.available).Perm
      (s.layout.available ++ s.inScopes ++ s.pooled) := by
    rw [List.append_assoc s.layout.available]
    exact List.perm_append_comm
  have sub : (xs ++ s.layout.available).Subperm registers :=
    ((List.subperm_append_right _).2 part).trans
      (turned.subperm.trans ((List.sublist_append_left _ _).subperm.trans sound.owned.subperm))
  obtain ⟨ys, perm, sublist⟩ := sub
  exact ⟨fun x hx => sublist.subset (perm.mem_iff.2 (List.mem_append_left _ hx)),
    perm.nodup_iff.1 (nodup_registers.sublist sublist)⟩

/-- The registers of an open scope are not free. -/
theorem Sound.apart_scope (sound : s.Sound account) {id : Nat} {scope : TemporaryScope}
    (isOpen : s.scopes[id]? = some (some scope)) :
    (∀ x ∈ scope.registers, x ∈ registers) ∧ (scope.registers ++ s.layout.available).Nodup := by
  have out := perm_flatMap_set (fun o : Option TemporaryScope => o.elim [] TemporaryScope.registers)
    isOpen none
  have part : scope.registers.Subperm s.inScopes := by
    simpa [inScopes] using (List.sublist_append_right _ _).subperm.trans out.subperm
  exact sound.apart (part.trans (List.sublist_append_left _ _).subperm)

/-- The register that a lease took is not free. -/
theorem Sound.apart_lease (sound : s.Sound account) {id : Nat} {x : Lease}
    (underWay : s.leases[id]? = some (some x)) :
    (∀ y ∈ pooledOf [x], y ∈ registers) ∧ (pooledOf [x] ++ s.layout.available).Nodup := by
  have out := perm_flatMap_set (fun o : Option Lease => pooledOf o.toList) underWay none
  have part : (pooledOf [x]).Subperm s.pooled := by
    simpa [pooled] using (List.sublist_append_right _ _).subperm.trans out.subperm
  exact sound.apart (part.trans (List.sublist_append_right _ _).subperm)

/-- **A scope that closes** gives its registers back. -/
theorem Sound.close (sound : s.Sound account) {id : Nat} {scope : TemporaryScope}
    (isOpen : s.scopes[id]? = some (some scope)) :
    Sound { s with layout := s.layout.closeScope scope, scopes := s.scopes.set id none }
      (account ++ [(.closeScope id, .done)]) := by
  have out := perm_flatMap_set (fun o : Option TemporaryScope => o.elim [] TemporaryScope.registers)
    isOpen none
  obtain ⟨leased, -, region⟩ := foldl_giveBack_unchanged s.layout scope.registers
  obtain ⟨whole, apart⟩ := sound.apart_scope isOpen
  have back := available_foldl_giveBack whole apart
  refine sound.grant (fun c => ?_) ?_ (leased ▸ sound.leased) region
  · have := ascending_foldl_giveBack sound.ascending scope.registers c
    cases c <;> exact this
  · have same : (s.layout.closeScope scope).available =
        (scope.registers.foldl giveBack s.layout).available := rfl
    rw [same, List.perm_iff_count]
    intro y
    have back := back.count_eq y
    have out := out.count_eq y
    simp only [List.count_append, Option.elim_some, Option.elim_none, List.count_nil, inScopes,
      pooled, placedBy] at back out ⊢
    omega

/-- **A lease that is granted.** -/
theorem Sound.lease (sound : s.Sound account) {c : RegisterClass} {avoid : List Location}
    {x : Lease} {l : Layout} (grant : s.layout.lease c avoid = .ok (x, l)) :
    Sound { s with layout := l, leases := s.leases ++ [some x] }
      (account ++ [(.lease c avoid, .leased x)]) := by
  obtain ⟨ascending, available, leased, hands⟩ := leases_lease grant
  refine sound.grant (ascending sound.ascending) ?_ ?_ hands
  · rw [List.perm_iff_count] at available ⊢
    intro y
    have := available y
    simp only [List.count_append, pooled, placedBy, List.flatMap_append, List.flatMap_singleton,
      List.count_nil, inScopes, Option.toList_some] at this ⊢
    omega
  · rw [leased, held, List.flatMap_append, List.flatMap_singleton]
    exact sound.leased.append_right _

/-- **A lease that ends** gives back the register that it took. -/
theorem Sound.release (sound : s.Sound account) {id : Nat} {x : Lease}
    (underWay : s.leases[id]? = some (some x)) :
    Sound { s with layout := s.layout.release x, leases := s.leases.set id none }
      (account ++ [(.release id, .done)]) := by
  have out := perm_flatMap_set (fun o : Option Lease => pooledOf o.toList) underWay none
  have ended := perm_flatMap_set (fun o : Option Lease => o.toList.map Lease.location) underWay none
  obtain ⟨whole, apart⟩ := sound.apart_lease underWay
  have back := available_release whole apart
  refine sound.grant (ascending_release sound.ascending x) ?_ ?_ (regions_release s.layout x).2
  · rw [List.perm_iff_count]
    intro y
    have back := back.count_eq y
    have out := out.count_eq y
    simp only [List.count_append, Option.toList_some, Option.toList_none, pooledOf_nil, List.count_nil,
      inScopes, pooled, placedBy] at back out ⊢
    omega
  · rw [leased_release]
    have out : (x.location :: held { s with leases := s.leases.set id none }).Perm s.held := by
      simpa [held] using List.perm_append_comm.trans ended
    have rest := (sound.leased.trans out.symm).erase x.location
    rw [List.erase_cons_head] at rest
    exact rest

/-- **Every operation that is granted keeps the account.** -/
theorem Sound.step (sound : s.Sound account) (run : s.step a = .ok (answer, t)) :
    t.Sound (account ++ [(a, answer)]) := by
  -- A request that is refused leaves the session as it was; of those that are granted,
  -- each changes one account.
  cases a with
  | allocateGlobal size =>
    cases run
    exact sound.takeForGood (s.layout.takes_allocate .global size) rfl
  | place ty r =>
    simp only [Session.step, Bind.bind, Except.bind, Pure.pure, Except.pure] at run
    split at run <;> cases run
    next placed => exact sound.takeForGood (takes_place placed) rfl
  | placeInMemory ty r =>
    simp only [Session.step, Bind.bind, Except.bind, Pure.pure, Except.pure] at run
    split at run <;> cases run
    next placed =>
      exact sound.takeForGood (takes_placeInMemory placed) (taken_placeInMemory placed).symm
  | openScope =>
    cases run
    exact sound.idle rfl (by simp [inScopes, Layout.openScope]) rfl ⟨rfl, rfl⟩
  | placeInScope id ty =>
    simp only [Session.step, Bind.bind, Except.bind, Pure.pure, Except.pure] at run
    split at run
    · cases run
      exact sound.idle rfl rfl rfl ⟨rfl, rfl⟩
    · next scope isOpen =>
      split at run
      · cases run
      · next v placed =>
        obtain ⟨x, scope', l⟩ := v
        cases run
        obtain ⟨takes, listed⟩ := takes_placeIn placed
        have more := perm_flatMap_set
          (fun o : Option TemporaryScope => o.elim [] TemporaryScope.registers)
          (Option.join_eq_some_iff.1 isOpen) (some scope')
        refine sound.take takes ?_
        rw [List.perm_iff_count] at more ⊢
        intro y
        have := more y
        simp only [List.count_append, Option.elim_some, listed, inScopes, placedBy,
          List.count_nil] at this ⊢
        omega
  | placeInScopeMemory id ty =>
    simp only [Session.step, Bind.bind, Except.bind, Pure.pure, Except.pure] at run
    split at run
    · cases run
      exact sound.idle rfl rfl rfl ⟨rfl, rfl⟩
    · split at run <;> cases run
      next placed =>
        exact sound.takeForGood (takes_placeInMemory placed) (taken_placeInMemory placed).symm
  | closeScope id =>
    simp only [Session.step] at run
    split at run <;> cases run
    · exact sound.idle rfl rfl rfl ⟨rfl, rfl⟩
    · exact sound.idle rfl rfl rfl ⟨rfl, rfl⟩
    · next isOpen => exact sound.close isOpen
  | lease c avoid =>
    simp only [Session.step, Bind.bind, Except.bind, Pure.pure, Except.pure] at run
    split at run <;> cases run
    next granted => exact sound.lease granted
  | release id =>
    simp only [Session.step] at run
    split at run <;> cases run
    · exact sound.idle rfl rfl rfl ⟨rfl, rfl⟩
    · exact sound.idle rfl rfl rfl ⟨rfl, rfl⟩
    · next underWay => exact sound.release underWay

/-- **The account of all operations agrees** with the session that they
lead to. -/
theorem Sound.afterAll (sound : s.Sound account) (actions : List Action) :
    (s.afterAll actions).Sound (account ++ s.granted actions) := by
  induction actions generalizing s account with
  | nil => simpa [Session.afterAll, granted] using sound
  | cons a as ih =>
    change ((s.after a).afterAll as).Sound _
    rw [granted]
    cases run : s.step a with
    | error e =>
      rw [after, run]
      exact ih sound
    | ok v =>
      have rest := ih (sound.step run)
      rw [List.append_assoc] at rest
      rw [after, run]
      exact rest

end Step

/-! ## Owners -/

/-- **Who has a register.** -/
inductive Owner where
  /-- Nobody: it is among the free ones. -/
  | free
  /-- An open scope, by its number. -/
  | scope (id : Nat)
  /-- A lease under way, by its number. -/
  | lease (id : Nat)
  /-- A placement that lasts. -/
  | placed

/-- Whether an owner has a register. A lease that borrowed a register,
and therefore has a slot to save it in, does not own it. -/
def Owns (s : Session) (account : List (Action × Answer)) (c : RegisterClass) (id : Nat) :
    Owner → Prop
  | .free => id ∈ s.layout.free c
  | .scope n => ∃ scope, s.openScope? n = some scope ∧ c.location id ∈ scope.registers
  | .lease n =>
    ∃ lease, s.leases[n]? = some (some lease) ∧ lease.spill = none ∧ lease.location = c.location id
  | .placed => c.location id ∈ placedOf account

/-- **A session in good order**, with the account of what it granted. -/
structure Orderly (s : Session) (account : List (Action × Answer)) : Prop where
  /-- Every register of a pool has exactly one owner. -/
  owner : ∀ c : RegisterClass, ∀ id ∈ c.pool, ∃! o, s.Owns account c id o
  /-- Nothing else is owned. -/
  pooled : ∀ c id o, s.Owns account c id o → id ∈ c.pool
  /-- An owner has a register once: the free ones ascend, and no list of
  the others names one twice. -/
  ascending : ∀ c, (s.layout.free c).Pairwise (· < ·)
  scopes : s.inScopes.Nodup
  placed : (placedOf account).Nodup
  /-- A lease that is granted holds a register of its pool that it was
  not to avoid. It has a slot exactly when every free register was to be
  avoided, and the slot lies behind all memory handed out before. -/
  lease : ∀ c avoid answer t, s.step (.lease c avoid) = .ok (answer, t) →
    ∃ x, answer = .leased x ∧
      (∃ id ∈ c.pool, x.location = c.location id ∧ ∀ l ∈ avoid, l.registerOf? ≠ some (c, id)) ∧
      (x.spill ≠ none ↔ ∀ i ∈ s.layout.free c, conflicts avoid c i = true) ∧
      ∀ slot, x.spill = some slot → ∃ offset, slot = .globalMemory offset ∧
        (∀ r ∈ rangesOf account, r.1 + r.2 ≤ offset) ∧ offset + c.spillSize ≤ t.layout.globalSize
  /-- A lease is refused exactly when, besides, every register of the
  pool is to be avoided or under a lease. -/
  refused : ∀ c avoid, (∃ e, s.step (.lease c avoid) = .error e) ↔
    (∀ i ∈ s.layout.free c, conflicts avoid c i = true) ∧
      ∀ id ∈ c.pool, conflicts avoid c id = true ∨ c.location id ∈ s.held
  /-- The ranges of global memory stand one behind the other. -/
  apart : (rangesOf account).Pairwise fun r q => r.1 + r.2 ≤ q.1
  inside : ∀ r ∈ rangesOf account, r.1 + r.2 ≤ s.layout.globalSize

section Orderly

variable {s : Session} {account : List (Action × Answer)} {c : RegisterClass} {id : Nat}

theorem mem_pooledOf_toList {o : Option Lease} {x : Location} :
    x ∈ pooledOf o.toList ↔ ∃ y, o = some y ∧ y.spill = none ∧ y.location = x := by
  cases o <;> simp [mem_pooledOf, Lease.isPooled]

/-- The list that names the registers of an owner, and of its kind. -/
def Owner.registers (s : Session) (account : List (Action × Answer)) : Owner → List Location
  | .free => s.layout.available
  | .scope _ => s.inScopes
  | .lease _ => s.pooled
  | .placed => placedOf account

theorem Owns.mem {o : Owner} (h : s.Owns account c id o) : c.location id ∈ o.registers s account := by
  cases o with
  | free => exact location_mem_available.2 h
  | scope n =>
    obtain ⟨scope, isOpen, mem⟩ := h
    exact List.mem_flatMap.2 ⟨_, List.mem_of_getElem? (Option.join_eq_some_iff.1 isOpen), mem⟩
  | lease n =>
    obtain ⟨x, underWay, took⟩ := h
    exact List.mem_flatMap.2
      ⟨_, List.mem_of_getElem? underWay, mem_pooledOf_toList.2 ⟨x, rfl, took⟩⟩
  | placed => exact h

/-- What the lists name has an owner. -/
theorem exists_owns (h : c.location id ∈ s.layout.available ++ s.inScopes ++ s.pooled ++ placedOf account) :
    ∃ o, s.Owns account c id o := by
  simp only [List.mem_append] at h
  rcases h with ((free | inScope) | leased) | placed
  · exact ⟨.free, location_mem_available.1 free⟩
  · obtain ⟨o, ho, mem⟩ := List.mem_flatMap.1 inScope
    obtain ⟨n, hn⟩ := List.mem_iff_getElem?.1 ho
    cases o with
    | none => cases mem
    | some scope => exact ⟨.scope n, scope, by rw [openScope?, hn]; rfl, mem⟩
  · obtain ⟨o, ho, mem⟩ := List.mem_flatMap.1 leased
    obtain ⟨n, hn⟩ := List.mem_iff_getElem?.1 ho
    obtain ⟨x, rfl, took⟩ := mem_pooledOf_toList.1 mem
    exact ⟨.lease n, x, hn, took⟩
  · exact ⟨.placed, placed⟩

/-- What only one element of a list contributes is found at one place. -/
theorem eq_of_mem_flatMap {α β : Type} {f : α → List β} {xs : List α} (nodup : (xs.flatMap f).Nodup)
    {i j : Nat} {a b : α} {y : β} (hi : xs[i]? = some a) (hj : xs[j]? = some b) (ha : y ∈ f a)
    (hb : y ∈ f b) : i = j := by
  have apart := List.pairwise_iff_getElem.1 (List.nodup_flatMap.1 nodup).2
  obtain ⟨li, rfl⟩ := List.getElem?_eq_some_iff.1 hi
  obtain ⟨lj, rfl⟩ := List.getElem?_eq_some_iff.1 hj
  rcases Nat.lt_trichotomy i j with lt | same | gt
  · exact absurd hb (apart i j li lj lt ha)
  · exact same
  · exact absurd ha (apart j i lj li gt hb)

theorem Sound.nodup (sound : s.Sound account) :
    (s.layout.available ++ s.inScopes ++ s.pooled ++ placedOf account).Nodup :=
  sound.owned.nodup_iff.2 nodup_registers

/-- **A register has one owner at most.** -/
theorem Sound.owner_unique (sound : s.Sound account) {o o' : Owner} (h : s.Owns account c id o)
    (h' : s.Owns account c id o') : o = o' := by
  have once := List.nodup_iff_count_le_one.1 sound.nodup (c.location id)
  have here := List.count_pos_iff.2 h.mem
  have there := List.count_pos_iff.2 h'.mem
  simp only [List.count_append] at once
  have scopes := (List.nodup_append.1 (List.nodup_append.1 (List.nodup_append.1 sound.nodup).1).1).2.1
  have leases := (List.nodup_append.1 (List.nodup_append.1 sound.nodup).1).2.1
  cases o <;> cases o' <;> simp only [Owner.registers] at here there <;> first
    | rfl
    | exfalso
      omega
    | skip
  case scope.scope n m =>
    obtain ⟨a, ha, mema⟩ := h
    obtain ⟨b, hb, memb⟩ := h'
    rw [eq_of_mem_flatMap scopes (Option.join_eq_some_iff.1 ha) (Option.join_eq_some_iff.1 hb) mema memb]
  case lease.lease n m =>
    obtain ⟨a, ha, tookA⟩ := h
    obtain ⟨b, hb, tookB⟩ := h'
    rw [eq_of_mem_flatMap leases ha hb (mem_pooledOf_toList.2 ⟨a, rfl, tookA⟩)
      (mem_pooledOf_toList.2 ⟨b, rfl, tookB⟩)]

theorem location_mem_registers : c.location id ∈ Layout.registers ↔ id ∈ c.pool := by
  refine mem_registers.trans ⟨?_, fun h => ⟨c, id, h, rfl⟩⟩
  rintro ⟨d, i, h, same⟩
  obtain ⟨rfl, rfl⟩ := RegisterClass.location_inj same
  exact h

/-- What is owned is a register of a pool. -/
theorem Sound.mem_pool (sound : s.Sound account) {o : Owner} (h : s.Owns account c id o) :
    id ∈ c.pool := by
  refine location_mem_registers.1 (sound.owned.mem_iff.1 ?_)
  have mem := h.mem
  cases o <;> simp [Owner.registers] at mem <;> simp [mem]

/-- **What a lease comes to** in a session that agrees with its
account. -/
theorem Sound.granted_lease (sound : s.Sound account) {avoid : List Location} {answer : Answer}
    {t : Session} (run : s.step (.lease c avoid) = .ok (answer, t)) :
    ∃ x, answer = .leased x ∧
      (∃ id ∈ c.pool, x.location = c.location id ∧ ∀ l ∈ avoid, l.registerOf? ≠ some (c, id)) ∧
      (x.spill ≠ none ↔ ∀ i ∈ s.layout.free c, conflicts avoid c i = true) ∧
      ∀ slot, x.spill = some slot → ∃ offset, slot = .globalMemory offset ∧
        (∀ r ∈ rangesOf account, r.1 + r.2 ≤ offset) ∧ offset + c.spillSize ≤ t.layout.globalSize := by
  have clear {i : Nat} (h : i ∉ registersOf c avoid) : ∀ l ∈ avoid, l.registerOf? ≠ some (c, i) :=
    fun l hl same => h (mem_registersOf.2 ⟨l, hl, same⟩)
  simp only [Session.step, Bind.bind, Except.bind, Pure.pure, Except.pure] at run
  rcases s.layout.lease_outcome c avoid with
    ⟨i, free, apart, grant⟩ | ⟨taken, ⟨i, pool, apart, -, grant⟩ | ⟨-, refusal⟩⟩
  · rw [grant] at run
    cases run
    refine ⟨_, rfl, ⟨i, sound.mem_pool (o := .free) free, rfl, clear apart⟩, ?_, nofun⟩
    simp only [ne_eq, not_true, false_iff]
    exact fun all => apart (conflicts_iff.1 (all i free))
  · rw [grant] at run
    cases run
    refine ⟨_, rfl, ⟨i, pool, rfl, clear apart⟩, by simpa [conflicts_iff] using taken, ?_⟩
    rintro slot ⟨⟩
    obtain ⟨above, stop, high⟩ := s.layout.hands_allocate .global c.spillSize
    refine ⟨_, rfl, fun r hr => Nat.le_trans (sound.memory.below r hr) above, ?_⟩
    have inside := Nat.le_max_right s.layout.globalRegion.highWater
      (s.layout.allocate .global c.spillSize).2.globalRegion.top
    rw [← high, stop] at inside
    exact inside
  · rw [refusal] at run
    cases run

/-- **When a lease is refused.** -/
theorem Sound.refused_lease (sound : s.Sound account) (avoid : List Location) :
    (∃ e, s.step (.lease c avoid) = .error e) ↔
      (∀ i ∈ s.layout.free c, conflicts avoid c i = true) ∧
        ∀ i ∈ c.pool, conflicts avoid c i = true ∨ c.location i ∈ s.held := by
  simp only [Session.step, Bind.bind, Except.bind, Pure.pure, Except.pure, conflicts_iff,
    ← sound.leased.mem_iff]
  rcases s.layout.lease_outcome c avoid with
    ⟨i, free, apart, grant⟩ | ⟨taken, ⟨i, pool, apart, unleased, grant⟩ | ⟨full, refusal⟩⟩
  · rw [grant]
    simp only [reduceCtorEq, exists_false, false_iff]
    exact fun all => apart (all.1 i free)
  · rw [grant]
    simp only [reduceCtorEq, exists_false, false_iff]
    exact fun all => (all.2 i pool).elim apart unleased
  · rw [refusal]
    refine ⟨fun _ => ⟨taken, fun i pool => ?_⟩, fun _ => ⟨_, rfl⟩⟩
    by_contra room
    exact full ⟨i, pool, not_or.1 room⟩

theorem Sound.orderly (sound : s.Sound account) : s.Orderly account where
  owner c id pool := by
    obtain ⟨o, owns⟩ := exists_owns (sound.owned.mem_iff.2 (location_mem_registers.2 pool))
    exact ⟨o, owns, fun o' owns' => sound.owner_unique owns' owns⟩
  pooled c id o := sound.mem_pool
  ascending := sound.ascending
  scopes := (List.nodup_append.1 (List.nodup_append.1 (List.nodup_append.1 sound.nodup).1).1).2.1
  placed := (List.nodup_append.1 sound.nodup).2.1
  lease c avoid answer t := sound.granted_lease
  refused c avoid := sound.refused_lease avoid
  apart := sound.memory.apart
  inside r hr := Nat.le_trans (sound.memory.below r hr) sound.memory.top

end Orderly

/-- **Every session is in good order**, whatever its operations and their
order. -/
theorem orderly_afterAll (actions : List Action) :
    (afterAll {} actions).Orderly (granted {} actions) :=
  (sound_start.afterAll actions).orderly

end Session

end Shading.Layout
