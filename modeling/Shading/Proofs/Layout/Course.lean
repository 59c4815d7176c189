import Shading.Proofs.Layout.Pools

/-!
# The course of a layout

`Layout.Leads l l' registers held` says that the layout went from `l` to
`l'` by placements of `registers` and leases of which `held` are still
under way. What was free before and is in neither list is free
afterwards, the tops of both regions went up, and the leases are those
of before with those under way.

Courses compose (`Leads.trans`), a lease that ends leaves the list of
those under way, in whichever order they end (`Leads.release`), and a
scope that closes over a course without leases leads back to the free
registers and the top it started from (`Leads.close`).
-/

namespace Shading

/-- The registers that leases took from the free ones. -/
def pooledOf (held : List Lease) : List Location := (held.filter Lease.isPooled).map Lease.location

theorem pooledOf_append (xs ys : List Lease) : pooledOf (xs ++ ys) = pooledOf xs ++ pooledOf ys := by
  simp [pooledOf]

theorem mem_pooledOf {held : List Lease} {x : Location} :
    x ∈ pooledOf held ↔ ∃ l ∈ held, l.isPooled = true ∧ l.location = x := by
  simp [pooledOf, and_assoc]

@[simp] theorem pooledOf_nil : pooledOf [] = [] := rfl

@[simp] theorem pooledOf_free (x : Location) : pooledOf [⟨x, none⟩] = [x] := rfl

@[simp] theorem pooledOf_borrowed (x slot : Location) : pooledOf [⟨x, some slot⟩] = [] := rfl

theorem pooledOf_perm {xs ys : List Lease} (h : xs.Perm ys) : (pooledOf xs).Perm (pooledOf ys) :=
  (h.filter _).map _

namespace Layout

/-- **The course of a layout.** -/
structure Leads (l l' : Layout) (registers : List Location) (held : List Lease) : Prop where
  ok : l'.Ok
  /-- What is free afterwards was free before and has not been taken. -/
  free : ∀ c id, id ∈ l'.free c ↔ id ∈ l.free c ∧ c.location id ∉ registers ++ pooledOf held
  /-- What has been taken was free. -/
  taken : ∀ x ∈ registers ++ pooledOf held, ∃ c id, id ∈ l.free c ∧ x = c.location id
  nodup : (registers ++ pooledOf held).Nodup
  leased : l'.leased.Perm (l.leased ++ held.map Lease.location)
  /-- Borrowed registers are saved in global memory. -/
  saved : ∀ x ∈ held, ∀ slot, x.spill = some slot → ∃ offset, slot = .globalMemory offset
  localTop : l.localRegion.top ≤ l'.localRegion.top
  localHigh : l.localRegion.highWater ≤ l'.localRegion.highWater
  globalTop : l.globalRegion.top ≤ l'.globalRegion.top
  globalHigh : l.globalRegion.highWater ≤ l'.globalRegion.highWater

namespace Leads

variable {l l' l'' : Layout} {registers registers' : List Location} {held held' : List Lease}

/-- A course on which nothing happens. -/
theorem refl (ok : l.Ok) : l.Leads l [] [] where
  ok := ok
  free := by simp
  taken := by simp
  nodup := by simp
  leased := by simp
  saved := by simp
  localTop := Nat.le_refl _
  localHigh := Nat.le_refl _
  globalTop := Nat.le_refl _
  globalHigh := Nat.le_refl _

/-- What is free at the end was free at the start. -/
theorem free_of_free (h : l.Leads l' registers held) {c : RegisterClass} {id : Nat}
    (hid : id ∈ l'.free c) : id ∈ l.free c := ((h.free c id).1 hid).1

/-- **Courses compose.** -/
theorem trans (h : l.Leads l' registers held) (h' : l'.Leads l'' registers' held') :
    l.Leads l'' (registers ++ registers') (held ++ held') := by
  have rearranged : (registers ++ registers' ++ pooledOf (held ++ held')).Perm
      ((registers ++ pooledOf held) ++ (registers' ++ pooledOf held')) := by
    rw [pooledOf_append, List.append_assoc, List.append_assoc]
    refine List.Perm.append_left registers ?_
    rw [← List.append_assoc, ← List.append_assoc]
    exact List.perm_append_comm.append_right _
  have split (x : Location) : x ∈ registers ++ registers' ++ pooledOf (held ++ held') ↔
      x ∈ registers ++ pooledOf held ∨ x ∈ registers' ++ pooledOf held' := by
    rw [rearranged.mem_iff, List.mem_append]
  refine
    { ok := h'.ok
      free := fun c id => ?_
      taken := fun x hx => ?_
      nodup := rearranged.nodup_iff.2 (List.nodup_append.2 ⟨h.nodup, h'.nodup, ?_⟩)
      leased := ?_
      saved := fun x hx => (List.mem_append.1 hx).elim (h.saved x) (h'.saved x)
      localTop := Nat.le_trans h.localTop h'.localTop
      localHigh := Nat.le_trans h.localHigh h'.localHigh
      globalTop := Nat.le_trans h.globalTop h'.globalTop
      globalHigh := Nat.le_trans h.globalHigh h'.globalHigh }
  · rw [h'.free, h.free, split, not_or, and_assoc]
  · rcases (split x).1 hx with hx | hx
    · exact h.taken x hx
    · obtain ⟨c, id, free, same⟩ := h'.taken x hx
      exact ⟨c, id, h.free_of_free free, same⟩
  · rintro x hx y hy rfl
    obtain ⟨c, id, free, rfl⟩ := h'.taken x hy
    exact ((h.free c id).1 free).2 hx
  · rw [List.map_append, ← List.append_assoc]
    exact h'.leased.trans (h.leased.append_right _)

/-- The order of the leases under way does not matter. -/
theorem perm (h : l.Leads l' registers held) (p : held.Perm held') : l.Leads l' registers held' := by
  have taken := (pooledOf_perm p).append_left registers
  exact
    { h with
      free := fun c id => by rw [h.free, taken.mem_iff]
      taken := fun x hx => h.taken x (taken.mem_iff.2 hx)
      nodup := taken.nodup_iff.1 h.nodup
      leased := h.leased.trans ((p.map _).append_left _)
      saved := fun x hx => h.saved x (p.mem_iff.2 hx) }

/-- A lease under way holds a register that is leased. -/
theorem mem_leased (h : l.Leads l' registers held) {x : Lease} (hx : x ∈ held) :
    x.location ∈ l'.leased :=
  h.leased.mem_iff.2 (List.mem_append_right _ (List.mem_map_of_mem hx))

/-- No two leases under way hold one register. -/
theorem nodup_held (h : l.Leads l' registers held) : (held.map Lease.location).Nodup :=
  (List.nodup_append.1 (h.leased.nodup_iff.1 h.ok.nodup)).2.1

/-- A lease under way holds no register that was leased before. -/
theorem not_leased (h : l.Leads l' registers held) {x : Lease} (hx : x ∈ held) :
    x.location ∉ l.leased := fun before =>
  (List.nodup_append.1 (h.leased.nodup_iff.1 h.ok.nodup)).2.2 _ before _
    (List.mem_map_of_mem hx) rfl

end Leads

/-! ## Steps of a course -/

/-- A layout of which only the regions have changed, which have grown. -/
theorem Leads.ofRegions {l l' : Layout} (ok : l.Ok) (general : l'.freeGeneral = l.freeGeneral)
    (simd : l'.freeSimd = l.freeSimd) (leased : l'.leased = l.leased)
    (localTop : l.localRegion.top ≤ l'.localRegion.top)
    (localHigh : l'.localRegion.highWater = max l.localRegion.highWater l'.localRegion.top)
    (globalTop : l.globalRegion.top ≤ l'.globalRegion.top)
    (globalHigh : l'.globalRegion.highWater = max l.globalRegion.highWater l'.globalRegion.top) :
    l.Leads l' [] [] := by
  have free (c : RegisterClass) : l'.free c = l.free c := by
    cases c
    · exact general
    · exact simd
  refine
    { ok :=
        { ascending := fun c => free c ▸ ok.ascending c
          pooled := fun c => free c ▸ ok.pooled c
          leased := fun x hx => ?_
          nodup := leased ▸ ok.nodup
          localTop := by omega
          globalTop := by omega }
      free := fun c id => by simp [free c]
      taken := by simp
      nodup := by simp
      leased := by simp [leased]
      saved := by simp
      localTop := localTop
      localHigh := by omega
      globalTop := globalTop
      globalHigh := by omega }
  obtain ⟨c, id, pool, same, notFree⟩ := ok.leased x (leased ▸ hx)
  exact ⟨c, id, pool, same, free c ▸ notFree⟩

/-- The top of a region. -/
def topOf (l : Layout) : Region → Nat
  | .global => l.globalRegion.top
  | .local => l.localRegion.top

/-- Memory of a region at an offset. -/
def memoryAt : Region → Nat → Location
  | .global, offset => .globalMemory offset
  | .local, offset => .localMemory offset

/-- **A slot is new**: it lies behind everything there was, and below
everything to come. -/
theorem leads_allocate {l : Layout} (ok : l.Ok) (r : Region) {size : Nat}
    (whole : size = 4 ∨ 16 ≤ size) :
    ∃ offset, (l.allocate r size).1 = memoryAt r offset ∧ l.topOf r ≤ offset ∧
      offset + size = (l.allocate r size).2.topOf r ∧
      offset % BumpAllocator.alignmentOf size = 0 ∧ l.Leads (l.allocate r size).2 [] [] := by
  have aligned (a : BumpAllocator) : (a.allocate size).1 % BumpAllocator.alignmentOf size = 0 := by
    rcases whole with rfl | wide
    · exact a.offset_mod_four
    · rw [BumpAllocator.alignmentOf_wide wide]
      exact a.offset_mod_sixteen size wide
  have localTop := ok.localTop
  have globalTop := ok.globalTop
  cases r with
  | global =>
    have grown := l.globalRegion.top_le_top size
    exact ⟨_, rfl, l.globalRegion.top_le_offset size, rfl, aligned _,
      .ofRegions ok rfl rfl rfl (Nat.le_refl _) (Nat.max_eq_left localTop).symm
        grown rfl⟩
  | «local» =>
    have grown := l.localRegion.top_le_top size
    exact ⟨_, rfl, l.localRegion.top_le_offset size, rfl, aligned _,
      .ofRegions ok rfl rfl rfl grown rfl (Nat.le_refl _)
        (Nat.max_eq_left globalTop).symm⟩

/-- Taking a register that is free. -/
theorem leads_take {l : Layout} (ok : l.Ok) {c : RegisterClass} {id : Nat} {ids : List Nat}
    (free : l.free c = id :: ids) : l.Leads (l.setFree c ids) [c.location id] [] := by
  have ascending := free ▸ ok.ascending c
  have fresh : id ∉ ids := fun h => Nat.lt_irrefl id ((List.pairwise_cons.1 ascending).1 id h)
  have same (c' : RegisterClass) (i : Nat) : i ∈ (l.setFree c ids).free c' ↔
      i ∈ l.free c' ∧ c'.location i ≠ c.location id := by
    rw [free_setFree]
    by_cases hc : c' = c
    · subst hc
      rw [if_pos rfl, free, List.mem_cons]
      have (e : RegisterClass.location c' i = c'.location id) : i = id :=
        (RegisterClass.location_inj e).2
      constructor
      · rintro h
        exact ⟨.inr h, fun e => fresh (this e ▸ h)⟩
      · rintro ⟨rfl | h, ne⟩
        · exact absurd rfl ne
        · exact h
    · rw [if_neg hc]
      exact ⟨fun h => ⟨h, fun e => hc (RegisterClass.location_inj e).1⟩, And.left⟩
  refine
    { ok :=
        { ascending := fun c' => ?_
          pooled := fun c' i hi => ok.pooled c' i ((same c' i).1 hi).1
          leased := fun x hx => ?_
          nodup := by simpa using ok.nodup
          localTop := by simpa using ok.localTop
          globalTop := by simpa using ok.globalTop }
      free := fun c' i => by simpa using same c' i
      taken := by simpa using ⟨c, id, by simp [free], rfl⟩
      nodup := by simp
      leased := by simp
      saved := by simp
      localTop := by simp
      localHigh := by simp
      globalTop := by simp
      globalHigh := by simp }
  · rw [free_setFree]
    split
    · exact (List.pairwise_cons.1 ascending).2
    · exact ok.ascending c'
  · obtain ⟨c', i, pool, rfl, notFree⟩ := ok.leased x (by simpa using hx)
    exact ⟨c', i, pool, rfl, fun h => notFree ((same c' i).1 h).1⟩

/-- A type with storage takes a slot of a usual size. -/
theorem usual_size {ty : Ty} (storage : ty.size ≠ 0) : ty.size = 4 ∨ 16 ≤ ty.size := by
  cases ty <;> simp [Ty.size] at storage ⊢

/-- **What placing a value in memory does.** -/
theorem placeInMemory_eq {l : Layout} (ok : l.Ok) {ty : Ty} (storage : ty.size ≠ 0) (r : Region) :
    ∃ offset l', l.placeInMemory ty r = .ok (memoryAt r offset, l') ∧ l.topOf r ≤ offset ∧
      offset + ty.size = l'.topOf r ∧ offset % BumpAllocator.alignmentOf ty.size = 0 ∧
      l.Leads l' [] [] := by
  obtain ⟨offset, place, above, stop, aligned, leads⟩ := leads_allocate ok r (usual_size storage)
  refine ⟨offset, _, ?_, above, stop, aligned, leads⟩
  rw [placeInMemory, if_neg storage, ← place]

/-- **What placing a value does**: it takes a free register of the class
of its type, or else a new slot. -/
theorem place_eq {l : Layout} (ok : l.Ok) {ty : Ty} (storage : ty.size ≠ 0) (r : Region) :
    (∃ c id l', l.place ty r = .ok (c.location id, l') ∧ RegisterClass.ofTy? ty = some c ∧
      id ∈ l.free c ∧ l.Leads l' [c.location id] []) ∨
    ∃ offset l', l.place ty r = .ok (memoryAt r offset, l') ∧ l.topOf r ≤ offset ∧
      offset + ty.size = l'.topOf r ∧ offset % BumpAllocator.alignmentOf ty.size = 0 ∧
      l.Leads l' [] [] := by
  cases taken : (RegisterClass.ofTy? ty).bind l.takeRegister? with
  | none =>
    right
    obtain ⟨offset, place, above, stop, aligned, leads⟩ := leads_allocate ok r (usual_size storage)
    refine ⟨offset, _, ?_, above, stop, aligned, leads⟩
    rw [Layout.place, if_neg storage, taken, ← place]
  | some placed =>
    left
    obtain ⟨c, ofTy, take⟩ := Option.bind_eq_some_iff.1 taken
    rw [takeRegister?] at take
    split at take
    · cases take
    · next id ids free =>
      cases take
      refine ⟨c, id, _, ?_, ofTy, by simp [free], leads_take ok free⟩
      rw [Layout.place, if_neg storage, taken]

/-! ## Leases -/

/-- A register of a class is saved in a slot of a usual size. -/
theorem usual_spillSize (c : RegisterClass) : c.spillSize = 4 ∨ 16 ≤ c.spillSize := by
  cases c <;> simp [RegisterClass.spillSize]

/-- Leasing a register that is free. -/
theorem leads_lease_free {l : Layout} (ok : l.Ok) {c : RegisterClass} {id : Nat}
    (free : id ∈ l.free c) :
    l.Leads { l.setFree c ((l.free c).erase id) with leased := l.leased ++ [c.location id] } []
      [⟨c.location id, none⟩] := by
  have nodup : (l.free c).Nodup := (ok.ascending c).imp fun lt => Nat.ne_of_lt lt
  -- The register leaves the free list of its class, and no other list changes.
  have same (c' : RegisterClass) (i : Nat) : i ∈ (l.setFree c ((l.free c).erase id)).free c' ↔
      i ∈ l.free c' ∧ c'.location i ≠ c.location id := by
    rw [free_setFree]
    by_cases hc : c' = c
    · subst hc
      rw [if_pos rfl, nodup.mem_erase_iff, and_comm]
      refine and_congr_right fun _ => not_congr ⟨fun h => by rw [h], fun e => ?_⟩
      exact (RegisterClass.location_inj e).2
    · rw [if_neg hc]
      exact ⟨fun h => ⟨h, fun e => hc (RegisterClass.location_inj e).1⟩, And.left⟩
  have notLeased : c.location id ∉ l.leased := fun h => by
    obtain ⟨d, i, -, e, notFree⟩ := ok.leased _ h
    obtain ⟨rfl, rfl⟩ := RegisterClass.location_inj e
    exact notFree free
  refine
    { ok :=
        { ascending := fun c' => ?_
          pooled := fun c' i hi => ok.pooled c' i ((same c' i).1 hi).1
          leased := fun x hx => ?_
          nodup := ok.nodup.append (List.nodup_singleton _) (by simpa using notLeased)
          localTop := by simpa using ok.localTop
          globalTop := by simpa using ok.globalTop }
      free := fun c' i => by
        rw [List.nil_append, pooledOf_free, List.mem_singleton]
        exact same c' i
      taken := by simpa using ⟨c, id, free, rfl⟩
      nodup := by simp
      leased := List.Perm.refl _
      saved := by simp
      localTop := by simp
      localHigh := by simp
      globalTop := by simp
      globalHigh := by simp }
  · change ((l.setFree c ((l.free c).erase id)).free c').Pairwise (· < ·)
    rw [free_setFree]
    split
    · exact (ok.ascending c).sublist List.erase_sublist
    · exact ok.ascending c'
  · rcases List.mem_append.1 hx with hx | hx
    · obtain ⟨c', i, pool, rfl, notFree⟩ := ok.leased x hx
      exact ⟨c', i, pool, rfl, fun h => notFree ((same c' i).1 h).1⟩
    · rw [List.mem_singleton] at hx
      exact ⟨c, id, ok.pooled c id free, hx, fun h => ((same c id).1 h).2 rfl⟩

/-- Borrowing a register that is neither free nor leased. -/
theorem leads_borrow {l : Layout} (ok : l.Ok) {c : RegisterClass} {id : Nat} (pool : id ∈ c.pool)
    (notFree : id ∉ l.free c) (notLeased : c.location id ∉ l.leased) (offset : Nat) :
    l.Leads { l with leased := l.leased ++ [c.location id] } []
      [⟨c.location id, some (.globalMemory offset)⟩] := by
  refine
    { ok :=
        { ascending := ok.ascending
          pooled := ok.pooled
          leased := fun x hx => ?_
          nodup := ok.nodup.append (List.nodup_singleton _) (by simpa using notLeased)
          localTop := ok.localTop
          globalTop := ok.globalTop }
      free := fun c' i => by
        rw [pooledOf_borrowed]
        exact ⟨fun h => ⟨h, List.not_mem_nil⟩, And.left⟩
      taken := by simp
      nodup := by simp
      leased := List.Perm.refl _
      saved := by simp
      localTop := Nat.le_refl _
      localHigh := Nat.le_refl _
      globalTop := Nat.le_refl _
      globalHigh := Nat.le_refl _ }
  rcases List.mem_append.1 hx with hx | hx
  · exact ok.leased x hx
  · rw [List.mem_singleton] at hx
    exact ⟨c, id, pool, hx, notFree⟩

/-- **A lease as it is granted**: its register has been taken from the
free ones, or is borrowed and has a new slot to be saved in. -/
structure Grants (l l' : Layout) (c : RegisterClass) (avoid : List Location) (x : Lease) (id : Nat) :
    Prop where
  location : x.location = c.location id
  pool : id ∈ c.pool
  clear : id ∉ registersOf c avoid
  notLeased : c.location id ∉ l.leased
  leads : l.Leads l' [] [x]
  spill : (x.spill = none ∧ id ∈ l.free c) ∨
    (id ∉ l.free c ∧ ∃ offset, x.spill = some (.globalMemory offset) ∧
      l.globalRegion.top ≤ offset ∧ offset + c.spillSize ≤ l'.globalRegion.top ∧
      offset % BumpAllocator.alignmentOf c.spillSize = 0)

/-- **A lease is granted exactly when there is room.** -/
theorem lease_cases {l : Layout} (ok : l.Ok) (c : RegisterClass) (avoid : List Location) :
    (¬ l.Room c avoid ∧ l.lease c avoid = .error (.layout (.noRegister c))) ∨
    ∃ x l' id, l.lease c avoid = .ok (x, l') ∧ l.Grants l' c avoid x id := by
  rcases lease_eq ok c avoid with none | ⟨id, pool, clear, notLeased, ⟨free, eq⟩ | ⟨notFree, eq⟩⟩
  · exact .inl none
  · exact .inr ⟨_, _, id, eq, rfl, pool, clear, notLeased, leads_lease_free ok free,
      .inl ⟨rfl, free⟩⟩
  · obtain ⟨offset, place, above, stop, aligned, leads⟩ :=
      leads_allocate ok .global (usual_spillSize c)
    have kept : id ∉ (l.allocate .global c.spillSize).2.free c := fun h => notFree h
    rw [place] at eq
    exact .inr ⟨_, _, id, eq, rfl, pool, clear, notLeased,
      leads.trans (leads_borrow leads.ok pool kept notLeased offset),
      .inr ⟨notFree, offset, rfl, above, Nat.le_of_eq stop, aligned⟩⟩

/-- What is free once a lease has ended. -/
theorem mem_free_release {l : Layout} {x : Lease} {d : RegisterClass} {i : Nat}
    (whole : x.location = d.location i) {c : RegisterClass} {id : Nat} :
    id ∈ (l.release x).free c ↔
      id ∈ l.free c ∨ (x.isPooled = true ∧ c.location id = x.location) := by
  unfold release
  split
  · next pooled =>
    rw [whole, mem_free_giveBack, or_comm]
    exact or_congr Iff.rfl ⟨fun h => ⟨pooled, h⟩, And.right⟩
  · next borrowed => exact ⟨.inl, fun h => h.resolve_right fun h => borrowed h.1⟩

theorem leased_release (l : Layout) (x : Lease) : (l.release x).leased = l.leased.erase x.location := by
  unfold release
  split <;> simp

theorem regions_release (l : Layout) (x : Lease) :
    (l.release x).localRegion = l.localRegion ∧ (l.release x).globalRegion = l.globalRegion := by
  unfold release
  split <;> simp

/-- **A lease that ends** leaves the others under way. -/
theorem Leads.release {l l' : Layout} {registers : List Location} {held : List Lease}
    (h : l.Leads l' registers held) {x : Lease} (hx : x ∈ held) :
    l.Leads (l'.release x) registers (held.erase x) := by
  obtain ⟨d, i, pool, whole, notFree⟩ := h.ok.leased _ (h.mem_leased hx)
  have leased := leased_release l' x
  obtain ⟨localRegion, globalRegion⟩ := regions_release l' x
  have rest : held.Perm (x :: held.erase x) := List.perm_cons_erase hx
  have pooled : (pooledOf held).Perm (pooledOf [x] ++ pooledOf (held.erase x)) := by
    rw [← pooledOf_append]
    exact pooledOf_perm rest
  have single {y : Location} : y ∈ pooledOf [x] ↔ x.isPooled = true ∧ y = x.location := by
    rw [mem_pooledOf]
    constructor
    · rintro ⟨z, hz, own, rfl⟩
      rw [List.mem_singleton] at hz
      exact ⟨hz ▸ own, by rw [hz]⟩
    · rintro ⟨own, rfl⟩
      exact ⟨x, List.mem_singleton_self x, own, rfl⟩
  -- What was taken is what remains taken, and the register of this lease if it came
  -- from the free ones; the two are apart.
  have split (y : Location) : y ∈ registers ++ pooledOf held ↔
      y ∈ registers ++ pooledOf (held.erase x) ∨ (x.isPooled = true ∧ y = x.location) := by
    rw [List.mem_append, List.mem_append, pooled.mem_iff, List.mem_append, single]
    tauto
  have nodup : (pooledOf [x] ++ (registers ++ pooledOf (held.erase x))).Nodup := by
    refine (List.Perm.nodup_iff ?_).1 h.nodup
    rw [← List.append_assoc]
    refine (pooled.append_left registers).trans ?_
    rw [← List.append_assoc]
    exact List.perm_append_comm.append_right _
  have apart (own : x.isPooled = true) : x.location ∉ registers ++ pooledOf (held.erase x) :=
    fun hy => (List.nodup_append.1 nodup).2.2 _ (single.2 ⟨own, rfl⟩) _ hy rfl
  refine
    { ok :=
        { ascending := fun c => ?_
          pooled := fun c id hid => ?_
          leased := fun y hy => ?_
          nodup := leased ▸ h.ok.nodup.erase _
          localTop := localRegion ▸ h.ok.localTop
          globalTop := globalRegion ▸ h.ok.globalTop }
      free := fun c id => ?_
      taken := fun y hy => h.taken y ((split y).2 (.inl hy))
      nodup := (List.nodup_append.1 nodup).2.1
      leased := ?_
      saved := fun y hy => h.saved y (List.mem_of_mem_erase hy)
      localTop := localRegion ▸ h.localTop
      localHigh := localRegion ▸ h.localHigh
      globalTop := globalRegion ▸ h.globalTop
      globalHigh := globalRegion ▸ h.globalHigh }
  · unfold Layout.release
    split
    · exact ascending_giveBack (l := { l' with leased := l'.leased.erase x.location })
        h.ok.ascending _ c
    · exact h.ok.ascending c
  · rcases (mem_free_release whole).1 hid with hid | ⟨-, e⟩
    · exact h.ok.pooled c id hid
    · obtain ⟨rfl, rfl⟩ := RegisterClass.location_inj (e.trans whole)
      exact pool
  · rw [leased, h.ok.nodup.mem_erase_iff] at hy
    obtain ⟨c, id, hid, rfl, hn⟩ := h.ok.leased y hy.2
    refine ⟨c, id, hid, rfl, fun free => ?_⟩
    rcases (mem_free_release whole).1 free with free | ⟨-, e⟩
    · exact hn free
    · exact hy.1 e
  -- A register is free behind the release if it was so before, or if it is the one that
  -- was taken for the lease.
  · rw [mem_free_release whole, h.free, split]
    constructor
    · rintro (⟨free, out⟩ | ⟨own, e⟩)
      · exact ⟨free, fun hy => out (.inl hy)⟩
      · obtain ⟨c', id', free, e'⟩ := h.taken x.location ((split _).2 (.inr ⟨own, rfl⟩))
        obtain ⟨rfl, rfl⟩ := RegisterClass.location_inj (e.trans e')
        exact ⟨free, e ▸ apart own⟩
    · rintro ⟨free, out⟩
      by_cases own : x.isPooled = true ∧ c.location id = x.location
      · exact .inr own
      · exact .inl ⟨free, fun hy => hy.elim out own⟩
  · rw [leased]
    refine (h.leased.erase x.location).trans ?_
    rw [List.erase_append_right _ (h.not_leased hx)]
    refine List.Perm.append_left _ ?_
    have := (rest.map Lease.location).erase x.location
    rwa [List.map_cons, List.erase_cons_head] at this

/-- **A scope that closes** over a course without leases gives back its
registers and rolls the local region back. -/
theorem Leads.close {l l' : Layout} {registers : List Location} (ok : l.Ok)
    (h : l.Leads l' registers []) : l.Leads (l'.closeScope ⟨l.localRegion.top, registers⟩) [] [] := by
  have whole : ∀ x ∈ registers, ∃ c id, x = RegisterClass.location c id := fun x hx => by
    obtain ⟨c, id, -, e⟩ := h.taken x (List.mem_append_left _ hx)
    exact ⟨c, id, e⟩
  obtain ⟨leased, localRegion, globalRegion⟩ := foldl_giveBack_unchanged l' registers
  -- The scope gives back exactly the registers that were taken since it was opened, so
  -- the free lists are those of the start up to their order, which is fixed by being
  -- ascending.
  have free (c : RegisterClass) (id : Nat) :
      id ∈ (registers.foldl giveBack l').free c ↔ id ∈ l.free c := by
    rw [mem_free_foldl_giveBack whole, h.free, pooledOf_nil, List.append_nil]
    constructor
    · rintro (⟨free, -⟩ | taken)
      · exact free
      · obtain ⟨c', id', free, e⟩ := h.taken _ (List.mem_append_left _ taken)
        obtain ⟨rfl, rfl⟩ := RegisterClass.location_inj e
        exact free
    · intro free
      by_cases taken : c.location id ∈ registers
      · exact .inr taken
      · exact .inl ⟨free, taken⟩
  have leasedEq : l'.leased.Perm l.leased := by simpa using h.leased
  have top := Nat.le_trans h.localTop h.ok.localTop
  exact
    { ok :=
        { ascending := fun c => ascending_foldl_giveBack h.ok.ascending registers c
          pooled := fun c id hid => ok.pooled c id ((free c id).1 hid)
          leased := fun x hx => by
            obtain ⟨c, id, pool, rfl, notFree⟩ :=
              ok.leased x (leasedEq.mem_iff.1 (leased ▸ hx))
            exact ⟨c, id, pool, rfl, fun hid => notFree ((free c id).1 hid)⟩
          nodup := leased ▸ h.ok.nodup
          localTop := by
            change _ ≤ (registers.foldl giveBack l').localRegion.highWater
            rw [localRegion]
            exact top
          globalTop := globalRegion ▸ h.ok.globalTop }
      free := fun c id => by
        rw [List.nil_append, pooledOf_nil]
        exact (free c id).trans ⟨fun h => ⟨h, List.not_mem_nil⟩, And.left⟩
      taken := by simp
      nodup := by simp
      leased := by simpa [closeScope, leased] using leasedEq
      saved := by simp
      localTop := Nat.le_refl _
      localHigh := by
        change _ ≤ (registers.foldl giveBack l').localRegion.highWater
        rw [localRegion]
        exact h.localHigh
      globalTop := globalRegion ▸ h.globalTop
      globalHigh := globalRegion ▸ h.globalHigh }

end Layout

end Shading
