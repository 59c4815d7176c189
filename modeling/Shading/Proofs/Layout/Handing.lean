import Shading.Layout.Session
import Shading.Proofs.Layout.Course

/-!
# What the layout hands out

Global memory is handed out in ascending ranges (`BumpAllocator.Handed`). A
placement takes a free register or a range (`Layout.Takes`), and a lease takes
a free register, or borrows one and takes a range to save it in
(`Layout.Leases`). The free registers stay in order, and what is given back is
free again.
-/

namespace Shading

/-- The register that a placement takes, if it takes one. -/
def Location.taken (x : Location) : List Location := if x.registerOf?.isSome then [x] else []

/-! ## Ranges of memory -/

/-- **The allocator hands out a range**, given by its first byte and its
length, or nothing at all. -/
def BumpAllocator.Hands (a b : BumpAllocator) : Option (Nat × Nat) → Prop
  | none => b = a
  | some (offset, size) =>
    a.top ≤ offset ∧ b.top = offset + size ∧ b.highWater = max a.highWater b.top

/-- Ranges that stand one behind the other and end below the top of the
allocator that handed them out. -/
structure BumpAllocator.Handed (a : BumpAllocator) (ranges : List (Nat × Nat)) : Prop where
  apart : ranges.Pairwise fun r q => r.1 + r.2 ≤ q.1
  below : ∀ r ∈ ranges, r.1 + r.2 ≤ a.top
  top : a.top ≤ a.highWater

theorem BumpAllocator.Handed.hand {a b : BumpAllocator} {ranges : List (Nat × Nat)}
    {r : Option (Nat × Nat)} (h : a.Handed ranges) (hands : a.Hands b r) :
    b.Handed (ranges ++ r.toList) := by
  obtain ⟨apart, below, top⟩ := h
  cases r with
  | none =>
    obtain rfl : b = a := hands
    simpa using ⟨apart, below, top⟩
  | some r =>
    obtain ⟨above, stop, high⟩ := hands
    refine ⟨List.pairwise_append.2 ⟨apart, List.pairwise_singleton _ _, ?_⟩, ?_, by omega⟩
    · intro q hq r' hr
      obtain rfl := List.mem_singleton.1 hr
      exact Nat.le_trans (below q hq) above
    · intro q hq
      rcases List.mem_append.1 hq with hq | hq
      · have := below q hq
        omega
      · obtain rfl := List.mem_singleton.1 hq
        omega

namespace Layout

variable {l l' : Layout} {x : Location} {c : RegisterClass} {id : Nat}

theorem hands_allocate (l : Layout) (r : Region) (size : Nat) :
    l.globalRegion.Hands (l.allocate r size).2.globalRegion
      ((l.allocate r size).1.globalOffset?.map (·, size)) := by
  cases r with
  | global => exact ⟨l.globalRegion.top_le_offset size, rfl, rfl⟩
  | «local» => exact rfl

/-! ## Free registers -/

/-- **The registers of both pools.** -/
def registers : List Location :=
  RegisterClass.general.pool.map RegisterClass.general.location ++
    RegisterClass.simd.pool.map RegisterClass.simd.location

theorem nodup_registers : registers.Nodup := by decide

theorem mem_registers : x ∈ registers ↔ ∃ c : RegisterClass, ∃ id ∈ c.pool, x = c.location id := by
  simp only [registers, List.mem_append, List.mem_map]
  constructor
  · rintro (⟨id, h, rfl⟩ | ⟨id, h, rfl⟩)
    exacts [⟨_, id, h, rfl⟩, ⟨_, id, h, rfl⟩]
  · rintro ⟨c, id, h, rfl⟩
    cases c
    exacts [.inl ⟨id, h, rfl⟩, .inr ⟨id, h, rfl⟩]

/-- The free registers of both classes. -/
def available (l : Layout) : List Location :=
  (l.free .general).map RegisterClass.general.location ++
    (l.free .simd).map RegisterClass.simd.location

theorem mem_available : x ∈ l.available ↔ ∃ c : RegisterClass, ∃ id ∈ l.free c, x = c.location id := by
  simp only [available, List.mem_append, List.mem_map]
  constructor
  · rintro (⟨id, h, rfl⟩ | ⟨id, h, rfl⟩)
    exacts [⟨_, id, h, rfl⟩, ⟨_, id, h, rfl⟩]
  · rintro ⟨c, id, h, rfl⟩
    cases c
    exacts [.inl ⟨id, h, rfl⟩, .inr ⟨id, h, rfl⟩]

theorem location_mem_available : c.location id ∈ l.available ↔ id ∈ l.free c := by
  refine mem_available.trans ⟨?_, fun h => ⟨c, id, h, rfl⟩⟩
  rintro ⟨d, i, h, same⟩
  obtain ⟨rfl, rfl⟩ := RegisterClass.location_inj same
  exact h

/-- One register less is free. -/
theorem available_setFree {ids : List Nat} (h : (l.free c).Perm (id :: ids)) :
    l.available.Perm (c.location id :: (l.setFree c ids).available) := by
  cases c with
  | general => exact (h.map _).append_right _
  | simd => exact ((h.map _).append_left _).trans List.perm_middle

@[simp] theorem free_allocate (l : Layout) (r : Region) (size : Nat) (c : RegisterClass) :
    (l.allocate r size).2.free c = l.free c := by cases r <;> cases c <;> rfl

@[simp] theorem free_withLeased (l : Layout) (xs : List Location) (c : RegisterClass) :
    ({ l with leased := xs } : Layout).free c = l.free c := by cases c <;> rfl

@[simp] theorem available_allocate (l : Layout) (r : Region) (size : Nat) :
    (l.allocate r size).2.available = l.available := by cases r <;> rfl

theorem perm_insertAscending {n : Nat} {ns : List Nat} (new : n ∉ ns) :
    (insertAscending n ns).Perm (n :: ns) := by
  induction ns with
  | nil => exact .refl _
  | cons m ms ih =>
    obtain ⟨ne, rest⟩ := not_or.1 (List.mem_cons.not.1 new)
    rw [insertAscending, if_neg ne]
    split
    · exact .refl _
    · exact ((ih rest).cons m).trans (.swap _ _ _)

/-- One more register is free. -/
theorem available_giveBack (new : c.location id ∉ l.available) :
    (l.giveBack (c.location id)).available.Perm (c.location id :: l.available) := by
  rw [location_mem_available] at new
  rw [giveBack_location]
  cases c with
  | general => exact ((perm_insertAscending new).map _).append_right _
  | simd => exact (((perm_insertAscending new).map _).append_left _).trans List.perm_middle

/-- Registers of the pools that are not free are free once they are given
back. -/
theorem available_foldl_giveBack {xs : List Location} (pooled : ∀ x ∈ xs, x ∈ registers)
    (apart : (xs ++ l.available).Nodup) :
    (xs.foldl giveBack l).available.Perm (xs ++ l.available) := by
  induction xs generalizing l with
  | nil => exact .refl _
  | cons x xs ih =>
    obtain ⟨c, id, -, rfl⟩ := mem_registers.1 (pooled x List.mem_cons_self)
    obtain ⟨new, rest⟩ := List.nodup_cons.1 apart
    have one := available_giveBack (l := l) fun h => new (List.mem_append_right _ h)
    have moved : (xs ++ (l.giveBack (c.location id)).available).Perm
        (c.location id :: (xs ++ l.available)) := (one.append_left xs).trans List.perm_middle
    exact (ih (fun y hy => pooled y (List.mem_cons_of_mem _ hy))
      (moved.nodup_iff.2 (List.nodup_cons.2 ⟨new, rest⟩))).trans moved

/-! ## Placements -/

/-- **What a placement takes**: a register off the free ones, or a range
of memory of some size. -/
structure Takes (l l' : Layout) (x : Location) (size : Nat) : Prop where
  ascending : (∀ c, (l.free c).Pairwise (· < ·)) → ∀ c, (l'.free c).Pairwise (· < ·)
  available : l.available.Perm (x.taken ++ l'.available)
  leased : l'.leased = l.leased
  hands : l.globalRegion.Hands l'.globalRegion (x.globalOffset?.map (·, size))

theorem takes_allocate (l : Layout) (r : Region) (size : Nat) :
    l.Takes (l.allocate r size).2 (l.allocate r size).1 size where
  ascending h c := by
    rw [free_allocate]
    exact h c
  available := by
    rw [available_allocate]
    cases r <;> exact .refl _
  leased := by cases r <;> rfl
  hands := l.hands_allocate r size

theorem takes_placeInMemory {ty : Ty} {r : Region} (h : l.placeInMemory ty r = .ok (x, l')) :
    l.Takes l' x ty.size := by
  rw [placeInMemory] at h
  split at h
  · cases h
  · have := l.takes_allocate r ty.size
    rwa [Except.ok.inj h] at this

theorem takes_place {ty : Ty} {r : Region} (h : l.place ty r = .ok (x, l')) :
    l.Takes l' x ty.size := by
  rw [place] at h
  split at h
  · cases h
  · split at h
    · next placed take =>
      cases h
      obtain ⟨c, -, take⟩ := Option.bind_eq_some_iff.1 take
      rw [takeRegister?] at take
      split at take
      · cases take
      · next id ids free =>
        cases take
        refine ⟨fun ascending d => ?_, ?_, leased_setFree l c ids, ?_⟩
        · rw [free_setFree]
          split
          · have := ascending c
            rw [free] at this
            exact (List.pairwise_cons.1 this).2
          · exact ascending d
        · simpa [Location.taken] using available_setFree (by rw [free])
        · rw [globalRegion_setFree]
          cases c <;> exact rfl
    · have := l.takes_allocate r ty.size
      rwa [Except.ok.inj h] at this

/-- A scope lists the register that is placed in it. -/
theorem takes_placeIn {scope scope' : TemporaryScope} {ty : Ty}
    (h : l.placeIn scope ty = .ok (x, scope', l')) :
    l.Takes l' x ty.size ∧ scope'.registers = scope.registers ++ x.taken := by
  rw [placeIn] at h
  simp only [Bind.bind, Except.bind, Pure.pure, Except.pure] at h
  split at h
  · cases h
  · next placed first =>
    obtain ⟨y, k⟩ := placed
    dsimp only at h
    split at h <;> cases h
    · next whole => exact ⟨takes_place first, by simp [Location.taken, whole]⟩
    · next memory => exact ⟨takes_place first, by simp [Location.taken, memory]⟩

/-! ## Leases -/

/-- **What a lease takes**: a register off the free ones, or a range of
memory to save a borrowed one in. -/
structure Leases (l l' : Layout) (x : Lease) (size : Nat) : Prop where
  ascending : (∀ c, (l.free c).Pairwise (· < ·)) → ∀ c, (l'.free c).Pairwise (· < ·)
  available : l.available.Perm (pooledOf [x] ++ l'.available)
  leased : l'.leased = l.leased ++ [x.location]
  hands : l.globalRegion.Hands l'.globalRegion ((x.spill.bind Location.globalOffset?).map (·, size))

theorem leases_lease {avoid : List Location} {x : Lease} (h : l.lease c avoid = .ok (x, l')) :
    l.Leases l' x c.spillSize := by
  rcases l.lease_outcome c avoid with
    ⟨id, free, -, grant⟩ | ⟨-, ⟨id, -, -, -, grant⟩ | ⟨-, refusal⟩⟩
  · rw [grant] at h
    cases h
    refine ⟨fun ascending d => ?_, available_setFree (List.perm_cons_erase free), rfl, ?_⟩
    · change ((l.setFree c _).free d).Pairwise _
      rw [free_setFree]
      split
      · exact (ascending c).sublist List.erase_sublist
      · exact ascending d
    · exact globalRegion_setFree l c _
  · rw [grant] at h
    cases h
    refine ⟨fun ascending d => ?_, .refl _, rfl, l.hands_allocate .global c.spillSize⟩
    rw [free_withLeased, free_allocate]
    exact ascending d
  · rw [refusal] at h
    cases h

/-- A lease that ends gives back the register that it took. -/
theorem available_release {y : Lease} (pooled : ∀ x ∈ pooledOf [y], x ∈ registers)
    (apart : (pooledOf [y] ++ l.available).Nodup) :
    (l.release y).available.Perm (pooledOf [y] ++ l.available) := by
  rcases y with ⟨x, _ | slot⟩
  · exact available_foldl_giveBack (l := { l with leased := l.leased.erase x }) pooled apart
  · exact .refl _

theorem ascending_release (ascending : ∀ c, (l.free c).Pairwise (· < ·)) (y : Lease) :
    ∀ c, ((l.release y).free c).Pairwise (· < ·) := by
  intro c
  unfold release
  dsimp only
  split
  · exact ascending_giveBack (fun d => by rw [free_withLeased]; exact ascending d) _ c
  · rw [free_withLeased]
    exact ascending c

end Layout

end Shading
