import Mathlib.Data.List.Nodup
import Mathlib.Data.List.Perm.Subperm
import Shading.Layout

/-!
# The laws of slots and register pools

A slot of the sizes that values have is aligned, lies at or behind the
old top of its region, and ends at the new one. The free registers of a
class stand in ascending order, so that they are determined by which
registers are among them (`eq_of_mem_iff`): whatever is taken and given
back restores the very list.

`Layout.Ok` is what every layout satisfies that these operations lead
to, and `Layout.Room` says when a lease is granted.
-/

namespace Shading

/-! ## Slots -/

theorem le_alignUp (value : Nat) {alignment : Nat} (positive : 0 < alignment) :
    value ≤ alignUp value alignment := by
  have : (value + alignment - 1) &&& (alignment - 1) ≤ alignment - 1 := Nat.and_le_right
  simp only [alignUp]
  omega

theorem alignUp_four (value : Nat) : alignUp value 4 = (value + 3) / 4 * 4 := by
  have : (value + 4 - 1) &&& (4 - 1) = (value + 4 - 1) % 4 :=
    Nat.and_two_pow_sub_one_eq_mod _ 2
  simp only [alignUp, this]
  omega

theorem alignUp_sixteen (value : Nat) : alignUp value 16 = (value + 15) / 16 * 16 := by
  have : (value + 16 - 1) &&& (16 - 1) = (value + 16 - 1) % 16 :=
    Nat.and_two_pow_sub_one_eq_mod _ 4
  simp only [alignUp, this]
  omega

namespace BumpAllocator

variable (a : BumpAllocator) (size : Nat)

theorem alignmentOf_wide {size : Nat} (wide : 16 ≤ size) : alignmentOf size = 16 := by
  simp only [alignmentOf]
  omega

theorem alignmentOf_pos : 0 < alignmentOf size := by
  simp only [alignmentOf]
  omega

theorem top_le_offset : a.top ≤ (a.allocate size).1 := le_alignUp _ (alignmentOf_pos size)

theorem top_allocate : (a.allocate size).2.top = (a.allocate size).1 + size := rfl

theorem top_le_top : a.top ≤ (a.allocate size).2.top := by
  have := a.top_le_offset size
  rw [top_allocate]
  omega

/-- A scalar stands at a multiple of four. -/
theorem offset_mod_four : (a.allocate 4).1 % 4 = 0 := by
  change alignUp a.top 4 % 4 = 0
  rw [alignUp_four]
  omega

/-- A scalar stands at a top that is a multiple of four. -/
theorem offset_eq_top (aligned : a.top % 4 = 0) : (a.allocate 4).1 = a.top := by
  change alignUp a.top 4 = a.top
  rw [alignUp_four]
  omega

/-- Anything as wide as a vector stands at a multiple of sixteen. -/
theorem offset_mod_sixteen (wide : 16 ≤ size) : (a.allocate size).1 % 16 = 0 := by
  change alignUp a.top (alignmentOf size) % 16 = 0
  rw [alignmentOf_wide wide, alignUp_sixteen]
  omega

end BumpAllocator

/-! ## Ascending lists -/

theorem mem_insertAscending {n m : Nat} {l : List Nat} :
    m ∈ insertAscending n l ↔ m = n ∨ m ∈ l := by
  induction l with
  | nil => simp [insertAscending]
  | cons k ks ih =>
    rw [insertAscending]
    split
    · simp
    · split
      · next h => simp [h]
      · simp only [List.mem_cons, ih]
        tauto

theorem pairwise_insertAscending {n : Nat} {l : List Nat} (h : l.Pairwise (· < ·)) :
    (insertAscending n l).Pairwise (· < ·) := by
  induction l with
  | nil => simp [insertAscending]
  | cons k ks ih =>
    obtain ⟨head, tail⟩ := List.pairwise_cons.1 h
    rw [insertAscending]
    split
    · next lt =>
      refine List.pairwise_cons.2 ⟨fun m hm => ?_, h⟩
      rcases List.mem_cons.1 hm with rfl | hm
      · exact lt
      · exact Nat.lt_trans lt (head m hm)
    · split
      · exact h
      · next notLt ne =>
        refine List.pairwise_cons.2 ⟨fun m hm => ?_, ih tail⟩
        rcases mem_insertAscending.1 hm with rfl | hm
        · omega
        · exact head m hm

/-- **An ascending list is determined by its members.** -/
theorem eq_of_mem_iff {l l' : List Nat} (h : l.Pairwise (· < ·)) (h' : l'.Pairwise (· < ·))
    (same : ∀ n, n ∈ l ↔ n ∈ l') : l = l' := by
  have nodup {k : List Nat} (hk : k.Pairwise (· < ·)) : k.Nodup :=
    hk.imp fun lt => Nat.ne_of_lt lt
  exact ((List.perm_ext_iff_of_nodup (nodup h) (nodup h')).2 same).eq_of_pairwise
    (fun a b _ _ ab ba => absurd ab (Nat.lt_asymm ba)) h h'

/-! ## Registers named by locations -/

/-- The registers of a class that locations occupy. -/
def registersOf (c : RegisterClass) (locations : List Location) : List Nat :=
  locations.filterMap fun l => l.registerOf?.bind fun r => if r.1 = c then some r.2 else none

theorem mem_registersOf {c : RegisterClass} {locations : List Location} {id : Nat} :
    id ∈ registersOf c locations ↔ ∃ l ∈ locations, l.registerOf? = some (c, id) := by
  simp only [registersOf, List.mem_filterMap, Option.bind_eq_some_iff]
  refine exists_congr fun l => and_congr_right fun _ => ⟨?_, fun h => ⟨_, h, by simp⟩⟩
  rintro ⟨⟨c', id'⟩, h, same⟩
  split at same
  · next hc =>
    cases same
    subst hc
    exact h
  · cases same

@[simp] theorem registersOf_nil (c : RegisterClass) : registersOf c [] = [] := rfl

@[simp] theorem registersOf_append (c : RegisterClass) (xs ys : List Location) :
    registersOf c (xs ++ ys) = registersOf c xs ++ registersOf c ys :=
  List.filterMap_append

theorem length_registersOf_le (c : RegisterClass) (xs : List Location) :
    (registersOf c xs).length ≤ xs.length := List.length_filterMap_le _ _

@[simp] theorem registersOf_location (c : RegisterClass) (id : Nat) :
    registersOf c [c.location id] = [id] := by
  simp [registersOf]

theorem conflicts_iff {avoid : List Location} {c : RegisterClass} {id : Nat} :
    Layout.conflicts avoid c id = true ↔ id ∈ registersOf c avoid := by
  simp [Layout.conflicts, mem_registersOf, Location.occupies]

theorem RegisterClass.location_inj {c c' : RegisterClass} {i j : Nat}
    (h : c.location i = c'.location j) : c = c' ∧ i = j := by
  cases c <;> cases c' <;> cases h <;> simp

theorem RegisterClass.nodup_pool (c : RegisterClass) : c.pool.Nodup := by
  cases c <;> decide

/-! ## Layouts -/

namespace Layout

/-- **A layout in good order.** -/
structure Ok (l : Layout) : Prop where
  ascending : ∀ c, (l.free c).Pairwise (· < ·)
  pooled : ∀ c, ∀ id ∈ l.free c, id ∈ c.pool
  /-- A leased register is not free. -/
  leased : ∀ x ∈ l.leased, ∃ c, ∃ id ∈ c.pool, x = c.location id ∧ id ∉ l.free c
  nodup : l.leased.Nodup
  localTop : l.localRegion.top ≤ l.localRegion.highWater
  globalTop : l.globalRegion.top ≤ l.globalRegion.highWater

/-- The first layout of a compilation. -/
theorem ok_empty : Ok {} where
  ascending c := by cases c <;> decide
  pooled c id h := by cases c <;> exact h
  leased := by simp
  nodup := List.nodup_nil
  localTop := Nat.le_refl _
  globalTop := Nat.le_refl _

@[simp] theorem free_setFree (l : Layout) (c c' : RegisterClass) (ids : List Nat) :
    (l.setFree c ids).free c' = if c' = c then ids else l.free c' := by
  cases c <;> cases c' <;> simp [setFree, free]

@[simp] theorem leased_setFree (l : Layout) (c : RegisterClass) (ids : List Nat) :
    (l.setFree c ids).leased = l.leased := by cases c <;> rfl

@[simp] theorem localRegion_setFree (l : Layout) (c : RegisterClass) (ids : List Nat) :
    (l.setFree c ids).localRegion = l.localRegion := by cases c <;> rfl

@[simp] theorem globalRegion_setFree (l : Layout) (c : RegisterClass) (ids : List Nat) :
    (l.setFree c ids).globalRegion = l.globalRegion := by cases c <;> rfl

/-! ### Giving back -/

theorem giveBack_location (l : Layout) (c : RegisterClass) (id : Nat) :
    l.giveBack (c.location id) = l.setFree c (insertAscending id (l.free c)) := by
  simp [giveBack]

@[simp] theorem leased_giveBack (l : Layout) (x : Location) : (l.giveBack x).leased = l.leased := by
  unfold giveBack
  split <;> simp

@[simp] theorem localRegion_giveBack (l : Layout) (x : Location) :
    (l.giveBack x).localRegion = l.localRegion := by
  unfold giveBack
  split <;> simp

@[simp] theorem globalRegion_giveBack (l : Layout) (x : Location) :
    (l.giveBack x).globalRegion = l.globalRegion := by
  unfold giveBack
  split <;> simp

theorem mem_free_giveBack {l : Layout} {c c' : RegisterClass} {id i : Nat} :
    i ∈ (l.giveBack (c.location id)).free c' ↔
      c'.location i = c.location id ∨ i ∈ l.free c' := by
  rw [giveBack_location, free_setFree]
  by_cases h : c' = c
  · subst h
    rw [if_pos rfl, mem_insertAscending]
    refine or_congr_left ⟨fun h => by rw [h], fun h => (RegisterClass.location_inj h).2⟩
  · rw [if_neg h]
    exact ⟨.inr, fun h' => h'.resolve_left fun same => h (RegisterClass.location_inj same).1⟩

/-- The free registers behind some that are given back. -/
theorem mem_free_foldl_giveBack {l : Layout} {registers : List Location} {c : RegisterClass}
    {i : Nat} (whole : ∀ x ∈ registers, ∃ c id, x = RegisterClass.location c id) :
    i ∈ (registers.foldl giveBack l).free c ↔ i ∈ l.free c ∨ c.location i ∈ registers := by
  induction registers generalizing l with
  | nil => simp
  | cons x xs ih =>
    obtain ⟨d, id, rfl⟩ := whole x List.mem_cons_self
    rw [List.foldl_cons, ih fun y hy => whole y (List.mem_cons_of_mem _ hy), mem_free_giveBack,
      List.mem_cons]
    tauto

theorem foldl_giveBack_unchanged (l : Layout) (registers : List Location) :
    (registers.foldl giveBack l).leased = l.leased ∧
      (registers.foldl giveBack l).localRegion = l.localRegion ∧
      (registers.foldl giveBack l).globalRegion = l.globalRegion := by
  induction registers generalizing l with
  | nil => exact ⟨rfl, rfl, rfl⟩
  | cons x xs ih =>
    obtain ⟨a, b, c⟩ := ih (l.giveBack x)
    exact ⟨a.trans (leased_giveBack l x), b.trans (localRegion_giveBack l x),
      c.trans (globalRegion_giveBack l x)⟩

theorem ascending_giveBack {l : Layout} (h : ∀ c, (l.free c).Pairwise (· < ·)) (x : Location)
    (c : RegisterClass) : ((l.giveBack x).free c).Pairwise (· < ·) := by
  unfold giveBack
  split
  · rw [free_setFree]
    split
    · exact pairwise_insertAscending (h _)
    · exact h c
  · exact h c

theorem ascending_foldl_giveBack {l : Layout} (h : ∀ c, (l.free c).Pairwise (· < ·))
    (registers : List Location) (c : RegisterClass) :
    ((registers.foldl giveBack l).free c).Pairwise (· < ·) := by
  induction registers generalizing l with
  | nil => exact h c
  | cons x xs ih => exact ih (ascending_giveBack h x)

/-! ### Leases -/

/-- **Room for a lease**: a register of the class that is neither to be
avoided nor under a lease. -/
def Room (l : Layout) (c : RegisterClass) (avoid : List Location) : Prop :=
  ∃ id ∈ c.pool, id ∉ registersOf c avoid ∧ c.location id ∉ l.leased

/-- There is room when fewer registers than the pool has cover those to
be avoided and those under a lease. -/
theorem room_of_cover {l : Layout} {c : RegisterClass} {avoid : List Location} (ids : List Nat)
    (few : ids.length < c.pool.length) (avoided : ∀ id ∈ registersOf c avoid, id ∈ ids)
    (leased : ∀ id, c.location id ∈ l.leased → id ∈ ids) : l.Room c avoid := by
  by_contra none
  have covered : c.pool ⊆ ids := fun id hid => by
    by_contra out
    exact none ⟨id, hid, fun h => out (avoided id h), fun h => out (leased id h)⟩
  have := (c.nodup_pool.subperm covered).length_le
  omega

/-- **What a lease does**, in any layout. A free register that is not to
be avoided is taken. When every free one is to be avoided, a register of
the pool that is neither to be avoided nor under a lease is borrowed and
gets a slot, and without such a register there is no lease. -/
theorem lease_outcome (l : Layout) (c : RegisterClass) (avoid : List Location) :
    (∃ id ∈ l.free c, id ∉ registersOf c avoid ∧ l.lease c avoid = .ok (⟨c.location id, none⟩,
      { l.setFree c ((l.free c).erase id) with leased := l.leased ++ [c.location id] })) ∨
    (∀ id ∈ l.free c, id ∈ registersOf c avoid) ∧
      ((∃ id ∈ c.pool, id ∉ registersOf c avoid ∧ c.location id ∉ l.leased ∧ l.lease c avoid =
          .ok (⟨c.location id, some (l.allocate .global c.spillSize).1⟩,
            { (l.allocate .global c.spillSize).2 with
                leased := l.leased ++ [c.location id] })) ∨
       (¬ l.Room c avoid ∧ l.lease c avoid = .error (.layout (.noRegister c)))) := by
  unfold lease
  split
  · next id found =>
    left
    refine ⟨id, List.mem_of_find?_eq_some found, ?_, by simp⟩
    rw [← conflicts_iff]
    simpa using List.find?_some found
  · next noneFree =>
    refine .inr ⟨fun id free => ?_, ?_⟩
    · simpa [conflicts_iff] using List.find?_eq_none.1 noneFree id free
    split
    · next id found =>
      left
      have both := List.find?_some found
      simp only [Bool.and_eq_true, Bool.not_eq_true', List.contains_eq_mem,
        decide_eq_false_iff_not] at both
      refine ⟨id, List.mem_of_find?_eq_some found, ?_, both.2, rfl⟩
      rw [← conflicts_iff]
      simpa using both.1
    · next noneLeft =>
      refine .inr ⟨?_, rfl⟩
      rintro ⟨id, mem, clear, notLeased⟩
      have := List.find?_eq_none.1 noneLeft id mem
      rw [← conflicts_iff] at clear
      simp [clear, notLeased] at this

/-- **What a lease does in a layout in good order**, where no leased
register is free: it is granted exactly when there is room. -/
theorem lease_eq {l : Layout} (ok : l.Ok) (c : RegisterClass) (avoid : List Location) :
    (¬ l.Room c avoid ∧ l.lease c avoid = .error (.layout (.noRegister c))) ∨
    ∃ id ∈ c.pool, id ∉ registersOf c avoid ∧ c.location id ∉ l.leased ∧
      ((id ∈ l.free c ∧ l.lease c avoid = .ok (⟨c.location id, none⟩,
          { l.setFree c ((l.free c).erase id) with leased := l.leased ++ [c.location id] })) ∨
       (id ∉ l.free c ∧ l.lease c avoid =
          .ok (⟨c.location id, some (l.allocate .global c.spillSize).1⟩,
            { (l.allocate .global c.spillSize).2 with
                leased := l.leased ++ [c.location id] }))) := by
  rcases l.lease_outcome c avoid with
    ⟨id, free, clear, grant⟩ | ⟨taken, ⟨id, mem, clear, notLeased, grant⟩ | refusal⟩
  · refine .inr ⟨id, ok.pooled c id free, clear, fun leased => ?_, .inl ⟨free, grant⟩⟩
    obtain ⟨d, i, -, same, notFree⟩ := ok.leased _ leased
    obtain ⟨rfl, rfl⟩ := RegisterClass.location_inj same
    exact notFree free
  · exact .inr ⟨id, mem, clear, notLeased, .inr ⟨fun free => clear (taken id free), grant⟩⟩
  · exact .inl refusal

end Layout

end Shading
