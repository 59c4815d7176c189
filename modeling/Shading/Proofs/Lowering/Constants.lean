import Mathlib.Data.List.Nodup
import Shading.Constant

/-!
# The pool of constants

A pool is kept in four tables: two maps from bits to offsets, the list of
constants in the order of their first use, and the names for listings. A
constant is looked up in the maps, but the data and the tables of an object
are made from the list, so they are right only as long as the tables agree
(`ConstantPool.Agrees`).

Each constant that joins a pool is new to it. `ConstantPool.Agrees.add` says
that the tables go on agreeing, and from that it comes that the maps find just
what the list has.
-/

namespace Shading

namespace Constant

/-- The bits of a single float. -/
def bits? : Constant → Option Word
  | float bits => some bits
  | vector _ => none

/-- The words of a vector. -/
def lanes? : Constant → Option Lanes
  | float _ => none
  | vector lanes => some lanes

end Constant

namespace ConstantPool

/-- The constants of a pool, in the order of their first use. -/
def keys (pool : ConstantPool) : List Constant := pool.slots.map Prod.fst

/-- **The tables of a pool agree.** The maps and the names have what the list
has, the last constant first. -/
structure Agrees (pool : ConstantPool) : Prop where
  floats : pool.floats = pool.floatConstants.reverse
  vectors : pool.vectors = pool.vectorConstants.reverse
  names : pool.names = (pool.slots.map fun c => (c.2, c.1.text)).reverse

variable {pool : ConstantPool} {c : Constant} {offset : Nat}

@[simp] theorem slots_add (pool : ConstantPool) (c : Constant) (offset : Nat) :
    (pool.add c offset).slots = pool.slots ++ [(c, offset)] := by
  cases c <;> rfl

@[simp] theorem keys_add (pool : ConstantPool) (c : Constant) (offset : Nat) :
    (pool.add c offset).keys = pool.keys ++ [c] := by
  simp [keys]

@[simp] theorem floatConstants_add (pool : ConstantPool) (c : Constant) (offset : Nat) :
    (pool.add c offset).floatConstants = pool.floatConstants ++ (c.bits?.map fun bits => (bits, offset)).toList := by
  cases c <;> simp [ConstantPool.add, floatConstants, Constant.bits?]

@[simp] theorem vectorConstants_add (pool : ConstantPool) (c : Constant) (offset : Nat) :
    (pool.add c offset).vectorConstants = pool.vectorConstants ++ (c.lanes?.map fun lanes => (lanes, offset)).toList := by
  cases c <;> simp [ConstantPool.add, vectorConstants, Constant.lanes?]

theorem agrees_empty : Agrees {} := ⟨rfl, rfl, rfl⟩

/-- **The tables agree on a constant that joins them.** -/
theorem Agrees.add (h : pool.Agrees) (c : Constant) (offset : Nat) : (pool.add c offset).Agrees := by
  refine ⟨?_, ?_, ?_⟩
  · rw [floatConstants_add]
    cases c <;> simp [ConstantPool.add, Constant.bits?, h.floats]
  · rw [vectorConstants_add]
    cases c <;> simp [ConstantPool.add, Constant.lanes?, h.vectors]
  · rw [slots_add]
    cases c <;> simp [ConstantPool.add, h.names]

theorem mem_floatConstants {bits : Word} : (bits, offset) ∈ pool.floatConstants ↔ (.float bits, offset) ∈ pool.slots := by
  refine List.mem_filterMap.trans ⟨?_, fun mem => ⟨_, mem, rfl⟩⟩
  rintro ⟨⟨c, o⟩, mem, eq⟩
  cases c <;> cases eq
  exact mem

theorem mem_vectorConstants {lanes : Lanes} :
    (lanes, offset) ∈ pool.vectorConstants ↔ (.vector lanes, offset) ∈ pool.slots := by
  refine List.mem_filterMap.trans ⟨?_, fun mem => ⟨_, mem, rfl⟩⟩
  rintro ⟨⟨c, o⟩, mem, eq⟩
  cases c <;> cases eq
  exact mem

theorem floatConstants_eq (pool : ConstantPool) :
    pool.floatConstants.map Prod.fst = pool.keys.filterMap Constant.bits? := by
  rw [floatConstants, keys, List.map_filterMap, List.filterMap_map]
  refine congrArg (List.filterMap · _) (funext fun c => ?_)
  obtain ⟨c, offset⟩ := c
  cases c <;> rfl

theorem vectorConstants_eq (pool : ConstantPool) :
    pool.vectorConstants.map Prod.fst = pool.keys.filterMap Constant.lanes? := by
  rw [vectorConstants, keys, List.map_filterMap, List.filterMap_map]
  refine congrArg (List.filterMap · _) (funext fun c => ?_)
  obtain ⟨c, offset⟩ := c
  cases c <;> rfl

/-- A key that is looked up in vain is none of the keys. -/
theorem notMem_of_lookup {α β : Type} [BEq α] [LawfulBEq α] {xs : List (α × β)} {k : α} (absent : xs.lookup k = none)
    (x : β) : (k, x) ∉ xs := by
  intro mem
  exact absurd (List.lookup_eq_none_iff.1 absent _ mem) (by simp)

/-- What is looked up in a list of pairs is in it. -/
theorem mem_of_lookup {α β : Type} [BEq α] [LawfulBEq α] {xs : List (α × β)} {k : α} {x : β}
    (found : xs.lookup k = some x) : (k, x) ∈ xs := by
  obtain ⟨front, back, rfl, -⟩ := List.lookup_eq_some_iff.1 found
  simp

/-- **What a map finds** is in the list. -/
theorem Agrees.mem (h : pool.Agrees) (found : pool.offset? c = some offset) : (c, offset) ∈ pool.slots := by
  cases c with
  | float bits =>
    have mem := mem_of_lookup (show pool.floats.lookup bits = some offset from found)
    rwa [h.floats, List.mem_reverse, mem_floatConstants] at mem
  | vector lanes =>
    have mem := mem_of_lookup (show pool.vectors.lookup lanes = some offset from found)
    rwa [h.vectors, List.mem_reverse, mem_vectorConstants] at mem

/-- **What no map finds** is new to the list. -/
theorem Agrees.notMem (h : pool.Agrees) (absent : pool.offset? c = none) : c ∉ pool.keys := by
  intro mem
  obtain ⟨⟨c, offset⟩, mem, rfl⟩ := List.mem_map.1 mem
  cases c with
  | float bits =>
    refine notMem_of_lookup (show pool.floats.lookup bits = none from absent) offset ?_
    rwa [h.floats, List.mem_reverse, mem_floatConstants]
  | vector lanes =>
    refine notMem_of_lookup (show pool.vectors.lookup lanes = none from absent) offset ?_
    rwa [h.vectors, List.mem_reverse, mem_vectorConstants]

theorem Agrees.notMem_floats (h : pool.Agrees) {bits : Word} (absent : pool.offset? (.float bits) = none) :
    bits ∉ pool.floatConstants.map Prod.fst := by
  rw [floatConstants_eq]
  intro mem
  obtain ⟨c, hc, eq⟩ := List.mem_filterMap.1 mem
  cases c <;> cases eq
  exact h.notMem absent hc

theorem Agrees.notMem_vectors (h : pool.Agrees) {lanes : Lanes} (absent : pool.offset? (.vector lanes) = none) :
    lanes ∉ pool.vectorConstants.map Prod.fst := by
  rw [vectorConstants_eq]
  intro mem
  obtain ⟨c, hc, eq⟩ := List.mem_filterMap.1 mem
  cases c <;> cases eq
  exact h.notMem absent hc

/-- A constant that is in the list once is found where the list has it. -/
theorem Agrees.offset?_eq (h : pool.Agrees) (nodup : pool.keys.Nodup) (mem : (c, offset) ∈ pool.slots) :
    pool.offset? c = some offset := by
  cases found : pool.offset? c with
  | none => exact absurd (List.mem_map_of_mem mem) (h.notMem found)
  | some o =>
    have same := List.inj_on_of_nodup_map nodup (h.mem found) mem rfl
    cases same
    rfl

/-- A lookup stays as it is when another constant joins the pool. -/
theorem offset?_add {c' : Constant} {o : Nat} (found : pool.offset? c = some offset) (absent : pool.offset? c' = none) :
    (pool.add c' o).offset? c = some offset := by
  have apart {α β : Type} [BEq α] [LawfulBEq α] {xs : List (α × β)} {k k' : α} {x y : β}
      (found : xs.lookup k = some x) (absent : xs.lookup k' = none) : ((k', y) :: xs).lookup k = some x := by
    have other : (k == k') = false := beq_eq_false_iff_ne.2 fun same => by
      rw [same, absent] at found
      cases found
    rw [List.lookup_cons, other]
    exact found
  cases c <;> cases c' <;> first | exact apart found absent | exact found

/-- A constant is found where it has joined the pool. -/
theorem offset?_add_self (pool : ConstantPool) (c : Constant) (offset : Nat) :
    (pool.add c offset).offset? c = some offset := by
  cases c <;> simp [ConstantPool.add, offset?]

end ConstantPool

end Shading
