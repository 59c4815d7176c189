import Shading.Error

/-!
# Storage layout

Two bump allocators hand out global and local memory, and two pools hold
the general and the SSE registers.

| region | what it holds, in the order it is handed out                       |
|--------|--------------------------------------------------------------------|
| global | globals, then constants, staging, spill and division slots mixed   |
| local  | parameters and locals of one function, then temporaries as a stack |

A `TemporaryScope` collects the registers placed while it is the place
to put temporaries, and closing it gives them back and rolls the local
region back to where it was. A `Lease` holds a scratch register for one
sequence of instructions. When no register is free the lease *borrows*
one that holds a value, and carries the slot in which that value has to
be saved meanwhile.
-/

namespace Shading

/-- **The registers of a class that hold values**, in the order they are
taken. -/
def RegisterClass.pool : RegisterClass → List Nat
  | general => [0, 1, 2, 7]
  | simd => [0, 1, 2, 3, 4, 5, 6, 7]

/-- **The two memory regions.** -/
inductive Region where
  /-- Memory of the object as a whole. -/
  | global
  /-- Memory of one invocation. -/
  | local
deriving DecidableEq

/-- The least number from `value` on whose low bits, those of
`alignment - 1`, are clear. For a power of two that is the next
multiple. -/
def alignUp (value alignment : Nat) : Nat :=
  let top := value + alignment - 1
  top - (top &&& (alignment - 1))

/-- **An allocator that only grows**, with the highest top it ever
had. -/
structure BumpAllocator where
  top : Nat := 0
  highWater : Nat := 0
deriving DecidableEq

namespace BumpAllocator

/-- The alignment of a slot: four bytes for a scalar and sixteen for
anything as wide as a vector. -/
def alignmentOf (size : Nat) : Nat := max 4 (min size 16)

/-- **The next slot of a size**, and the allocator behind it. -/
def allocate (a : BumpAllocator) (size : Nat) : Nat × BumpAllocator :=
  let offset := alignUp a.top (alignmentOf size)
  (offset, ⟨offset + size, max a.highWater (offset + size)⟩)

end BumpAllocator

/-- **The storage that is taken and free** at one moment of a
compilation. -/
structure Layout where
  globalRegion : BumpAllocator := {}
  localRegion : BumpAllocator := {}
  /-- Free general registers, lowest first. -/
  freeGeneral : List Nat := RegisterClass.general.pool
  /-- Free SSE registers, lowest first. -/
  freeSimd : List Nat := RegisterClass.simd.pool
  /-- The registers under a lease, in the order they were leased. -/
  leased : List Location := []
deriving DecidableEq

/-- **Placements that last until the scope closes.** -/
structure TemporaryScope where
  /-- The top of the local region when the scope opened. -/
  mark : Nat
  /-- The registers placed in the scope. -/
  registers : List Location := []
deriving DecidableEq

/-- **A scratch register held for one sequence of instructions.** -/
structure Lease where
  location : Location
  /-- Where the content of a borrowed register is saved. A register that
  was free needs no such slot. -/
  spill : Option Location
deriving DecidableEq

/-- The number of the leased register. -/
def Lease.id (l : Lease) : Nat := (l.location.registerOf?.map Prod.snd).getD 0

/-- Whether the register came from the free ones and goes back to
them. -/
def Lease.isPooled (l : Lease) : Bool := l.spill.isNone

/-- Puts a number in its place among ascending numbers, once. -/
def insertAscending (n : Nat) : List Nat → List Nat
  | [] => [n]
  | m :: ms => if n < m then n :: m :: ms else if n = m then m :: ms else m :: insertAscending n ms

namespace Layout

/-- The bytes of global memory handed out so far. -/
def globalSize (l : Layout) : Nat := l.globalRegion.highWater

/-- The deepest use of local memory so far. -/
def localSize (l : Layout) : Nat := l.localRegion.highWater

/-- The free registers of a class. -/
def free (l : Layout) : RegisterClass → List Nat
  | .general => l.freeGeneral
  | .simd => l.freeSimd

/-- Replaces the free registers of a class. -/
def setFree (l : Layout) (c : RegisterClass) (ids : List Nat) : Layout :=
  match c with
  | .general => { l with freeGeneral := ids }
  | .simd => { l with freeSimd := ids }

/-- Takes the first free register of a class. -/
def takeRegister? (l : Layout) (c : RegisterClass) : Option (Location × Layout) :=
  match l.free c with
  | [] => none
  | id :: ids => some (c.location id, l.setFree c ids)

/-- Makes the register of a location free. -/
def giveBack (l : Layout) (location : Location) : Layout :=
  match location.registerOf? with
  | some (c, id) => l.setFree c (insertAscending id (l.free c))
  | none => l

/-! ## Memory -/

/-- **The next slot of a size** in a region. -/
def allocate (l : Layout) (r : Region) (size : Nat) : Location × Layout :=
  match r with
  | .global =>
    let (offset, globalRegion) := l.globalRegion.allocate size
    (.globalMemory offset, { l with globalRegion })
  | .local =>
    let (offset, localRegion) := l.localRegion.allocate size
    (.localMemory offset, { l with localRegion })

/-- Places a value of a type in memory. -/
def placeInMemory (l : Layout) (ty : Ty) (r : Region) : Except Error (Location × Layout) :=
  if ty.size = 0 then .error (.layout (.noStorage ty)) else .ok (l.allocate r ty.size)

/-- **Places a value of a type** in a register of its class if one is
free, and else in memory. Matrices always go to memory. -/
def place (l : Layout) (ty : Ty) (r : Region) : Except Error (Location × Layout) :=
  if ty.size = 0 then .error (.layout (.noStorage ty))
  else
    match (RegisterClass.ofTy? ty).bind l.takeRegister? with
    | some placed => .ok placed
    | none => .ok (l.allocate r ty.size)

/-! ## Scopes -/

/-- A scope that opens now. -/
def openScope (l : Layout) : TemporaryScope := ⟨l.localRegion.top, []⟩

/-- Places a temporary in a scope. -/
def placeIn (l : Layout) (s : TemporaryScope) (ty : Ty) :
    Except Error (Location × TemporaryScope × Layout) := do
  let (location, l) ← l.place ty .local
  if location.registerOf?.isSome then
    return (location, { s with registers := s.registers ++ [location] }, l)
  else return (location, s, l)

/-- **Closes a scope**: its registers are free again and the local region
goes back to where it was. -/
def closeScope (l : Layout) (s : TemporaryScope) : Layout :=
  let l := s.registers.foldl giveBack l
  { l with localRegion := { l.localRegion with top := s.mark } }

/-! ## Leases -/

/-- Whether a register is named by one of the locations to avoid. -/
def conflicts (avoid : List Location) (c : RegisterClass) (id : Nat) : Bool :=
  avoid.any (fun location => location.occupies c id)

/-- **Leases a scratch register** that none of the locations to avoid
names: the first free one, else the first of its pool that no lease
holds, which is borrowed. -/
def lease (l : Layout) (c : RegisterClass) (avoid : List Location) :
    Except Error (Lease × Layout) :=
  match (l.free c).find? (fun id => !conflicts avoid c id) with
  | some id =>
    let l := l.setFree c ((l.free c).erase id)
    .ok (⟨c.location id, none⟩, { l with leased := l.leased ++ [c.location id] })
  | none =>
    match c.pool.find? (fun id => !conflicts avoid c id && !l.leased.contains (c.location id)) with
    | some id =>
      let (slot, l) := l.allocate .global c.spillSize
      .ok (⟨c.location id, some slot⟩, { l with leased := l.leased ++ [c.location id] })
    | none => .error (.layout (.noRegister c))

/-- **Ends a lease.** A register that was free is free again. -/
def release (l : Layout) (lease : Lease) : Layout :=
  let l := { l with leased := l.leased.erase lease.location }
  if lease.isPooled then l.giveBack lease.location else l

end Layout

end Shading
