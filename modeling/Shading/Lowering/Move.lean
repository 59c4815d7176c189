import Shading.Lowering

/-!
# Moving values

A scratch register is leased for a sequence of instructions. If it is
borrowed, its content is saved when the lease starts and reloaded when
it ends. `transfer` moves a value as it is, `store` converts between
`int` and `float` on the way, and lanes of registers are read and
written through masks.
-/

namespace Shading

/-- **How a value is moved.** -/
inductive Width where
  /-- As a 32-bit integer. -/
  | dword
  /-- As one float. -/
  | single
  /-- As four floats. -/
  | packed
deriving DecidableEq

namespace Width

/-- How values of a type are moved. -/
def ofTy : Ty → Width
  | .int | .bool => dword
  | .float => single
  | _ => packed

/-- The opcode that loads a register. -/
def load : Width → Opcode
  | dword => .movLoad
  | single => .movssLoad
  | packed => .movupsLoad

/-- The opcode that stores a register. -/
def store : Width → Opcode
  | dword => .movStore
  | single => .movssStore
  | packed => .movupsStore

/-- The registers that hold the values. -/
def registerClass : Width → RegisterClass
  | dword => .general
  | single | packed => .simd

end Width

/-- **A register that was spilled to be indexed**, to be loaded again
after the element is written. -/
structure WriteBack where
  register : Location
  spill : Location
deriving DecidableEq

/-- **The result of evaluating an expression**: where it is and of which
type. -/
structure Value where
  location : Location
  ty : Ty
  /-- The register that holds the address of the location, if that was
  computed. -/
  lease : Option Lease := none
  writeBack : Option WriteBack := none

/-- The mask of the sign bits. -/
def signMask : Lanes := .splat 0x80000000

/-- The mask of the lanes of a `vec3`. -/
def xyzMask : Lanes := ⟨0xFFFFFFFF, 0xFFFFFFFF, 0xFFFFFFFF, 0⟩

/-- The mask of the first lane. -/
def lane0Mask : Lanes := ⟨0xFFFFFFFF, 0, 0, 0⟩

/-- The mask of all lanes but one. -/
def clearMask (lane : Nat) : Lanes :=
  let word (i : Nat) : Word := if i = lane % 4 then 0 else 0xFFFFFFFF
  ⟨word 0, word 1, word 2, word 3⟩

namespace Lower

/-! ## Scratch registers -/

/-- The width that saves a whole register of a class. -/
def spillWidth : RegisterClass → Width
  | .general => .dword
  | .simd => .packed

/-- **Leases a scratch register**, and saves what a borrowed one
holds. -/
def acquire (c : RegisterClass) (avoid : List Location) : Lower Lease := do
  let (lease, layout) ← (← get).layout.lease c avoid
  modify fun s => { s with layout }
  record (.leased lease avoid)
  match lease.spill with
  | some slot => emitStore (spillWidth c).store slot lease.location
  | none => pure ()
  return lease

/-- **Ends a lease**, and reloads what a borrowed register held. -/
def release (lease : Lease) : Lower Unit := do
  match lease.spill with
  | some slot =>
    let c := (lease.location.registerOf?.map Prod.fst).getD .simd
    emit (spillWidth c).load lease.location slot
  | none => pure ()
  modify fun s => { s with layout := s.layout.release lease }
  record (.released lease)

/-- Ends a lease if there is one. -/
def releaseOption : Option Lease → Lower Unit
  | some lease => release lease
  | none => pure ()

/-- Gives up a value, and with it the register that holds its
address. -/
def finish (v : Value) : Lower Unit := releaseOption v.lease

/-! ## Whole values -/

/-- **Moves a value between any two locations** of one class, through a
scratch register if both are in memory. -/
def transfer (w : Width) (dest src : Location) : Lower Unit := do
  if dest = src then return ()
  else if dest.isRegister then emit w.load dest src
  else if src.isRegister then emitStore w.store dest src
  else
    let scratch ← acquire w.registerClass [dest, src]
    emit w.load scratch.location src
    emitStore w.store dest scratch.location
    release scratch

/-- The register to compute a result in: that of the result if it is one
of the class, and a leased one otherwise. -/
def accumulator (out : Location) (c : RegisterClass) (avoid : List Location) :
    Lower (Location × Option Lease) := do
  if out.isRegister && out.registerOf?.map Prod.fst == some c then return (out, none)
  else
    let lease ← acquire c avoid
    return (lease.location, some lease)

/-- Moves a result from a leased accumulator to its place. -/
def settle (out acc : Location) (lease : Option Lease) (w : Width) : Lower Unit := do
  match lease with
  | some lease =>
    transfer w out acc
    release lease
  | none => pure ()

/-- Performs an action for each row number below a bound, in order. -/
def forRows (rows : Nat) (action : Nat → Lower Unit) : Lower Unit :=
  (List.range rows).forM action

/-- Moves so many rows of 16 bytes. -/
def transferRows (rows : Nat) (dest src : Location) : Lower Unit :=
  forRows rows fun row => transfer .packed (dest.offsetBy (16 * row)) (src.offsetBy (16 * row))

/-- Stores a value in a place that is no lane. -/
def storeWhole (dest : Location) (ty : Ty) (v : Value) : Lower Unit := do
  match ty, v.ty with
  | .float, .int =>
    let (acc, lease) ← accumulator dest .simd [dest, v.location]
    emit .cvtsi2ss acc v.location
    settle dest acc lease .single
  | .int, .float =>
    let (acc, lease) ← accumulator dest .general [dest, v.location]
    emit .cvttss2si acc v.location
    settle dest acc lease .dword
  | _, _ =>
    if ty.isMatrix then transferRows ty.elementCount dest v.location
    else transfer (.ofTy ty) dest v.location

/-! ## Lanes -/

/-- Writes a value into one lane of a register: the value is shifted to
the lane with nothing beside it, and joined to the register without that
lane. -/
def writeLane (simd shift : Nat) (v : Value) : Lower Unit := do
  let scratch ← acquire .simd [.registerLane simd shift, v.location]
  storeWhole scratch.location .float v
  emit .andps scratch.location (← constant (.vector lane0Mask))
  if 0 < shift then emitUnary .pslldq scratch.location [UInt8.ofNat shift]
  emit .andps (.simdRegister simd) (← constant (.vector (clearMask (shift / 4))))
  emit .orps (.simdRegister simd) scratch.location
  release scratch

/-- **Stores a value in a place of a type**, converting between `int` and
`float`. -/
def store (dest : Location) (ty : Ty) (v : Value) : Lower Unit :=
  match dest with
  | .registerLane simd shift => writeLane simd shift v
  | _ => storeWhole dest ty v

/-- **Copies a lane of a register into a scalar place** of a scope. Any
other value is left where it is. -/
def materializeIn (scope : ScopeId) (v : Value) : Lower Value := do
  match v.location with
  | .registerLane simd shift =>
    let out ← placeIn scope .float
    let (acc, lease) ← accumulator out .simd [out, v.location]
    emit .movupsLoad acc (.simdRegister simd)
    if 0 < shift then emitUnary .psrldq acc [UInt8.ofNat shift]
    emit .andps acc (← constant (.vector lane0Mask))
    settle out acc lease .single
    finish v
    return { location := out, ty := .float }
  | _ => return v

/-- The operand of a float instruction: a float where it is, and an
integer converted in a leased register. -/
def floatOperand (v : Value) (avoid : List Location) : Lower (Location × Option Lease) := do
  if v.ty = .float then return (v.location, none)
  else
    let scratch ← acquire .simd avoid
    emit .cvtsi2ss scratch.location v.location
    return (scratch.location, some scratch)

end Lower

end Shading
