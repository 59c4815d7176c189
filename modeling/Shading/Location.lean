import Shading.Ty
import Shading.Text.Number

/-!
# Where a value lives

A value is in memory, in a register, or in one lane of an SSE register.
Memory is named by an offset into the global region, by an offset from
the base of the local region, or by a general register that holds its
address.
-/

namespace Shading

/-- **The two register pools.** -/
inductive RegisterClass where
  /-- Registers for integers, booleans and addresses. -/
  | general
  /-- SSE registers, for floats and vectors. -/
  | simd
deriving DecidableEq

namespace RegisterClass

/-- The name a message calls the class by. -/
def name : RegisterClass → String
  | general => "General"
  | simd => "Simd"

/-- The class that holds a value of a type. Matrices and types without
values are held by neither. -/
def ofTy? : Ty → Option RegisterClass
  | .int | .bool => some general
  | .float | .vec3 | .vec4 => some simd
  | _ => none

/-- Bytes that saving a register of the class takes. -/
def spillSize : RegisterClass → Nat
  | general => 4
  | simd => 16

end RegisterClass

/-- **A place for a value.** -/
inductive Location where
  /-- No place yet. -/
  | none
  /-- An offset into the global region of the object. -/
  | globalMemory (offset : Nat)
  /-- An offset from the base of the local region. -/
  | localMemory (offset : Nat)
  /-- A general register. -/
  | register (id : Nat)
  /-- An SSE register. -/
  | simdRegister (id : Nat)
  /-- Memory whose address a general register holds. -/
  | indirectRegister (id : Nat)
  /-- One lane of an SSE register, so many bytes up from its lowest. -/
  | registerLane (simd shift : Nat)
deriving DecidableEq

namespace Location

/-- The location as messages write it. -/
def text : Location → String
  | none => "None"
  | globalMemory offset => "GlobalMemory(" ++ Text.ofNat offset ++ ")"
  | localMemory offset => "LocalMemory(" ++ Text.ofNat offset ++ ")"
  | register id => "Register(" ++ Text.ofNat id ++ ")"
  | simdRegister id => "SimdRegister(" ++ Text.ofNat id ++ ")"
  | indirectRegister id => "IndirectRegister(" ++ Text.ofNat id ++ ")"
  | registerLane simd shift =>
    "RegisterLane \x7b simd: " ++ Text.ofNat simd ++ ", shift: " ++ Text.ofNat shift ++ " \x7d"

/-- A global, local or indirect operand. -/
def isInMemory : Location → Bool
  | globalMemory _ | localMemory _ | indirectRegister _ => true
  | _ => false

/-- Whether a place has been found. -/
def isPlaced (l : Location) : Bool := l != none

/-- The offset of a global. -/
def globalOffset? : Location → Option Nat
  | globalMemory offset => some offset
  | _ => Option.none

/-- A whole register that holds the value itself. -/
def isRegister : Location → Bool
  | register _ | simdRegister _ => true
  | _ => false

/-- The location so many bytes further on. Only memory at a known offset
moves. -/
def offsetBy (bytes : Nat) : Location → Location
  | globalMemory offset => globalMemory (offset + bytes)
  | localMemory offset => localMemory (offset + bytes)
  | l => l

/-- The register a location occupies, for its value or for its
address. -/
def registerOf? : Location → Option (RegisterClass × Nat)
  | register id | indirectRegister id => some (.general, id)
  | simdRegister id | registerLane id _ => some (.simd, id)
  | _ => Option.none

/-- Whether a location occupies a given register. -/
def occupies (l : Location) (c : RegisterClass) (id : Nat) : Bool :=
  l.registerOf? == some (c, id)

end Location

/-- The whole register of a class as a location. -/
def RegisterClass.location : RegisterClass → Nat → Location
  | general, id => .register id
  | simd, id => .simdRegister id

@[simp] theorem RegisterClass.registerOf?_location (c : RegisterClass) (id : Nat) :
    (c.location id).registerOf? = some (c, id) := by
  cases c <;> rfl

end Shading
