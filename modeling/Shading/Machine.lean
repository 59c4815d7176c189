import Shading.Block
import Shading.HostValue
import Shading.Instruction.Decode

/-!
# The machine: registers, memory and faults

The machine has eight general registers of 64 bits, eight SSE registers
of four words, four flags, and the memory of one block, which starts at
a base address. Its program is the bytes of that block. Return addresses
are kept beside memory, since no program reads them.

An access outside the block is a fault, and so is a packed access that
is not aligned, a division without a quotient, and an instruction that
cannot be read.
-/

namespace Shading

/-- **The flags that jumps consult.** -/
structure Flags where
  carry : Bool := false
  zero : Bool := false
  sign : Bool := false
  overflow : Bool := false
deriving DecidableEq

/-- **The registers of a machine.** -/
structure Registers where
  general : Vector UInt64 8 := Vector.replicate 8 0
  simd : Vector Lanes 8 := Vector.replicate 8 .zero
  flags : Flags := {}

/-- **Why a machine stops.** -/
inductive Fault where
  /-- So many bytes at an address are not in the block. -/
  | access (address : Nat) (count : Nat)
  /-- A packed access at an address that is no multiple of sixteen. -/
  | misaligned (address : Nat)
  /-- A division by zero, or one whose quotient does not fit. -/
  | division
  /-- No known instruction stands at an offset. -/
  | instruction (offset : Nat)
deriving DecidableEq

/-- **A machine** that runs the code of a block. -/
structure Machine where
  /-- The address of the first byte of the block. -/
  base : Nat
  block : Block
  /-- The offset of the next instruction. -/
  ip : Nat
  registers : Registers := {}
  /-- The offsets to return to, innermost first. -/
  stack : List Nat := []

namespace Machine

/-! ## Registers -/

/-- The content of a general register. -/
def general64 (m : Machine) (id : Nat) : UInt64 := m.registers.general[Fin.ofNat 8 id]

/-- The lower half of a general register. -/
def general32 (m : Machine) (id : Nat) : Word := (m.general64 id).toUInt32

/-- Replaces a general register. -/
def setGeneral64 (m : Machine) (id : Nat) (v : UInt64) : Machine :=
  { m with registers :=
      { m.registers with general := m.registers.general.set (Fin.ofNat 8 id) v } }

/-- Replaces the lower half of a general register, which clears the upper
one. -/
def setGeneral32 (m : Machine) (id : Nat) (v : Word) : Machine := m.setGeneral64 id v.toUInt64

/-- The content of an SSE register. -/
def simd (m : Machine) (id : Nat) : Lanes := m.registers.simd[Fin.ofNat 8 id]

/-- Replaces an SSE register. -/
def setSimd (m : Machine) (id : Nat) (v : Lanes) : Machine :=
  { m with registers := { m.registers with simd := m.registers.simd.set (Fin.ofNat 8 id) v } }

/-- Replaces the first lane of an SSE register. -/
def setScalar (m : Machine) (id : Nat) (v : Word) : Machine :=
  m.setSimd id { m.simd id with x := v }

/-- Replaces the flags. -/
def setFlags (m : Machine) (flags : Flags) : Machine :=
  { m with registers := { m.registers with flags } }

/-! ## Memory -/

/-- The number of addresses. -/
def addressCount : Nat := 2 ^ 64

/-- The address of a memory operand; `next` is the offset of the next
instruction. -/
def address? (m : Machine) (next : Nat) : Operand Nat → Option Nat
  | .register _ => none
  | .globalAt d => some (((m.base + next : Nat) + signedValue 32 d) % addressCount).toNat
  | .localAt d =>
    some (((m.general64 localBaseRegister).toNat + signedValue 32 d) % addressCount).toNat
  | .indirect id => some (m.general64 id).toNat

/-- The offset in the block of so many bytes at an address. -/
def offsetOf (m : Machine) (address count : Nat) : Except Fault Nat :=
  if m.base ≤ address ∧ address - m.base + count ≤ m.block.size then .ok (address - m.base)
  else .error (.access address count)

/-- Reads bytes. -/
def readBytes (m : Machine) (address count : Nat) : Except Fault (List UInt8) := do
  return m.block.getBytes (← m.offsetOf address count) count

/-- Writes bytes. -/
def writeBytes (m : Machine) (address : Nat) (bytes : List UInt8) : Except Fault Machine := do
  let offset ← m.offsetOf address bytes.length
  return { m with block := m.block.setBytes offset bytes }

/-! ## Operands -/

/-- A 32-bit operand among the general registers. -/
def read32 (m : Machine) (next : Nat) (rm : Operand Nat) : Except Fault Word :=
  match rm, m.address? next rm with
  | .register id, _ => .ok (m.general32 id)
  | _, some a => (m.readBytes a 4).map wordOfBytes
  | _, none => .ok 0

/-- Replaces a 32-bit operand among the general registers. -/
def write32 (m : Machine) (next : Nat) (rm : Operand Nat) (v : Word) : Except Fault Machine :=
  match rm, m.address? next rm with
  | .register id, _ => .ok (m.setGeneral32 id v)
  | _, some a => m.writeBytes a (bytesOfWord v)
  | _, none => .ok m

/-- A 64-bit operand among the general registers. -/
def read64 (m : Machine) (next : Nat) (rm : Operand Nat) : Except Fault UInt64 :=
  match rm, m.address? next rm with
  | .register id, _ => .ok (m.general64 id)
  | _, some a => (m.readBytes a 8).map (fun bs => UInt64.ofNat (ofLittleEndian bs))
  | _, none => .ok 0

/-- Replaces a 64-bit operand among the general registers. -/
def write64 (m : Machine) (next : Nat) (rm : Operand Nat) (v : UInt64) : Except Fault Machine :=
  match rm, m.address? next rm with
  | .register id, _ => .ok (m.setGeneral64 id v)
  | _, some a => m.writeBytes a (littleEndian 8 v.toNat)
  | _, none => .ok m

/-- A scalar operand among the SSE registers. -/
def readScalar (m : Machine) (next : Nat) (rm : Operand Nat) : Except Fault Word :=
  match rm, m.address? next rm with
  | .register id, _ => .ok (m.simd id).x
  | _, some a => (m.readBytes a 4).map wordOfBytes
  | _, none => .ok 0

/-- A packed operand among the SSE registers, of any alignment. -/
def readPacked (m : Machine) (next : Nat) (rm : Operand Nat) : Except Fault Lanes :=
  match rm, m.address? next rm with
  | .register id, _ => .ok (m.simd id)
  | _, some a => (m.readBytes a 16).map Lanes.ofBytes
  | _, none => .ok .zero

/-- A packed operand among the SSE registers, aligned if it is in
memory. -/
def readAligned (m : Machine) (next : Nat) (rm : Operand Nat) : Except Fault Lanes :=
  match m.address? next rm with
  | some a => if a % 16 = 0 then m.readPacked next rm else .error (.misaligned a)
  | none => m.readPacked next rm

end Machine

end Shading
