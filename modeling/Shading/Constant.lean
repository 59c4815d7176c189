import Shading.Binary32.Shortest
import Shading.HostValue

/-!
# Pooled constants

Floats and masks that code needs are kept in global memory, each bit
pattern once: before a constant is given an offset, its bits are looked up
in a map. The pool also lists the constants in the order of their first
use, which is the order of the data.
-/

namespace Shading

/-- **A constant in global memory.** -/
inductive Constant where
  /-- A single float, by its pattern. -/
  | float (bits : Word)
  /-- Four words. -/
  | vector (lanes : Lanes)
deriving DecidableEq

namespace Constant

/-- Bytes of storage. -/
def size : Constant → Nat
  | float _ => 4
  | vector _ => 16

/-- The bytes of a constant. -/
def bytes : Constant → List UInt8
  | float bits => bytesOfWord bits
  | vector lanes => lanes.bytes

theorem length_bytes (c : Constant) : c.bytes.length = c.size := by
  cases c <;> simp [bytes, size, Lanes.bytes, Lanes.toList, bytesOfWord, wordBytes]

/-- A constant as a listing names it. -/
def text : Constant → String
  | float bits => "[" ++ Binary32.text Binary32.listingRange bits ++ "f]"
  | vector l =>
    let word (w : Word) : String := String.ofList (Text.hexDigits 8 w.toNat)
    "[" ++ word l.x ++ ":" ++ word l.y ++ ":" ++ word l.z ++ ":" ++ word l.w ++ "]"

end Constant

/-- **The constants of a program**: two maps from bits to offsets, in
which a constant is looked up, the constants in the order of their first
use, and what a listing calls each. -/
structure ConstantPool where
  /-- The offset of each single float, by its pattern. -/
  floats : List (Word × Nat) := []
  /-- The offset of each vector. -/
  vectors : List (Lanes × Nat) := []
  /-- The constants with their offsets, in the order of their first use. -/
  slots : List (Constant × Nat) := []
  /-- The text for the constant at an offset. -/
  names : List (Nat × String) := []

namespace ConstantPool

/-- The offset of a constant. -/
def offset? (p : ConstantPool) : Constant → Option Nat
  | .float bits => p.floats.lookup bits
  | .vector lanes => p.vectors.lookup lanes

/-- What a listing calls the constant at an offset. -/
def name? (p : ConstantPool) (offset : Nat) : Option String := p.names.lookup offset

/-- Adds a constant at an offset. -/
def add (p : ConstantPool) (c : Constant) (offset : Nat) : ConstantPool :=
  let p := { p with slots := p.slots ++ [(c, offset)], names := (offset, c.text) :: p.names }
  match c with
  | .float bits => { p with floats := (bits, offset) :: p.floats }
  | .vector lanes => { p with vectors := (lanes, offset) :: p.vectors }

/-- The single floats with their offsets, in the order of their first
use. -/
def floatConstants (p : ConstantPool) : List (Word × Nat) :=
  p.slots.filterMap (fun s => match s.1 with | .float bits => some (bits, s.2) | _ => none)

/-- The vectors with their offsets, in the order of their first use. -/
def vectorConstants (p : ConstantPool) : List (Lanes × Nat) :=
  p.slots.filterMap (fun s => match s.1 with | .vector lanes => some (lanes, s.2) | _ => none)

end ConstantPool

end Shading
