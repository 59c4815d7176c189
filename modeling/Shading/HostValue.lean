import Shading.Binary32
import Shading.Bytes
import Shading.Ty

/-!
# Values of the host

The host and a shader exchange values through the bytes of globals. A
host type goes with certain types of the language, and its values have
little-endian bytes of the size of those types. Vectors and matrix rows
have four lanes, a `vec3` an unused one.
-/

namespace Shading

/-- **Four words**: the content of an SSE register, a vector, or a row of
a matrix. Lane `x` stands first in memory. -/
structure Lanes where
  x : Word
  y : Word
  z : Word
  w : Word
deriving DecidableEq

namespace Lanes

/-- Four times zero. -/
def zero : Lanes := ⟨0, 0, 0, 0⟩

/-- Four times one word. -/
def splat (v : Word) : Lanes := ⟨v, v, v, v⟩

/-- The lanes in order. -/
def toList (l : Lanes) : List Word := [l.x, l.y, l.z, l.w]

/-- The lane with a number. -/
def get (l : Lanes) (i : Nat) : Word := l.toList.getD i 0

/-- Applies an operation lane by lane. -/
def map2 (f : Word → Word → Word) (a b : Lanes) : Lanes :=
  ⟨f a.x b.x, f a.y b.y, f a.z b.z, f a.w b.w⟩

/-- Applies a function to each lane. -/
def map (f : Word → Word) (a : Lanes) : Lanes := ⟨f a.x, f a.y, f a.z, f a.w⟩

end Lanes

/-- The word that four bytes write. -/
def wordOfBytes (bytes : List UInt8) : Word := UInt32.ofNat (ofLittleEndian (bytes.take 4))

/-- The bytes of a word. -/
def bytesOfWord (w : Word) : List UInt8 := wordBytes w.toNat

theorem length_bytesOfWord (w : Word) : (bytesOfWord w).length = 4 :=
  length_littleEndian 4 w.toNat

theorem wordOfBytes_bytesOfWord (w : Word) (rest : List UInt8) :
    wordOfBytes (bytesOfWord w ++ rest) = w := by
  have front : (bytesOfWord w ++ rest).take 4 = bytesOfWord w :=
    List.take_left' (length_bytesOfWord w)
  rw [wordOfBytes, front, bytesOfWord, wordBytes, ofLittleEndian_littleEndian,
    Nat.mod_eq_of_lt (by have := w.toNat_lt; omega)]
  simp

/-- The bytes of four words. -/
def Lanes.bytes (l : Lanes) : List UInt8 := l.toList.flatMap bytesOfWord

/-- The four words that sixteen bytes write. -/
def Lanes.ofBytes (bytes : List UInt8) : Lanes :=
  ⟨wordOfBytes bytes, wordOfBytes (bytes.drop 4), wordOfBytes (bytes.drop 8),
    wordOfBytes (bytes.drop 12)⟩

namespace Lanes

theorem length_bytes (l : Lanes) : l.bytes.length = 16 := by
  simp [bytes, toList, length_bytesOfWord]

theorem ofBytes_bytes (l : Lanes) (rest : List UInt8) : ofBytes (l.bytes ++ rest) = l := by
  have skip (w : Word) (n : Nat) (bs : List UInt8) :
      (bytesOfWord w ++ bs).drop (4 + n) = bs.drop n := by
    rw [← length_bytesOfWord w, List.drop_length_add_append]
  simp only [bytes, toList, List.flatMap_cons, List.flatMap_nil, List.append_nil,
    List.append_assoc, ofBytes, skip _ 0, skip _ 4, skip _ 8, List.drop_zero,
    wordOfBytes_bytesOfWord]

/-- Behind one row stand the rows that follow it. -/
theorem drop_bytes (l : Lanes) (i : Nat) (rest : List UInt8) :
    (l.bytes ++ rest).drop (16 * (i + 1)) = rest.drop (16 * i) := by
  have : 16 * (i + 1) = l.bytes.length + 16 * i := by rw [length_bytes]; omega
  rw [this, List.drop_length_add_append]

end Lanes

/-- **The types of host values.** -/
inductive HostType where
  | int
  | bool
  | float
  | vec4
  | mat3
  | mat4
deriving DecidableEq

namespace HostType

/-- The name a message calls the type by. -/
def name : HostType → String
  | int => "i32"
  | bool => "bool"
  | float => "f32"
  | vec4 => "[f32; 4]"
  | mat3 => "[[f32; 4]; 3]"
  | mat4 => "[[f32; 4]; 4]"

/-- Whether values of the type go into a global of a given type. -/
def accepts : HostType → Ty → Bool
  | int, t => t == .int
  | bool, t => t == .bool
  | float, t => t == .float
  | vec4, t => t == .vec3 || t == .vec4
  | mat3, t => t == .mat3x3
  | mat4, t => t == .mat4x4

/-- The number of bytes of a value. -/
def size : HostType → Nat
  | int | bool | float => 4
  | vec4 => 16
  | mat3 => 48
  | mat4 => 64

/-- **A type is accepted only by a type of its size.** -/
theorem size_eq_of_accepts {h : HostType} {t : Ty} (a : h.accepts t = true) :
    h.size = t.size := by
  cases h <;> cases t <;> simp_all [accepts, size, Ty.size]

end HostType

/-- **A value of the host.** -/
inductive HostValue where
  | int (w : Word)
  | bool (b : Bool)
  | float (w : Word)
  | vec4 (v : Lanes)
  | mat3 (a b c : Lanes)
  | mat4 (a b c d : Lanes)
deriving DecidableEq

namespace HostValue

/-- The type of a value. -/
def type : HostValue → HostType
  | int _ => .int
  | bool _ => .bool
  | float _ => .float
  | vec4 _ => .vec4
  | mat3 _ _ _ => .mat3
  | mat4 _ _ _ _ => .mat4

/-- **The bytes of a value.** A truth value is a word that is one or
zero. -/
def bytes : HostValue → List UInt8
  | int w | float w => bytesOfWord w
  | bool b => bytesOfWord (if b then 1 else 0)
  | vec4 v => v.bytes
  | mat3 a b c => a.bytes ++ b.bytes ++ c.bytes
  | mat4 a b c d => a.bytes ++ b.bytes ++ c.bytes ++ d.bytes

/-- **The value of a type that bytes write**, if there are as many as the
type has. Any word but zero is true. -/
def ofBytes? (t : HostType) (bytes : List UInt8) : Option HostValue :=
  if bytes.length ≠ t.size then none
  else
    let row (i : Nat) : Lanes := .ofBytes (bytes.drop (16 * i))
    some (match t with
      | .int => int (wordOfBytes bytes)
      | .bool => bool (wordOfBytes bytes != 0)
      | .float => float (wordOfBytes bytes)
      | .vec4 => vec4 (row 0)
      | .mat3 => mat3 (row 0) (row 1) (row 2)
      | .mat4 => mat4 (row 0) (row 1) (row 2) (row 3))

theorem length_bytes (v : HostValue) : v.bytes.length = v.type.size := by
  cases v <;> simp [type, bytes, HostType.size, Lanes.length_bytes, length_bytesOfWord]

/-- **The bytes of a value read back as the value.** -/
theorem ofBytes?_bytes (v : HostValue) : ofBytes? v.type v.bytes = some v := by
  have word (w : Word) : wordOfBytes (bytesOfWord w) = w := by
    simpa using wordOfBytes_bytesOfWord w []
  have lanes (l : Lanes) : Lanes.ofBytes l.bytes = l := by
    simpa using Lanes.ofBytes_bytes l []
  rw [ofBytes?, if_neg (by simp [length_bytes])]
  cases v with
  | int w => simp only [type, bytes, word]
  | bool b => cases b <;> decide
  | float w => simp only [type, bytes, word]
  | vec4 v => simp only [type, bytes, Nat.mul_zero, List.drop_zero, lanes]
  | mat3 a b c =>
    simp only [type, bytes, List.append_assoc, Nat.mul_zero, List.drop_zero,
      Lanes.ofBytes_bytes, Lanes.drop_bytes a 0, Lanes.drop_bytes a 1, Lanes.drop_bytes b 0,
      lanes]
  | mat4 a b c d =>
    simp only [type, bytes, List.append_assoc, Nat.mul_zero, List.drop_zero,
      Lanes.ofBytes_bytes, Lanes.drop_bytes a 0, Lanes.drop_bytes a 1, Lanes.drop_bytes a 2,
      Lanes.drop_bytes b 0, Lanes.drop_bytes b 1, Lanes.drop_bytes c 0, lanes]

end HostValue

end Shading
