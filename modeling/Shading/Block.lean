import Shading.Error
import Shading.Bytes

/-!
# Memory blocks

A block is a whole number of pages of bytes, all zero when it is made.
Every access is checked against its end. Only the bytes up to the last
one written are stored; the rest are zero.
-/

namespace Shading

/-- The bytes of a page. -/
def pageSize : Nat := 4096

/-- **A block of memory.** -/
structure Block where
  /-- The number of bytes. -/
  size : Nat
  /-- The bytes from the start on, up to the last one written. -/
  stored : Array UInt8 := #[]

namespace Block

/-- **A zeroed block** with room for at least so many bytes, and of at
least one page. -/
def new (size : Nat) : Block :=
  { size := (max size 1 + (pageSize - 1)) / pageSize * pageSize }

/-- The byte at an offset. -/
def get (b : Block) (offset : Nat) : UInt8 := b.stored.getD offset 0

/-- Replaces the byte at an offset. -/
def set (b : Block) (offset : Nat) (byte : UInt8) : Block :=
  if offset < b.stored.size then { b with stored := b.stored.set! offset byte }
  else
    let filled := b.stored ++ Array.replicate (offset - b.stored.size) 0
    { b with stored := filled.push byte }

/-- The bytes at so many places from an offset on. -/
def getBytes (b : Block) (offset : Nat) : (count : Nat) → List UInt8
  | 0 => []
  | count + 1 => b.get offset :: b.getBytes (offset + 1) count

/-- Replaces bytes from an offset on. -/
def setBytes (b : Block) (offset : Nat) : List UInt8 → Block
  | [] => b
  | byte :: bytes => (b.set offset byte).setBytes (offset + 1) bytes

/-- **Writes bytes**, all of them inside the block or none. -/
def write (b : Block) (offset : Nat) (bytes : List UInt8) : Except Error Block :=
  if offset + bytes.length ≤ b.size then .ok (b.setBytes offset bytes)
  else .error (.outsideBlock (.write bytes.length offset))

/-- **Reads bytes**, all of them inside the block. -/
def read (b : Block) (offset count : Nat) : Except Error (List UInt8) :=
  if offset + count ≤ b.size then .ok (b.getBytes offset count)
  else .error (.outsideBlock (.read count offset))

/-- Checks that a call enters the block. -/
def checkEntry (b : Block) (offset : Nat) : Except Error Unit :=
  if offset < b.size then .ok () else .error (.outsideBlock (.entry offset))

/-! ## The bytes of a block

`get` is the view of a block: every operation is described by the bytes
that it shows afterwards. -/

theorem get_new (size offset : Nat) : (new size).get offset = 0 := by
  simp [new, get]

@[simp] theorem size_set (b : Block) (offset : Nat) (byte : UInt8) :
    (b.set offset byte).size = b.size := by
  unfold set
  split <;> rfl

/-- **Setting a byte changes that byte alone**, also behind the last one
stored. -/
theorem get_set (b : Block) (offset i : Nat) (byte : UInt8) :
    (b.set offset byte).get i = if i = offset then byte else b.get i := by
  unfold set get
  split
  · next h =>
    by_cases hi : i = offset
    · subst hi
      simp [Array.getD_eq_getD_getElem?, h]
    · simp [Array.getD_eq_getD_getElem?, hi, Ne.symm hi]
  · next h =>
    rw [Array.getD_eq_getD_getElem?, Array.getD_eq_getD_getElem?, Array.getElem?_push]
    have filled :
        (b.stored ++ Array.replicate (offset - b.stored.size) (0 : UInt8)).size = offset := by
      simp only [Array.size_append, Array.size_replicate]
      omega
    rw [filled]
    by_cases hi : i = offset
    · simp [hi]
    · simp only [hi, if_false]
      rw [Array.getElem?_append]
      split
      · rfl
      · have outside : b.stored[i]? = none := Array.getElem?_eq_none (by omega)
        rw [outside, Array.getElem?_replicate]
        split <;> rfl

@[simp] theorem length_getBytes (b : Block) (offset count : Nat) :
    (b.getBytes offset count).length = count := by
  induction count generalizing offset with
  | zero => rfl
  | succ n ih => simp [getBytes, ih]

@[simp] theorem size_setBytes (b : Block) (offset : Nat) (bytes : List UInt8) :
    (b.setBytes offset bytes).size = b.size := by
  induction bytes generalizing b offset with
  | nil => rfl
  | cons byte bytes ih => simp [setBytes, ih]

/-- **Setting bytes changes those bytes alone.** -/
theorem get_setBytes (b : Block) (offset i : Nat) (bytes : List UInt8) :
    (b.setBytes offset bytes).get i =
      if offset ≤ i then (bytes[i - offset]?).getD (b.get i) else b.get i := by
  induction bytes generalizing b offset with
  | nil => simp [setBytes]
  | cons byte bytes ih =>
    rw [setBytes, ih, get_set]
    by_cases hi : i = offset
    · subst hi
      rw [if_neg (by omega : ¬ i + 1 ≤ i)]
      simp
    · by_cases hle : offset ≤ i
      · obtain ⟨k, rfl⟩ : ∃ k, i = offset + 1 + k := ⟨i - offset - 1, by omega⟩
        have inner : offset + 1 + k - (offset + 1) = k := by omega
        have outer : offset + 1 + k - offset = k + 1 := by omega
        simp [hi, hle, inner, outer]
      · have : ¬ offset + 1 ≤ i := by omega
        simp [hi, hle, this]

end Block

end Shading
