import Shading.Arithmetic

/-!
# Bytes of words

Words stand in memory lowest byte first. Displacements are signed and
stand as their residue modulo 2³².
-/

namespace Shading

/-- The lowest `count` bytes of a number, lowest first. -/
def littleEndian : (count : Nat) → Nat → List UInt8
  | 0, _ => []
  | count + 1, n => UInt8.ofNat (n % 256) :: littleEndian count (n / 256)

@[simp] theorem length_littleEndian (count n : Nat) : (littleEndian count n).length = count := by
  induction count generalizing n with
  | zero => rfl
  | succ c ih => simp [littleEndian, ih]

/-- The number that bytes write, lowest first. -/
def ofLittleEndian : List UInt8 → Nat
  | [] => 0
  | b :: bs => b.toNat + 256 * ofLittleEndian bs

theorem ofLittleEndian_lt (bs : List UInt8) : ofLittleEndian bs < 256 ^ bs.length := by
  induction bs with
  | nil => simp [ofLittleEndian]
  | cons b bs ih =>
    have := b.toNat_lt
    simp only [ofLittleEndian, List.length_cons, Nat.pow_succ]
    omega

theorem ofLittleEndian_littleEndian (count n : Nat) :
    ofLittleEndian (littleEndian count n) = n % 256 ^ count := by
  induction count generalizing n with
  | zero => simp [littleEndian, ofLittleEndian, Nat.mod_one]
  | succ c ih =>
    have : (UInt8.ofNat (n % 256)).toNat = n % 256 := by simp
    rw [littleEndian, ofLittleEndian, ih, this, Nat.pow_succ, Nat.mul_comm (256 ^ c) 256,
      Nat.mod_mul]

/-- The four bytes of a 32-bit word. -/
def wordBytes (n : Nat) : List UInt8 := littleEndian 4 n

/-- The residue of an integer modulo 2³². -/
def wordOfInt (i : Int) : Nat := (i % 2 ^ 32).toNat

/-- The signed value of a word of so many bits. -/
def signedValue (bits n : Nat) : Int := Int.bmod n (2 ^ bits)

/-- Whether an integer is the signed value of a word of so many bits. -/
def fitsSigned (bits : Nat) (i : Int) : Bool :=
  -(2 ^ (bits - 1)) ≤ i && i < 2 ^ (bits - 1)

end Shading
