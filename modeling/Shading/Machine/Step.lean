import Shading.Machine

/-!
# The steps of the machine

`Machine.step` reads the instruction at hand and carries it out. Integer
arithmetic wraps, and each float operation rounds by itself. The
reciprocal square root is a parameter, since processors differ in its
last bits.
-/

namespace Shading

/-! ## Flags -/

namespace Flags

/-- The flags of a sum. -/
def ofAdd (a b : Word) : Flags :=
  let r := a + b
  { carry := r < a
    zero := r == 0
    sign := Binary32.isNegative r
    overflow := Binary32.intOfWord a + Binary32.intOfWord b != Binary32.intOfWord r }

/-- The flags of a difference, which are those of a comparison. -/
def ofSub (a b : Word) : Flags :=
  let r := a - b
  { carry := a < b
    zero := r == 0
    sign := Binary32.isNegative r
    overflow := Binary32.intOfWord a - Binary32.intOfWord b != Binary32.intOfWord r }

/-- The flags of a sum of 64 bits. -/
def ofAdd64 (a b : UInt64) : Flags :=
  let r := a + b
  { carry := r < a
    zero := r == 0
    sign := r.toInt64 < 0
    overflow := a.toInt64.toInt + b.toInt64.toInt != r.toInt64.toInt }

/-- The flags of a product, which tell whether it fits. The others are
undefined then, and taken as cleared. -/
def ofMul (a b : Word) : Flags :=
  let overflow := Binary32.intOfWord a * Binary32.intOfWord b != Binary32.intOfWord (a * b)
  { carry := overflow, overflow }

/-- The flags of a product of 64 bits. -/
def ofMul64 (a b : UInt64) : Flags :=
  let overflow := a.toInt64.toInt * b.toInt64.toInt != (a * b).toInt64.toInt
  { carry := overflow, overflow }

/-- The flags of a division, all of which are undefined. -/
def ofDivision : Flags := {}

/-- The flags of a bitwise operation. -/
def ofBits (r : Word) : Flags := { zero := r == 0, sign := Binary32.isNegative r }

/-- The flags of a comparison of floats. Numbers that do not compare are
both equal and below. -/
def ofFloats (a b : Word) : Flags :=
  if Binary32.ordered a b then { carry := Binary32.lt a b, zero := Binary32.eq a b }
  else { carry := true, zero := true }

end Flags

/-- **Whether a condition holds** of flags. -/
def Condition.holds : Condition → Flags → Bool
  | below, f => f.carry
  | aboveEqual, f => !f.carry
  | equal, f => f.zero
  | notEqual, f => !f.zero
  | belowEqual, f => f.carry || f.zero
  | above, f => !f.carry && !f.zero
  | less, f => f.sign != f.overflow
  | greaterEqual, f => f.sign == f.overflow
  | lessEqual, f => f.zero || f.sign != f.overflow
  | greater, f => !f.zero && f.sign == f.overflow

/-! ## Lanes -/

namespace Lanes

/-- Sums of neighbours: of the first operand below, of the second
above. -/
def horizontalAdd (a b : Lanes) : Lanes :=
  ⟨Binary32.add a.x a.y, Binary32.add a.z a.w, Binary32.add b.x b.y, Binary32.add b.z b.w⟩

/-- Two lanes of each operand, chosen by the bit pairs of a number. -/
def shuffle (a b : Lanes) (choice : Nat) : Lanes :=
  ⟨a.get (choice % 4), a.get (choice / 4 % 4), b.get (choice / 16 % 4), b.get (choice / 64 % 4)⟩

/-- Moves all bytes down, towards the first lane. -/
def shiftDown (a : Lanes) (bytes : Nat) : Lanes :=
  .ofBytes (a.bytes.drop bytes ++ List.replicate (min bytes 16) 0)

/-- Moves all bytes up, away from the first lane. -/
def shiftUp (a : Lanes) (bytes : Nat) : Lanes :=
  .ofBytes ((List.replicate (min bytes 16) 0 ++ a.bytes).take 16)

end Lanes

/-! ## Instructions -/

/-- A 32-bit word as a signed 64-bit one. -/
def signExtend (w : Word) : UInt64 := UInt64.ofNat (Binary32.intOfWord w % 2 ^ 64).toNat

/-- Immediate bytes as a signed 32-bit word. -/
def immediateWord (bytes : List UInt8) : Word :=
  Binary32.wordOfInt (signedValue (8 * bytes.length) (ofLittleEndian bytes))

namespace Machine

/-- The quotient and remainder of the 64-bit dividend in `edx` and `eax`,
if there are any that fit. -/
def divide? (high low divisor : Word) : Option (Word × Word) :=
  let dividend : Int := signedValue 64 (high.toNat * 2 ^ 32 + low.toNat)
  let d := Binary32.intOfWord divisor
  if d = 0 then none
  else
    let q := dividend.tdiv d
    if -(2 ^ 31) ≤ q ∧ q < 2 ^ 31 then
      some (Binary32.wordOfInt q, Binary32.wordOfInt (dividend.tmod d))
    else none

/-- Applies an operation to a general register and an operand. -/
def arithmetic (m : Machine) (next : Nat) (i : Instruction Nat) (f : Word → Word → Word)
    (flags : Word → Word → Flags) : Except Fault Machine := do
  let a := m.general32 i.reg
  let b ← m.read32 next i.rm
  return (m.setGeneral32 i.reg (f a b)).setFlags (flags a b)

/-- Applies an operation to the first lane of an SSE register and a
scalar operand. -/
def scalar (m : Machine) (next : Nat) (i : Instruction Nat) (f : Word → Word → Word) :
    Except Fault Machine := do
  let b ← m.readScalar next i.rm
  return m.setScalar i.reg (f (m.simd i.reg).x b)

/-- Applies an operation to an SSE register and a packed operand. -/
def packed (m : Machine) (next : Nat) (i : Instruction Nat) (f : Lanes → Lanes → Lanes) :
    Except Fault Machine := do
  let b ← m.readAligned next i.rm
  return m.setSimd i.reg (f (m.simd i.reg) b)

/-- **Carries out an instruction with operands**; `next` is the offset of
the next one. -/
def execute (rsqrt : Word → Word) (m : Machine) (next : Nat) (i : Instruction Nat) :
    Except Fault Machine :=
  let immediate := immediateWord i.immediate
  match i.opcode with
  | .movLoad => do return m.setGeneral32 i.reg (← m.read32 next i.rm)
  | .movStore => m.write32 next i.rm (m.general32 i.reg)
  | .movImm => m.write32 next i.rm immediate
  | .add => m.arithmetic next i (· + ·) Flags.ofAdd
  | .sub => m.arithmetic next i (· - ·) Flags.ofSub
  | .imul => m.arithmetic next i (· * ·) Flags.ofMul
  | .neg => do
    let a ← m.read32 next i.rm
    let m ← m.write32 next i.rm (0 - a)
    return m.setFlags (.ofSub 0 a)
  | .idiv => do
    match divide? (m.general32 2) (m.general32 0) (← m.read32 next i.rm) with
    | some (q, r) => return ((m.setGeneral32 0 q).setGeneral32 2 r).setFlags .ofDivision
    | none => .error .division
  | .xorImm8 => do
    let a ← m.read32 next i.rm
    let m ← m.write32 next i.rm (a ^^^ immediate)
    return m.setFlags (.ofBits (a ^^^ immediate))
  | .cmpImm8 => do return m.setFlags (.ofSub (← m.read32 next i.rm) immediate)
  | .cmpLoad => do return m.setFlags (.ofSub (m.general32 i.reg) (← m.read32 next i.rm))
  | .cmpStore => do return m.setFlags (.ofSub (← m.read32 next i.rm) (m.general32 i.reg))
  | .lea => .ok (m.setGeneral64 i.reg (UInt64.ofNat ((m.address? next i.rm).getD 0)))
  | .movsxd => do return m.setGeneral64 i.reg (signExtend (← m.read32 next i.rm))
  | .imulImm64 => do
    let a ← m.read64 next i.rm
    let b := signExtend immediate
    return (m.setGeneral64 i.reg (a * b)).setFlags (.ofMul64 a b)
  | .add64 => do
    let a := m.general64 i.reg
    let b ← m.read64 next i.rm
    return (m.setGeneral64 i.reg (a + b)).setFlags (.ofAdd64 a b)
  | .addImm64 => do
    let a ← m.read64 next i.rm
    let b := signExtend immediate
    let m ← m.write64 next i.rm (a + b)
    return m.setFlags (.ofAdd64 a b)
  | .movssLoad => do
    let v ← m.readScalar next i.rm
    match i.rm with
    | .register _ => return m.setScalar i.reg v
    | _ => return m.setSimd i.reg ⟨v, 0, 0, 0⟩
  | .movssStore =>
    match i.rm with
    | .register id => .ok (m.setScalar id (m.simd i.reg).x)
    | rm => m.write32 next rm (m.simd i.reg).x
  | .addss => m.scalar next i Binary32.add
  | .subss => m.scalar next i Binary32.sub
  | .mulss => m.scalar next i Binary32.mul
  | .divss => m.scalar next i Binary32.div
  | .maxss => m.scalar next i Binary32.max
  | .sqrtss => m.scalar next i (fun _ b => Binary32.sqrt b)
  | .cvtsi2ss => do return m.setScalar i.reg (Binary32.ofInt (← m.read32 next i.rm))
  | .cvttss2si => do return m.setGeneral32 i.reg (Binary32.truncate (← m.readScalar next i.rm))
  | .comiss => do return m.setFlags (.ofFloats (m.simd i.reg).x (← m.readScalar next i.rm))
  | .movupsLoad => do return m.setSimd i.reg (← m.readPacked next i.rm)
  | .movupsStore =>
    match m.address? next i.rm, i.rm with
    | some a, _ => m.writeBytes a (m.simd i.reg).bytes
    | none, .register id => .ok (m.setSimd id (m.simd i.reg))
    | none, _ => .ok m
  | .addps => m.packed next i (Lanes.map2 Binary32.add)
  | .subps => m.packed next i (Lanes.map2 Binary32.sub)
  | .mulps => m.packed next i (Lanes.map2 Binary32.mul)
  | .rsqrtps => m.packed next i (fun _ b => b.map rsqrt)
  | .andps => m.packed next i (Lanes.map2 (· &&& ·))
  | .orps => m.packed next i (Lanes.map2 (· ||| ·))
  | .xorps => m.packed next i (Lanes.map2 (· ^^^ ·))
  | .shufps => m.packed next i (fun a b => a.shuffle b (ofLittleEndian i.immediate))
  | .haddps => m.packed next i Lanes.horizontalAdd
  | .psrldq =>
    match i.rm with
    | .register id => .ok (m.setSimd id ((m.simd id).shiftDown (ofLittleEndian i.immediate)))
    | _ => .error (.instruction m.ip)
  | .pslldq =>
    match i.rm with
    | .register id => .ok (m.setSimd id ((m.simd id).shiftUp (ofLittleEndian i.immediate)))
    | _ => .error (.instruction m.ip)

/-! ## Control -/

/-- The machine with its next instruction so far from an offset. -/
def goto (m : Machine) (next : Nat) (distance : Int) : Except Fault Machine :=
  let target : Int := next + distance
  if 0 ≤ target then .ok { m with ip := target.toNat } else .error (.instruction m.ip)

/-- **What a step comes to.** -/
inductive Progress where
  | running (m : Machine)
  /-- The machine has returned from where it started. -/
  | returned (m : Machine)

/-- The longest instruction. -/
def longestInstruction : Nat := 15

/-- The bytes from the next instruction on, as many as an instruction may
have. -/
def upcoming (m : Machine) : List UInt8 :=
  m.block.getBytes m.ip (min longestInstruction (m.block.size - m.ip))

/-- **One step of the machine.** -/
def step (rsqrt : Word → Word) (m : Machine) : Except Fault Progress :=
  let bytes := m.upcoming
  match Decoded.read? bytes with
  | none => .error (.instruction m.ip)
  | some (decoded, rest) =>
    let next := m.ip + (bytes.length - rest.length)
    match decoded with
    | .op i => do
      let m ← m.execute rsqrt next i
      return .running { m with ip := next }
    | .cdq =>
      let high : Word := if Binary32.isNegative (m.general32 0) then 0xFFFFFFFF else 0
      .ok (.running { m.setGeneral32 2 high with ip := next })
    | .jump form distance =>
      let taken := match form with
        | .always => true
        | .when c | .shortWhen c => c.holds m.registers.flags
      if taken then (m.goto next distance).map .running
      else .ok (.running { m with ip := next })
    | .call distance =>
      (m.goto next distance).map fun m => .running { m with stack := next :: m.stack }
    | .ret =>
      match m.stack with
      | [] => .ok (.returned m)
      | r :: rs => .ok (.running { m with ip := r, stack := rs })

/-- **What a run comes to.** -/
inductive Outcome where
  /-- The machine has returned from where it started. -/
  | returned (m : Machine)
  | fault (f : Fault)
  /-- The steps were used up. -/
  | unfinished

/-- **Runs the machine** for at most so many steps. -/
def run (rsqrt : Word → Word) : (steps : Nat) → Machine → Outcome
  | 0, _ => .unfinished
  | steps + 1, m =>
    match m.step rsqrt with
    | .error f => .fault f
    | .ok (.returned m) => .returned m
    | .ok (.running m) => run rsqrt steps m

end Machine

end Shading
