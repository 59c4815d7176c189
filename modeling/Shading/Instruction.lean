import Shading.Bytes

/-!
# Machine instructions

An instruction is an opcode with a register field, one further operand
that is a register or a place in memory, and immediate bytes. Memory is
addressed in three ways:

| operand    | address                       | mode byte          |
|------------|-------------------------------|--------------------|
| `globalAt` | next instruction + disp32     | `mod=00`, `rm=101` |
| `localAt`  | `rsi` + disp32                | `mod=10`, `rm=110` |
| `indirect` | the content of a register     | `mod=00`, `rm=reg` |

Register numbers are below eight, so the only extension prefix is the
one for 64-bit operands.

The type of instructions takes what a `globalAt` operand carries as a
parameter: code that is being written names an offset in the object, and
code that is read back has a displacement there.
-/

namespace Shading

/-! ## Registers -/

/-- The base of the local region. -/
def localBaseRegister : Nat := 6

/-- The 32-bit names of the general registers. -/
def register32Names : List String := ["eax", "ecx", "edx", "ebx", "esp", "ebp", "esi", "edi"]

/-- The 64-bit names of the general registers. -/
def register64Names : List String := ["rax", "rcx", "rdx", "rbx", "rsp", "rbp", "rsi", "rdi"]

/-- The name of the lower half of a general register. -/
def register32Name (id : Nat) : String := register32Names.getD (id % 8) ""

/-- The name of a general register. -/
def register64Name (id : Nat) : String := register64Names.getD (id % 8) ""

/-! ## Opcodes -/

/-- **The opcodes in use.** -/
inductive Opcode where
  -- moves and arithmetic on general registers
  | movLoad
  | movStore
  | movImm
  | add
  | sub
  | imul
  | neg
  | idiv
  | xorImm8
  | cmpImm8
  | cmpLoad
  | cmpStore
  -- addresses
  | lea
  | movsxd
  | imulImm64
  | add64
  | addImm64
  -- scalar floats
  | movssLoad
  | movssStore
  | addss
  | subss
  | mulss
  | divss
  | maxss
  | sqrtss
  | cvtsi2ss
  | cvttss2si
  | comiss
  -- vectors
  | movupsLoad
  | movupsStore
  | addps
  | subps
  | mulps
  | rsqrtps
  | andps
  | orps
  | xorps
  | shufps
  | haddps
  | psrldq
  | pslldq
deriving DecidableEq

/-- **How an opcode is written.** -/
structure OpcodeForm where
  mnemonic : String
  /-- A byte in front that is part of the opcode. -/
  lead : Option UInt8 := none
  /-- Whether the operands have 64 bits. -/
  wide : Bool := false
  /-- The opcode itself. -/
  bytes : List UInt8
  /-- The register field of an opcode that shares its bytes. -/
  digit : Option Nat := none
  /-- How many immediate bytes follow the operand. -/
  immediate : Nat := 0

namespace Opcode

/-- Every opcode. -/
def all : List Opcode :=
  [movLoad, movStore, movImm, add, sub, imul, neg, idiv, xorImm8, cmpImm8, cmpLoad, cmpStore,
    lea, movsxd, imulImm64, add64, addImm64,
    movssLoad, movssStore, addss, subss, mulss, divss, maxss, sqrtss, cvtsi2ss, cvttss2si, comiss,
    movupsLoad, movupsStore, addps, subps, mulps, rsqrtps, andps, orps, xorps, shufps, haddps,
    psrldq, pslldq]

/-- The form of each opcode. -/
def form : Opcode → OpcodeForm
  | movLoad => { mnemonic := "mov", bytes := [0x8B] }
  | movStore => { mnemonic := "mov", bytes := [0x89] }
  | movImm => { mnemonic := "mov", bytes := [0xC7], digit := some 0, immediate := 4 }
  | add => { mnemonic := "add", bytes := [0x03] }
  | sub => { mnemonic := "sub", bytes := [0x2B] }
  | imul => { mnemonic := "imul", bytes := [0x0F, 0xAF] }
  | neg => { mnemonic := "neg", bytes := [0xF7], digit := some 3 }
  | idiv => { mnemonic := "idiv", bytes := [0xF7], digit := some 7 }
  | xorImm8 => { mnemonic := "xor", bytes := [0x83], digit := some 6, immediate := 1 }
  | cmpImm8 => { mnemonic := "cmp", bytes := [0x83], digit := some 7, immediate := 1 }
  | cmpLoad => { mnemonic := "cmp", bytes := [0x3B] }
  | cmpStore => { mnemonic := "cmp", bytes := [0x39] }
  | lea => { mnemonic := "lea", wide := true, bytes := [0x8D] }
  | movsxd => { mnemonic := "movsxd", wide := true, bytes := [0x63] }
  | imulImm64 => { mnemonic := "imul", wide := true, bytes := [0x69], immediate := 4 }
  | add64 => { mnemonic := "add", wide := true, bytes := [0x03] }
  | addImm64 =>
    { mnemonic := "add", wide := true, bytes := [0x81], digit := some 0, immediate := 4 }
  | movssLoad => { mnemonic := "movss", lead := some 0xF3, bytes := [0x0F, 0x10] }
  | movssStore => { mnemonic := "movss", lead := some 0xF3, bytes := [0x0F, 0x11] }
  | addss => { mnemonic := "addss", lead := some 0xF3, bytes := [0x0F, 0x58] }
  | subss => { mnemonic := "subss", lead := some 0xF3, bytes := [0x0F, 0x5C] }
  | mulss => { mnemonic := "mulss", lead := some 0xF3, bytes := [0x0F, 0x59] }
  | divss => { mnemonic := "divss", lead := some 0xF3, bytes := [0x0F, 0x5E] }
  | maxss => { mnemonic := "maxss", lead := some 0xF3, bytes := [0x0F, 0x5F] }
  | sqrtss => { mnemonic := "sqrtss", lead := some 0xF3, bytes := [0x0F, 0x51] }
  | cvtsi2ss => { mnemonic := "cvtsi2ss", lead := some 0xF3, bytes := [0x0F, 0x2A] }
  | cvttss2si => { mnemonic := "cvttss2si", lead := some 0xF3, bytes := [0x0F, 0x2C] }
  | comiss => { mnemonic := "comiss", bytes := [0x0F, 0x2F] }
  | movupsLoad => { mnemonic := "movups", bytes := [0x0F, 0x10] }
  | movupsStore => { mnemonic := "movups", bytes := [0x0F, 0x11] }
  | addps => { mnemonic := "addps", bytes := [0x0F, 0x58] }
  | subps => { mnemonic := "subps", bytes := [0x0F, 0x5C] }
  | mulps => { mnemonic := "mulps", bytes := [0x0F, 0x59] }
  | rsqrtps => { mnemonic := "rsqrtps", bytes := [0x0F, 0x52] }
  | andps => { mnemonic := "andps", bytes := [0x0F, 0x54] }
  | orps => { mnemonic := "orps", bytes := [0x0F, 0x56] }
  | xorps => { mnemonic := "xorps", bytes := [0x0F, 0x57] }
  | shufps => { mnemonic := "shufps", bytes := [0x0F, 0xC6], immediate := 1 }
  | haddps => { mnemonic := "haddps", lead := some 0xF2, bytes := [0x0F, 0x7C] }
  | psrldq =>
    { mnemonic := "psrldq", lead := some 0x66, bytes := [0x0F, 0x73], digit := some 3,
      immediate := 1 }
  | pslldq =>
    { mnemonic := "pslldq", lead := some 0x66, bytes := [0x0F, 0x73], digit := some 7,
      immediate := 1 }

/-- The name of an opcode in a listing. -/
def mnemonic (o : Opcode) : String := o.form.mnemonic

/-- The bytes in front of the mode byte. -/
def header (o : Opcode) : List UInt8 :=
  o.form.lead.toList ++ (if o.form.wide then [0x48] else []) ++ o.form.bytes

end Opcode

/-! ## Conditions -/

/-- **The conditions of a jump.** -/
inductive Condition where
  | below
  | aboveEqual
  | equal
  | notEqual
  | belowEqual
  | above
  | less
  | greaterEqual
  | lessEqual
  | greater
deriving DecidableEq

namespace Condition

/-- Every condition. -/
def all : List Condition :=
  [below, aboveEqual, equal, notEqual, belowEqual, above, less, greaterEqual, lessEqual, greater]

/-- The number of a condition, which both of its jumps carry. -/
def code : Condition → UInt8
  | below => 0x2
  | aboveEqual => 0x3
  | equal => 0x4
  | notEqual => 0x5
  | belowEqual => 0x6
  | above => 0x7
  | less => 0xC
  | greaterEqual => 0xD
  | lessEqual => 0xE
  | greater => 0xF

/-- The name of the jump. -/
def mnemonic : Condition → String
  | below => "jb"
  | aboveEqual => "jae"
  | equal => "je"
  | notEqual => "jne"
  | belowEqual => "jbe"
  | above => "ja"
  | less => "jl"
  | greaterEqual => "jge"
  | lessEqual => "jle"
  | greater => "jg"

/-- The condition with a number. -/
def ofCode? (n : UInt8) : Option Condition := all.find? (fun c => c.code == n)

end Condition

/-! ## Instructions -/

/-- **The operand of an instruction that may be in memory.** -/
inductive Operand (γ : Type) where
  /-- A general or SSE register, as the opcode has it. -/
  | register (id : Nat)
  /-- Global memory. -/
  | globalAt (place : γ)
  /-- An offset from the base of the local region. -/
  | localAt (offset : Nat)
  /-- Memory whose address a general register holds. -/
  | indirect (id : Nat)
deriving DecidableEq

/-- **An instruction with operands.** -/
structure Instruction (γ : Type) where
  opcode : Opcode
  /-- The register field. An opcode with a digit of its own ignores
  it. -/
  reg : Nat
  rm : Operand γ
  immediate : List UInt8 := []
deriving DecidableEq

/-- The ways to jump. -/
inductive JumpForm where
  /-- Always, to a 32-bit distance. -/
  | always
  /-- On a condition, to a 32-bit distance. -/
  | when (c : Condition)
  /-- On a condition, to an 8-bit distance. -/
  | shortWhen (c : Condition)
deriving DecidableEq

namespace JumpForm

/-- The name of the jump in a listing. -/
def mnemonic : JumpForm → String
  | always => "jmp"
  | when c | shortWhen c => c.mnemonic

/-- The bytes in front of the distance. -/
def header : JumpForm → List UInt8
  | always => [0xE9]
  | when c => [0x0F, 0x80 + c.code]
  | shortWhen c => [0x70 + c.code]

/-- The number of bytes of the distance. -/
def width : JumpForm → Nat
  | always | when _ => 4
  | shortWhen _ => 1

end JumpForm

/-! ## Encoding -/

namespace Operand

/-- Replaces what a global operand carries. -/
def map {γ δ : Type} (f : γ → δ) : Operand γ → Operand δ
  | register id => register id
  | globalAt place => globalAt (f place)
  | localAt offset => localAt offset
  | indirect id => indirect id

/-- The mode byte with a register field, and the displacement behind it;
`place` gives the displacement of a global operand. -/
def encode {γ : Type} (place : γ → Nat) (field : Nat) : Operand γ → List UInt8
  | register id => [UInt8.ofNat (0xC0 + 8 * field + id % 8)]
  | globalAt g => UInt8.ofNat (8 * field + 5) :: wordBytes (place g)
  | localAt offset => UInt8.ofNat (0x80 + 8 * field + localBaseRegister) :: wordBytes offset
  | indirect id => [UInt8.ofNat (8 * field + id % 8)]

end Operand

namespace Instruction

/-- Replaces what a global operand carries. -/
def map {γ δ : Type} (f : γ → δ) (i : Instruction γ) : Instruction δ :=
  { i with rm := i.rm.map f }

/-- The register field that is written. -/
def field {γ : Type} (i : Instruction γ) : Nat := (i.opcode.form.digit.getD i.reg) % 8

/-- **The bytes of an instruction**; `place` gives the displacement of a
global operand. -/
def encodeWith {γ : Type} (place : γ → Nat) (i : Instruction γ) : List UInt8 :=
  i.opcode.header ++ i.rm.encode place i.field ++ i.immediate

/-- The bytes of an instruction, with nothing yet where a global
operand's displacement goes. -/
def encode {γ : Type} (i : Instruction γ) : List UInt8 := i.encodeWith (fun _ => 0)

end Instruction

end Shading
