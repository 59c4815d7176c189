import Shading.Block
import Shading.HostValue
import Shading.Program

/-!
# Objects

An object is a compiled program in memory:

| part         | starts at      | what it holds                               |
|--------------|----------------|---------------------------------------------|
| globals      | 0              | globals, constants, staging and spill slots |
| trampoline   | multiple of 16 | loads of the globals in registers           |
| functions    | multiples of 16| each starts with a call of the trampoline   |
| local region | multiple of 16 | locals and temporaries, addressed by `rsi`  |

The trampoline runs at every start of a function. It loads each global
that lives in a register from its staging slot, and the base of the
local region into `rsi`.
-/

namespace Shading

/-- The function that runs when an object is executed. -/
def entryPoint : String := "main"

/-- The next multiple of sixteen. -/
def align16 (n : Nat) : Nat := alignUp n 16

/-! ## The trampoline -/

/-- **A global in a register** with the offset of its staging slot. -/
structure StagedGlobal where
  location : Location
  staging : Nat

/-- The globals of a program that have a staging slot. -/
def Program.staged (p : Program) : List StagedGlobal :=
  p.globals.filterMap fun g =>
    (g.staging.bind Location.globalOffset?).map fun staging => ⟨g.location, staging⟩

namespace StagedGlobal

/-- The bytes foreseen for the load of a global. -/
def reserved (g : StagedGlobal) : Nat :=
  match g.location.registerOf? with
  | some (.general, _) => 6
  | _ => 7

/-- The load of a global, if it is in a register. -/
def load? (g : StagedGlobal) : Option (Instruction Nat × String) :=
  g.location.registerOf?.map fun (c, id) =>
    let opcode : Opcode := match c with
      | .general => .movLoad
      | .simd => .movupsLoad
    let name := match g.location with
      | .simdRegister x => "xmm" ++ Text.ofNat x
      | _ => register32Name id
    (⟨opcode, id, .globalAt g.staging, []⟩,
      opcode.mnemonic ++ " " ++ name ++ ",[staging + " ++ Text.ofNat g.staging ++ "]")

end StagedGlobal

/-- The bytes foreseen for a trampoline. -/
def trampolineSize (staged : List StagedGlobal) : Nat :=
  (staged.map StagedGlobal.reserved).sum + 8

/-- **The code of a trampoline** for a local region at an offset. -/
def trampoline (keepListing : Bool) (staged : List StagedGlobal) (localOffset : Nat) :
    Assembly :=
  let loads := staged.foldl
    (fun (a : Assembly) g => match g.load? with
      | some (i, text) => a.emit i text
      | none => a)
    { keepListing := keepListing }
  (loads.emit ⟨.lea, localBaseRegister, .globalAt localOffset, []⟩ "lea rsi,[local]").write .ret

/-! ## The layout of an object -/

/-- **Where a global keeps its value** between executions. -/
inductive Residency where
  /-- At an offset of the object. -/
  | memory (offset : Nat)
  /-- In a register, which every start loads from a staging slot. -/
  | register
deriving DecidableEq

/-- **A global of an object.** -/
structure ObjectGlobal where
  name : String
  ty : Ty
  residency : Residency
  /-- The offset that the host writes to: of the global itself or of its
  staging slot. -/
  offset : Nat
  intrinsic : Bool
deriving DecidableEq

/-- **A function of an object.** -/
structure ObjectFunction where
  name : String
  isExported : Bool
  offset : Nat
  size : Nat
  listing : List String

/-- **An object.** -/
structure Object where
  block : Block
  globals : List ObjectGlobal
  functions : List ObjectFunction
  trampolineListing : List String
  constants : ConstantPool
  /-- The bytes of machine code, the trampoline included. -/
  codeSize : Nat
  localOffset : Nat
  localSize : Nat

/-- The offsets of functions that are laid out from an offset on, and the
end of the last one. -/
def functionOffsets : Nat → List CompiledFunction → List Nat × Nat
  | cursor, [] => ([], cursor)
  | cursor, f :: fs =>
    let (offsets, stop) := functionOffsets (align16 (cursor + f.assembly.size)) fs
    (cursor :: offsets, stop)

/-- **The offsets of the parts of an object.** -/
structure ObjectLayout where
  trampolineOffset : Nat
  functionOffsets : List Nat
  localOffset : Nat
  localSize : Nat

/-- The layout of a program whose local region has at least `floor`
bytes. -/
def Program.objectLayout (p : Program) (floor : Nat) : ObjectLayout :=
  let trampolineOffset := align16 p.globalSize
  let start := align16 (trampolineOffset + trampolineSize p.staged)
  let (functionOffsets, localOffset) := functionOffsets start p.functions
  { trampolineOffset, functionOffsets, localOffset, localSize := align16 (max p.localSize floor) }

namespace Object

/-- Writes the constants of a program. -/
def writeConstants (b : Block) (p : ConstantPool) : Except Error Block :=
  p.slots.foldlM (fun b c => b.write c.2 c.1.bytes) b

/-- The bytes of the trampoline at an offset. Its length has been
foreseen, since the functions behind it were laid out before. -/
def trampolineBytes (a : Assembly) (offset reserved : Nat) : Except Error (List UInt8) := do
  let bytes ← applyRelocations offset a.relocations a.code
  if bytes.length = reserved then return bytes
  else .error (.layout (.trampolineSize bytes.length reserved))

/-- **The bytes of a function at an offset**, with its references and the
call of the trampoline filled in. -/
def functionBytes (f : CompiledFunction) (offset trampolineOffset : Nat) :
    Except Error (List UInt8) := do
  let code ← applyRelocations offset f.assembly.relocations f.assembly.code
  let distance : Int := (trampolineOffset : Int) - (offset + f.trampolineCall + 4 : Nat)
  if fitsSigned 32 distance then
    return overwrite code f.trampolineCall (wordBytes (wordOfInt distance))
  else .error (.layout (.trampolineCall distance))

/-- Writes the functions of a program at their offsets. -/
def writeFunctions (b : Block) (trampolineOffset : Nat) :
    List (CompiledFunction × Nat) → Except Error Block
  | [] => .ok b
  | (f, offset) :: rest => do
    let b ← b.write offset (← functionBytes f offset trampolineOffset)
    writeFunctions b trampolineOffset rest

/-- The global of a slot. -/
def globalOfSlot (g : GlobalSlot) : Except Error ObjectGlobal :=
  match g.location, g.staging with
  | .globalMemory offset, _ => .ok ⟨g.name, g.ty, .memory offset, offset, g.intrinsic⟩
  | _, some (.globalMemory staging) => .ok ⟨g.name, g.ty, .register, staging, g.intrinsic⟩
  | other, _ => .error (.layout (.globalPlacement g.name other))

/-- **Lays a program out in memory**, with a local region of at least
`floor` bytes. A program without an exported entry point is refused. -/
def build (p : Program) (floor : Nat) : Except Error Object := do
  if p.functions.any (fun f => f.isExported && f.name == entryPoint) then
    let keepListing := p.functions.any (fun f => !f.assembly.listing.isEmpty)
    let l := p.objectLayout floor
    let block ← writeConstants (.new (l.localOffset + l.localSize)) p.constants
    if 2 ^ 32 ≤ l.localOffset then .error (.layout (.localRegion l.localOffset))
    else
      let start := trampoline keepListing p.staged l.localOffset
      let bytes ← trampolineBytes start l.trampolineOffset (trampolineSize p.staged)
      let block ← block.write l.trampolineOffset bytes
      let placed := p.functions.zip l.functionOffsets
      let block ← writeFunctions block l.trampolineOffset placed
      let globals ← p.globals.mapM globalOfSlot
      return {
        block, globals
        functions := placed.map fun (f, offset) =>
          ⟨f.name, f.isExported, offset, f.assembly.size, f.assembly.listing⟩
        trampolineListing := start.listing
        constants := p.constants
        codeSize := bytes.length + (p.functions.map fun f => f.assembly.size).sum
        localOffset := l.localOffset
        localSize := l.localSize }
  else .error .missingEntryPoint

/-- **Compiles a source text into an object.** -/
def compile (o : Options) (source : String) : Except Error Object := do
  build (← Program.compile o source) o.localMemoryFloor

/-! ## The host's view -/

/-- The global with a name; of several it is the last one. -/
def findGlobal (o : Object) (name : String) : Except Error ObjectGlobal :=
  match o.globals.reverse.find? (fun g => g.name == name) with
  | some g => .ok g
  | none => .error (.unknownGlobal name)

/-- Checks that values of a host type go into a global. -/
def checkType (g : ObjectGlobal) (t : HostType) : Except Error Unit :=
  if t.accepts g.ty then .ok () else .error (.globalTypeMismatch g.name g.ty (.value t.name))

/-- **Writes the bytes of a global**, as many as its type has. -/
def writeGlobalBytes (o : Object) (name : String) (bytes : List UInt8) :
    Except Error Object := do
  let g ← o.findGlobal name
  if bytes.length = g.ty.size then
    let block ← o.block.write g.offset bytes
    return { o with block }
  else .error (.globalTypeMismatch g.name g.ty (.bytes bytes.length))

/-- **Writes a value into a global** that takes its type. -/
def writeGlobal (o : Object) (name : String) (v : HostValue) : Except Error Object := do
  checkType (← o.findGlobal name) v.type
  o.writeGlobalBytes name v.bytes

/-- **Reads the bytes of a global** in memory. -/
def readGlobalBytes (o : Object) (name : String) : Except Error (List UInt8) := do
  let g ← o.findGlobal name
  match g.residency with
  | .register => .error (.registerResident name)
  | .memory _ => o.block.read g.offset g.ty.size

/-- **Reads a value of a host type** from a global in memory. -/
def readGlobal (o : Object) (name : String) (t : HostType) : Except Error HostValue := do
  let g ← o.findGlobal name
  checkType g t
  match HostValue.ofBytes? t (← o.readGlobalBytes name) with
  | some v => return v
  | none => .error (.globalTypeMismatch g.name g.ty (.value t.name))

/-- The names of the functions that the host can see. -/
def exports (o : Object) : List String :=
  (o.functions.filter ObjectFunction.isExported).map ObjectFunction.name

/-- Whether the host can see a function with a name. -/
def hasExport (o : Object) (name : String) : Bool := o.exports.contains name

/-- The listing of a function or of the trampoline. -/
def listing? (o : Object) (name : String) : Option (List String) :=
  if name = "trampoline" then some o.trampolineListing
  else (o.functions.find? (fun f => f.name == name)).map ObjectFunction.listing

/-- The bytes of an object in front of its local region. -/
def image (o : Object) : List UInt8 := o.block.getBytes 0 o.localOffset

/-- Whether the local region holds only zeros. Bytes that were never
stored are zero. -/
def localIsZero (o : Object) : Bool :=
  ((o.block.stored.toList.drop o.localOffset).take o.localSize).all (· == 0)

end Object

end Shading
