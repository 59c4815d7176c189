import Shading.Assembly
import Shading.Constant
import Shading.Layout
import Shading.Options
import Shading.Tree

/-!
# Lowering: state, storage and emission

Lowering turns a typed tree into machine code. It carries the layout of
storage, the code of the function at hand, and the pool of constants.

Values have the same form wherever they are kept:

| type                   | storage                              |
|------------------------|--------------------------------------|
| `float`, `int`, `bool` | 4 bytes                              |
| `vec3`, `vec4`         | 16 bytes, lane *i* at `4 * i`        |
| `mat3x3`, `mat4x4`     | rows of 16 bytes, row *i* at `16 * i`|

A temporary is placed in a scope, which is named wherever one is placed:
scopes are known by the number of scopes that were open when they opened.
`withScope` opens a scope, runs an action that is told its name, and closes
it again.

A transcript records every step that concerns storage, in order and with
the layout at each emission. Nothing is decided by it: it is what
statements about the course of a lowering speak of.
-/

namespace Shading

/-- **The scratch words of an integer division** in global memory. -/
structure DivisionSlots where
  eax : Location
  edx : Location
  divisor : Location
deriving DecidableEq

/-- The name of a scope: the number of scopes that it was opened in. -/
abbrev ScopeId := Nat

/-- **A step of a lowering that concerns storage.** -/
inductive LoweringEvent where
  | opened (id : ScopeId) (scope : TemporaryScope)
  | closed (id : ScopeId) (scope : TemporaryScope)
  /-- A temporary was placed in a scope. -/
  | placed (id : ScopeId) (ty : Ty) (location : Location)
  | leased (lease : Lease) (avoid : List Location)
  | released (lease : Lease)
  /-- An instruction was emitted under a layout. -/
  | emitted (i : Instruction Nat) (layout : Layout)

/-- **What lowering carries along.** -/
structure LoweringState where
  stage : Stage
  placement : PlacementPolicy
  declarations : Declarations
  /-- The code of the function at hand. -/
  assembly : Assembly
  layout : Layout := {}
  /-- The open scopes, innermost first. -/
  scopes : List TemporaryScope := []
  constants : ConstantPool := {}
  /-- The scratch words of divisions, once there is a division. -/
  divisionSlots : Option DivisionSlots := none
  /-- The function at hand. -/
  function : Option FunctionId := none
  /-- The steps taken for the function at hand, last first. -/
  transcript : List LoweringEvent := []

/-- **A step of lowering**, which may fail. -/
abbrev Lower (α : Type) := StateT LoweringState (Except Error) α

namespace Lower

/-! ## Failing -/

/-- Fails with an error. -/
def fail {α : Type} (e : Error) : Lower α := fun _ => .error e

/-- Fails because of the shape of the tree. -/
def malformed {α : Type} (fault : TreeFault) : Lower α := fail (.malformedTree fault)

/-! ## Storage -/

/-- Records a step. -/
def record (e : LoweringEvent) : Lower Unit :=
  modify fun s => { s with transcript := e :: s.transcript }

/-- Opens a scope, and gives its name. -/
def enterScope : Lower ScopeId := do
  let s ← get
  let id := s.scopes.length
  let scope := s.layout.openScope
  modify fun s => { s with scopes := scope :: s.scopes }
  record (.opened id scope)
  return id

/-- Closes a scope. -/
def leaveScope (id : ScopeId) : Lower Unit := do
  match (← get).scopes.reverse[id]? with
  | none => return ()
  | some scope =>
    modify fun s =>
      { s with scopes := (s.scopes.reverse.eraseIdx id).reverse, layout := s.layout.closeScope scope }
    record (.closed id scope)

/-- **Runs an action with a scope of its own**, which it is told. -/
def withScope {α : Type} (action : ScopeId → Lower α) : Lower α := do
  let id ← enterScope
  let a ← action id
  leaveScope id
  return a

/-- **Places a temporary in a scope.** -/
def placeIn (id : ScopeId) (ty : Ty) : Lower Location := do
  let s ← get
  let (location, scopes, layout) ←
    match s.scopes.reverse[id]? with
    | none => do
      let (location, layout) ← s.layout.place ty .local
      pure (location, s.scopes, layout)
    | some scope => do
      let (location, scope, layout) ← s.layout.placeIn scope ty
      pure (location, (s.scopes.reverse.set id scope).reverse, layout)
  modify fun s => { s with scopes, layout }
  record (.placed id ty location)
  return location

/-- Places a temporary of a scope in local memory. -/
def placeMemoryIn (id : ScopeId) (ty : Ty) : Lower Location := do
  let (location, layout) ← (← get).layout.placeInMemory ty .local
  modify fun s => { s with layout }
  record (.placed id ty location)
  return location

/-- Reserves global memory. -/
def allocateGlobal (size : Nat) : Lower Location := do
  let (location, layout) := (← get).layout.allocate .global size
  modify fun s => { s with layout }
  return location

/-- The scratch words of a division, which all divisions share. -/
def divisionSlots : Lower DivisionSlots := do
  match (← get).divisionSlots with
  | some slots => return slots
  | none =>
    let eax ← allocateGlobal 4
    let edx ← allocateGlobal 4
    let divisor ← allocateGlobal 4
    let slots : DivisionSlots := ⟨eax, edx, divisor⟩
    modify fun s => { s with divisionSlots := some slots }
    return slots

/-- **The place of a constant** in global memory, the same for each use
of its bits. -/
def constant (c : Constant) : Lower Location := do
  match (← get).constants.offset? c with
  | some offset => return .globalMemory offset
  | none =>
    let location ← allocateGlobal c.size
    modify fun s => { s with constants := s.constants.add c (location.globalOffset?.getD 0) }
    return location

/-! ## Listing -/

/-- A place in memory as a listing names it: by the variable there, by
the constant there, or by its offset. -/
def memoryText (s : LoweringState) (location : Location) : String :=
  match s.declarations.symbols.nameAt? location s.function with
  | some name => "[" ++ name ++ "]"
  | none =>
    match location with
    | .globalMemory offset =>
      match s.constants.name? offset with
      | some name => name
      | none => "[global + " ++ Text.ofNat offset ++ "]"
    | .localMemory offset => "[rsi + " ++ Text.ofNat offset ++ "]"
    | _ => "?"

/-- An operand as a listing names it. -/
def operandText (s : LoweringState) (wide : Bool) (location : Location) : String :=
  match location with
  | .none => "?"
  | .register id => if wide then register64Name id else register32Name id
  | .simdRegister id => "xmm" ++ Text.ofNat id
  | .registerLane simd shift => "xmm" ++ Text.ofNat simd ++ "." ++ Text.ofNat (shift / 4)
  | .indirectRegister id => "[" ++ register64Name id ++ "]"
  | .globalMemory _ | .localMemory _ => memoryText s location

/-- Immediate bytes as a listing writes them: one byte as it is, and four
as a signed number. -/
def immediateText : List UInt8 → List String
  | [] => []
  | [b] => [Text.ofNat b.toNat]
  | bs => [Text.ofInt (signedValue 32 (ofLittleEndian bs))]

/-- Texts with a comma between each two. -/
def joinComma : List String → String
  | [] => ""
  | [s] => s
  | s :: ss => s ++ "," ++ joinComma ss

/-- The line of an instruction in a listing. -/
def lineText (s : LoweringState) (o : Opcode) (operands : List Location)
    (immediate : List UInt8) : String :=
  o.mnemonic ++ " "
    ++ joinComma (operands.map (operandText s o.form.wide) ++ immediateText immediate)

/-! ## Emission -/

/-- The register field of a location. -/
def registerField : Location → Except Error Nat
  | .register id | .simdRegister id => .ok id
  | l => .error (.malformedTree (.notRegister l))

/-- A location as the operand of an instruction. -/
def operandOf : Location → Except Error (Operand Nat)
  | .register id | .simdRegister id => .ok (.register id)
  | .globalMemory offset => .ok (.globalAt offset)
  | .localMemory offset => .ok (.localAt offset)
  | .indirectRegister id => .ok (.indirect id)
  | l => .error (.malformedTree (.noOperand l))

/-- Changes the code of the function at hand. -/
def modifyAssembly (f : Assembly → Assembly) : Lower Unit :=
  modify fun s => { s with assembly := f s.assembly }

/-- Emits an instruction whose line names some locations. -/
def emitWith (i : Instruction Nat) (named : List Location) : Lower Unit := do
  let s ← get
  record (.emitted i s.layout)
  let text := if s.assembly.keepListing then lineText s i.opcode named i.immediate else ""
  modifyAssembly fun a => a.emit i text

/-- Emits an instruction with a register and an operand, which is its
source. -/
def emit (o : Opcode) (reg rm : Location) (immediate : List UInt8 := []) : Lower Unit := do
  let field ← registerField reg
  let operand ← operandOf rm
  emitWith ⟨o, field, operand, immediate⟩ [reg, rm]

/-- Emits an instruction with an operand and a register, which is its
source. -/
def emitStore (o : Opcode) (rm reg : Location) : Lower Unit := do
  let field ← registerField reg
  let operand ← operandOf rm
  emitWith ⟨o, field, operand, []⟩ [rm, reg]

/-- Emits an instruction with a single operand. -/
def emitUnary (o : Opcode) (rm : Location) (immediate : List UInt8 := []) : Lower Unit := do
  let operand ← operandOf rm
  emitWith ⟨o, 0, operand, immediate⟩ [rm]

/-- Emits a jump to a new label. -/
def emitJump (form : JumpForm) : Lower Nat := do
  let (label, assembly) := (← get).assembly.jump form
  modify fun s => { s with assembly }
  return label

/-- Binds a label to the code that follows. -/
def bindLabel (label : Nat) : Lower Unit := do
  let assembly ← (← get).assembly.bind label
  modify fun s => { s with assembly }

/-- Emits a return. -/
def emitReturn : Lower Unit := modifyAssembly fun a => a.write .ret

end Lower

end Shading
