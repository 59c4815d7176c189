import Shading.Lowering.Statement
import Shading.Parser.Shader

/-!
# Compiled programs

A compiled program holds the code of every function of a shader, the
place of every global, and the constants that the code reads. It has no
address yet: an object gives it one.

A global that is held in a register also has a staging slot in global
memory, from which the register is loaded whenever the program starts.
-/

namespace Shading

/-- **The code of one function.** -/
structure CompiledFunction where
  name : String
  /-- Whether the host can see the function. -/
  isExported : Bool
  /-- The code, which starts with a call of the trampoline. -/
  assembly : Assembly
  /-- The offset of the distance of that call. -/
  trampolineCall : Nat
  /-- The steps of the lowering that concern storage, in order. -/
  transcript : List LoweringEvent

/-- **The place of one global variable.** -/
structure GlobalSlot where
  name : String
  ty : Ty
  location : Location
  /-- Where a global in a register is loaded from. -/
  staging : Option Location
  /-- Whether the stage declares it. -/
  intrinsic : Bool

/-- **A compiled program.** -/
structure Program where
  functions : List CompiledFunction
  /-- The globals, those of the stage first. -/
  globals : List GlobalSlot
  constants : ConstantPool
  /-- The bytes of global memory in use. -/
  globalSize : Nat
  /-- The deepest use of local memory by any function. -/
  localSize : Nat

namespace Lower

/-- **Places a global variable**: in memory if the policy says so or the
host reads it, and else in a register while one is free. -/
def placeGlobal (id : SymbolId) (v : Symbol) : Lower GlobalSlot := do
  let s ← get
  let (location, layout) ←
    if s.placement = .memoryFirst ∨ s.stage.isOutput v.name then
      s.layout.placeInMemory v.ty .global
    else s.layout.place v.ty .global
  modify fun s => { s with layout }
  let staging ←
    if location.isRegister then do
      let slot ← allocateGlobal 16
      pure (some slot)
    else pure none
  setLocation id location
  return { name := v.name, ty := v.ty, location, staging, intrinsic := v.intrinsic }

/-- Places the global variables among some symbols. -/
def placeGlobals : List SymbolId → Lower (List GlobalSlot)
  | [] => return []
  | id :: ids => do
    match (← get).declarations.symbols.get? id with
    | some v =>
      if v.kind = .variable then
        let slot ← placeGlobal id v
        return slot :: (← placeGlobals ids)
      else placeGlobals ids
    | none => placeGlobals ids

/-- Lowers the functions among some declarations. -/
def functions : List Item → Lower (List CompiledFunction)
  | [] => return []
  | .global _ _ :: items => functions items
  | .function id name _ body :: items => do
    let trampolineCall ← function id body
    let s ← get
    let isExported := (s.declarations.functions.get? id).any Function.isExported
    let f : CompiledFunction :=
      { name, isExported, assembly := s.assembly, trampolineCall,
        transcript := s.transcript.reverse }
    return f :: (← functions items)

/-- Lowers a shader. -/
def program (items : List Item) : Lower Program := do
  let globals ← placeGlobals (← get).declarations.symbols.globals
  let functions ← functions items
  let s ← get
  return { functions, globals, constants := s.constants, globalSize := s.layout.globalSize,
           localSize := s.layout.localSize }

end Lower

/-- The state in which the lowering of a shader starts. -/
def LoweringState.start (o : Options) (s : Shader) : LoweringState :=
  { stage := o.stage, placement := o.placement, declarations := s.declarations,
    assembly := { keepListing := o.keepListing } }

namespace Program

/-- **The program of a parsed shader.** -/
def ofShader (o : Options) (s : Shader) : Except Error Program := do
  let (p, _) ← Lower.program s.items (.start o s)
  return p

/-- **Compiles a source text.** -/
def compile (o : Options) (source : String) : Except Error Program := do
  ofShader o (← Shader.parse o.stage source)

end Program

end Shading
