import Shading.Error
import Shading.Symbol

/-!
# Pipeline stages

A shader is compiled for one stage of the pipeline. The stage declares
variables that carry the shader's inputs and outputs, and the same
functions for every stage, before the first line of the shader is read.
-/

namespace Shading

/-- **The pipeline stages.** -/
inductive Stage where
  /-- Per-vertex transformation. -/
  | vertex
  /-- Per-fragment shading. -/
  | fragment
deriving DecidableEq

/-- **Who writes a variable of a stage.** -/
inductive Direction where
  /-- The host, before the shader runs. -/
  | input
  /-- The shader, for the host to read. -/
  | output
deriving DecidableEq

/-- **A variable that a stage declares.** -/
structure StageVariable where
  name : String
  ty : Ty
  direction : Direction
deriving DecidableEq

/-- **A function that every stage declares.** -/
structure StageFunction where
  name : String
  returnTy : Ty
  parameters : List Ty
deriving DecidableEq

/-- The functions of every stage. -/
def stageFunctions : List StageFunction :=
  [⟨"normalize", .vec4, [.vec4]⟩,
    ⟨"length", .float, [.vec4]⟩,
    ⟨"max", .float, [.float, .float]⟩,
    ⟨"dot3", .float, [.vec4, .vec4]⟩,
    ⟨"clamp", .float, [.float, .float, .float]⟩,
    ⟨"nop", .void, [.int]⟩]

namespace Stage

/-- The name a document calls the stage by. -/
def name : Stage → String
  | vertex => "Vertex"
  | fragment => "Fragment"

/-- The stage with a given name. -/
def ofName? (s : String) : Option Stage :=
  [vertex, fragment].find? (fun t => t.name == s)

/-- The variables of a stage. -/
def boundary : Stage → List StageVariable
  | vertex =>
    [⟨"g_position", .vec4, .input⟩,
      ⟨"g_normal", .vec4, .input⟩,
      ⟨"g_model", .mat4x4, .input⟩,
      ⟨"g_view", .mat4x4, .input⟩,
      ⟨"g_projection", .mat4x4, .input⟩,
      ⟨"g_normal_matrix", .mat4x4, .input⟩,
      ⟨"g_projected_position", .vec4, .output⟩,
      ⟨"g_world_position", .vec4, .output⟩,
      ⟨"g_world_normal", .vec4, .output⟩]
  | fragment =>
    [⟨"g_world_position", .vec4, .input⟩,
      ⟨"g_world_normal", .vec4, .input⟩,
      ⟨"g_light0_position", .vec4, .input⟩,
      ⟨"g_colour", .vec4, .output⟩]

/-- The variable of a stage with a name. -/
def variableNamed? (s : Stage) (name : String) : Option StageVariable :=
  s.boundary.find? (fun v => v.name == name)

/-- Whether the stage has an output with a name. -/
def isOutput (s : Stage) (name : String) : Bool :=
  (s.variableNamed? name).any (fun v => v.direction == .output)

end Stage

namespace Declarations

/-- Declares a variable of a stage. -/
def addStageVariable (d : Declarations) (v : StageVariable) : Except Error Declarations :=
  match d.symbols.addIntrinsic? v.name .variable v.ty with
  | some (_, symbols) => .ok { d with symbols }
  | none => .error (.malformedTree (.duplicateIntrinsic v.name))

/-- Declares a parameter of a function of the stage, which is named for
its number. -/
def addStageParameter (id : FunctionId) (d : Declarations) (parameter : Ty × Nat) :
    Except Error Declarations :=
  let name := "arg" ++ Text.ofNat parameter.2
  match d.symbols.add? name .local .variable parameter.1 (some id) with
  | some (s, symbols) => .ok ⟨symbols, d.functions.addParameter id s⟩
  | none => .error (.malformedTree (.duplicateParameter name))

/-- Declares a function of a stage. -/
def addStageFunction (d : Declarations) (f : StageFunction) : Except Error Declarations :=
  match d.symbols.addIntrinsic? f.name .function .function with
  | none => .error (.malformedTree (.duplicateIntrinsic f.name))
  | some (s, symbols) =>
    match d.functions.add? f.name s f.returnTy false true with
    | none => .error (.malformedTree (.duplicateIntrinsic f.name))
    | some (id, functions) =>
      f.parameters.zipIdx.foldlM (addStageParameter id) ⟨symbols, functions⟩

/-- **Declares what a stage provides.** Doing so twice fails at the first
variable. -/
def addStage (d : Declarations) (s : Stage) : Except Error Declarations := do
  let d ← s.boundary.foldlM addStageVariable d
  stageFunctions.foldlM addStageFunction d

end Declarations

end Shading
