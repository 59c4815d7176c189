import Shading.Arithmetic
import Shading.Json
import Shading.Stage

/-!
# Options of a compilation

The options say which stage a shader is compiled for, where its
variables are placed, whether a listing is kept, and how much local
memory an object has at least. They are read from a JSON document that
is an object with any of the four fields, or an array that gives them in
order.
-/

namespace Shading

/-- **Where variables are placed.** -/
inductive PlacementPolicy where
  /-- Every variable in memory. -/
  | memoryFirst
  /-- A variable in a register while one of its class is free. -/
  | registerFirst
deriving DecidableEq

namespace PlacementPolicy

/-- The name a document calls the policy by. -/
def name : PlacementPolicy → String
  | memoryFirst => "MemoryFirst"
  | registerFirst => "RegisterFirst"

/-- The policy with a given name. -/
def ofName? (s : String) : Option PlacementPolicy :=
  [memoryFirst, registerFirst].find? (fun p => p.name == s)

end PlacementPolicy

/-- **The options of a compilation.** -/
structure Options where
  stage : Stage := .vertex
  placement : PlacementPolicy := .memoryFirst
  /-- Whether a line is kept for every emitted instruction. -/
  keepListing : Bool := true
  /-- The least size in bytes of an object's local region. -/
  localMemoryFloor : Nat := 256
deriving DecidableEq

namespace Options

/-- The name that a document gives to one of several choices: a string,
or an object whose one member has the name for its key and no value. -/
def choiceName? : Json → Option String
  | .string s => s
  | .object [(key, .null)] => key
  | _ => none

/-- The value of a truth value. -/
def bool? : Json → Option Bool
  | .bool b => some b
  | _ => none

/-- The value of a number that fits 32 bits. -/
def floor? (j : Json) : Option Nat :=
  j.nat?.filter (· < 2 ^ 32)

/-- The names of the fields, in the order an array gives them. -/
def fieldNames : List String :=
  ["stage", "placement", "keep_listing", "local_memory_floor"]

/-- The options with one field replaced by what a document gives. -/
def setField (o : Options) (field : String) (value : Json) : Option Options :=
  if field = "stage" then
    ((choiceName? value).bind Stage.ofName?).map (fun s => { o with stage := s })
  else if field = "placement" then
    ((choiceName? value).bind PlacementPolicy.ofName?).map (fun p => { o with placement := p })
  else if field = "keep_listing" then
    (bool? value).map (fun b => { o with keepListing := b })
  else if field = "local_memory_floor" then
    (floor? value).map (fun n => { o with localMemoryFloor := n })
  else some o

/-- The options with several fields replaced. -/
def setFields (o : Options) : List (String × Json) → Option Options
  | [] => some o
  | (field, value) :: rest => (o.setField field value).bind (fun o => o.setFields rest)

/-- **The options that a document gives.** Fields of other names are
passed over, and a field of the four may stand at most once. -/
def ofJson? : Json → Option Options
  | .object members => do
    let named ← members.mapM (fun m => m.1.map (fun key => (key, m.2)))
    let known := (named.map Prod.fst).filter fieldNames.contains
    if known.Nodup then setFields {} named else none
  | .array values =>
    if values.length ≤ fieldNames.length then setFields {} (fieldNames.zip values) else none
  | _ => none

/-- The options that the text of a document gives. -/
def parse (text : String) : Except Error Options :=
  match (Json.ofChars? text.toList).bind ofJson? with
  | some o => .ok o
  | none => .error .configuration

end Options

end Shading
