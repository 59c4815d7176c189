import Shading.Assembly

/-!
# Code as bytes

A `CodeBuffer` holds the code of a function as it stands in memory: the
bytes so far, the open references to global memory, and the listing. A
jump is written with zeros for its distance, and its *site* is given
out: where the field of the distance stands, and how wide it is.
*Binding* a site overwrites that field with the distance to the end of
the code.

An operation may fail, and leaves a buffer whether it does or not.
-/

namespace Shading

/-- **A jump whose distance is open.** -/
structure PatchSite where
  /-- Where the field of the distance stands in the code. -/
  position : Nat
  /-- The bytes of the field. -/
  width : Nat
  label : Nat
deriving DecidableEq

/-- **The code of a function as bytes.** -/
structure CodeBuffer where
  /-- Whether a line is kept for every instruction. -/
  keepListing : Bool
  code : List UInt8 := []
  relocations : List Relocation := []
  listing : List String := []
  /-- The number of labels given out. -/
  labels : Nat := 0
deriving DecidableEq

/-- **An operation on a buffer.** -/
abbrev Writing (α : Type) := EStateM Error CodeBuffer α

namespace CodeBuffer

/-! ## Writing -/

/-- Adds bytes to the code. -/
def push (bytes : List UInt8) : Writing Unit := modify fun b => { b with code := b.code ++ bytes }

/-- Adds a line to the listing, if one is kept. -/
def note (text : String) : Writing Unit :=
  modify fun b => if b.keepListing then { b with listing := b.listing ++ [text] } else b

/-- Writes an instruction. A global operand is left open, and listed as a
relocation. -/
def encode (i : Instruction Nat) (text : String) : Writing Unit := do
  let start := (← get).code.length
  push i.encode
  modify fun b => { b with relocations := b.relocations ++ (i.relocation? start).toList }
  note text

/-- Writes bytes as they are. -/
def raw (bytes : List UInt8) (text : String) : Writing Unit := do
  push bytes
  note text

/-- Writes a call, and gives the offset of its distance. -/
def call (target : String) : Writing Nat := do
  push [0xE8]
  let position := (← get).code.length
  push [0, 0, 0, 0]
  note ("call " ++ target)
  return position

/-- Writes a jump to a new label, and gives its site. -/
def jump (form : JumpForm) : Writing PatchSite := do
  modify fun b => { b with labels := b.labels + 1 }
  push form.header
  let b ← get
  push (List.replicate form.width 0)
  note (form.mnemonic ++ " " ++ CodeEntry.labelText b.labels)
  return { position := b.code.length, width := form.width, label := b.labels }

/-- Overwrites so many bytes with a distance that they can hold. -/
def patch (position width : Nat) (distance : Int) (fault : LayoutFault) : Writing Unit :=
  if fitsSigned (8 * width) distance then
    modify fun b => { b with code := overwrite b.code position (littleEndian width (wordOfInt distance)) }
  else throw (.layout fault)

/-- **Points a jump at the end of the code.** -/
def bind (site : PatchSite) : Writing Unit := do
  let start := site.position + site.width
  let distance : Int := ((← get).code.length : Int) - start
  match site.width with
  | 1 => patch site.position 1 distance (.shortJump distance)
  | _ => patch site.position 4 distance (.longJump distance)
  note (CodeEntry.labelText site.label ++ ":")

/-! ## Sequences of writing -/

/-- Points the jump of a label at the end of the code, if its site is at
hand. -/
def bindAmong (sites : List PatchSite) (label : Nat) : Writing Unit :=
  match sites.find? fun site => site.label == label with
  | some site => bind site
  | none => pure ()

/-- Carries out an act of writing. The sites given out before it are at
hand, in their order, and a jump adds its own. -/
def act (sites : List PatchSite) : Assembly.Action → Writing (List PatchSite)
  | .emit i text => do
    encode i text
    return sites
  | .raw bytes text => do
    raw bytes text
    return sites
  | .ret => do
    raw [0xC3] "ret"
    return sites
  | .cdq => do
    raw [0x99] "cdq"
    return sites
  | .call target => do
    let _ ← call target
    return sites
  | .jump form => return sites ++ [← jump form]
  | .bind label => do
    bindAmong sites label
    return sites

/-- Where writing stands after an act. One that failed gives out no site,
and writing goes on from the buffer that it left. -/
def resume (sites : List PatchSite) :
    EStateM.Result Error CodeBuffer (List PatchSite) → CodeBuffer × List PatchSite
  | .ok sites b => (b, sites)
  | .error _ b => (b, sites)

/-- The buffer and the sites behind an act of writing. -/
def next (state : CodeBuffer × List PatchSite) (action : Assembly.Action) : CodeBuffer × List PatchSite :=
  resume state.2 (act state.2 action state.1)

/-- **The buffer and the sites behind some acts of writing.** -/
def afterAll (b : CodeBuffer) (actions : List Assembly.Action) : CodeBuffer × List PatchSite :=
  actions.foldl next (b, [])

end CodeBuffer

end Shading
