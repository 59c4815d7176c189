import Shading.Error
import Shading.Instruction

/-!
# Assembly of one function

The code of a function is assembled entry by entry. References to global
memory are left open until the function has its place in the object, and
are listed as relocations. A jump is written before its target is known;
*binding* its label points it at the code that follows.

The bytes, the relocations and the listing are views of the entries.
-/

namespace Shading

/-- **One entry of a function's code.** -/
inductive CodeEntry where
  /-- An instruction, whose global operand names an offset in the
  object, with its line in the listing. -/
  | instruction (i : Instruction Nat) (text : String)
  /-- Bytes written as they are. -/
  | raw (bytes : List UInt8) (text : String)
  | ret
  | cdq
  /-- A call whose distance is filled in when the object is built. -/
  | call (target : String)
  /-- A jump with the number of its label, and the distance it was last
  bound to. -/
  | jump (form : JumpForm) (label : Nat) (distance : Int)
  /-- The point at which a label was bound. -/
  | mark (label : Nat)
deriving DecidableEq

namespace CodeEntry

/-- The bytes of an entry. -/
def bytes : CodeEntry → List UInt8
  | instruction i _ => i.encode
  | raw bytes _ => bytes
  | ret => [0xC3]
  | cdq => [0x99]
  | call _ => 0xE8 :: wordBytes 0
  | jump form _ distance => form.header ++ littleEndian form.width (wordOfInt distance)
  | mark _ => []

/-- The number of bytes of an entry. -/
def size (e : CodeEntry) : Nat := e.bytes.length

/-- A label in a listing. -/
def labelText (label : Nat) : String := ".L" ++ Text.ofNat label

/-- The line of an entry in a listing. -/
def text : CodeEntry → String
  | instruction _ text => text
  | raw _ text => text
  | ret => "ret"
  | cdq => "cdq"
  | call target => "call " ++ target
  | jump form label _ => form.mnemonic ++ " " ++ labelText label
  | mark label => labelText label ++ ":"

end CodeEntry

/-- **An open reference to global memory.** -/
structure Relocation where
  /-- Where the displacement stands in the code. -/
  position : Nat
  /-- The offset in the object that it refers to. -/
  target : Nat
  /-- The end of the instruction, from which the displacement counts. -/
  next : Nat
deriving DecidableEq

/-- The relocation of an instruction that starts at an offset. -/
def Instruction.relocation? (start : Nat) (i : Instruction Nat) : Option Relocation :=
  match i.rm with
  | .globalAt target =>
    let next := start + i.encode.length
    some ⟨next - i.immediate.length - 4, target, next⟩
  | _ => none

/-- **The code of a function as it is assembled.** -/
structure Assembly where
  /-- Whether a line is kept for every entry. -/
  keepListing : Bool
  entries : List CodeEntry := []
  /-- The number of labels given out. -/
  labels : Nat := 0
deriving DecidableEq

namespace Assembly

/-! ## Views -/

/-- The bytes of the code. -/
def code (a : Assembly) : List UInt8 := a.entries.flatMap CodeEntry.bytes

/-- The number of bytes of some entries. -/
def sizeOf (entries : List CodeEntry) : Nat := (entries.map CodeEntry.size).sum

/-- The number of bytes of the code. -/
def size (a : Assembly) : Nat := sizeOf a.entries

/-- The relocations of entries from an offset on. -/
def relocationsFrom (start : Nat) : List CodeEntry → List Relocation
  | [] => []
  | e :: es =>
    let rest := relocationsFrom (start + e.size) es
    match e with
    | .instruction i _ => (i.relocation? start).toList ++ rest
    | _ => rest

/-- The open references of the code, in their order. -/
def relocations (a : Assembly) : List Relocation := relocationsFrom 0 a.entries

/-- The lines of the listing, if it is kept. -/
def listing (a : Assembly) : List String :=
  if a.keepListing then a.entries.map CodeEntry.text else []

theorem length_code (a : Assembly) : a.code.length = a.size := by
  rw [code, List.length_flatMap]
  rfl

/-! ## Writing -/

/-- Writes an entry. -/
def write (a : Assembly) (e : CodeEntry) : Assembly := { a with entries := a.entries ++ [e] }

@[simp] theorem code_write (a : Assembly) (e : CodeEntry) :
    (a.write e).code = a.code ++ e.bytes := by
  simp [write, code]

/-- Writes an instruction with its line. -/
def emit (a : Assembly) (i : Instruction Nat) (text : String) : Assembly :=
  a.write (.instruction i text)

/-- Writes a call, and gives the offset of its distance. -/
def call (a : Assembly) (target : String) : Nat × Assembly :=
  (a.size + 1, a.write (.call target))

/-- Writes a jump to a new label, and gives the number of the label. -/
def jump (a : Assembly) (form : JumpForm) : Nat × Assembly :=
  let label := a.labels + 1
  (label, { a with entries := a.entries ++ [.jump form label 0], labels := label })

/-- The form of the jump to a label and the offset of its end, counted
from `start`. -/
def findJump? (label : Nat) (start : Nat) : List CodeEntry → Option (JumpForm × Nat)
  | [] => none
  | e :: es =>
    match e with
    | .jump form l _ =>
      if l = label then some (form, start + e.size) else findJump? label (start + e.size) es
    | _ => findJump? label (start + e.size) es

/-- Sets the distance of the jump to a label. -/
def setDistance (label : Nat) (distance : Int) : CodeEntry → CodeEntry
  | .jump form l d => .jump form l (if l = label then distance else d)
  | e => e

/-- **Binds a label to the end of the code.** A distance that its jump
cannot hold is refused, and a label of no jump is passed over. -/
def bind (a : Assembly) (label : Nat) : Except Error Assembly :=
  match findJump? label 0 a.entries with
  | none => .ok a
  | some (form, stop) =>
    let distance : Int := (a.size : Int) - stop
    if fitsSigned (8 * form.width) distance then
      .ok { a with entries := a.entries.map (setDistance label distance) ++ [.mark label] }
    else
      .error (.layout (if form.width = 1 then .shortJump distance else .longJump distance))

/-! ## Sequences of writing -/

/-- **One act of writing code.** -/
inductive Action where
  | emit (i : Instruction Nat) (text : String)
  | raw (bytes : List UInt8) (text : String)
  | ret
  | cdq
  | call (target : String)
  | jump (form : JumpForm)
  | bind (label : Nat)

/-- The code after an act of writing. -/
def step (a : Assembly) : Action → Except Error Assembly
  | .emit i text => .ok (a.emit i text)
  | .raw bytes text => .ok (a.write (.raw bytes text))
  | .ret => .ok (a.write .ret)
  | .cdq => .ok (a.write .cdq)
  | .call target => .ok (a.call target).2
  | .jump form => .ok (a.jump form).2
  | .bind label => a.bind label

/-- The code after some acts, of which those that fail change
nothing. -/
def afterAll (a : Assembly) (actions : List Action) : Assembly :=
  actions.foldl (fun a action => match a.step action with | .ok a => a | .error _ => a) a

end Assembly

/-! ## Linking -/

/-- Overwrites bytes from a position on. -/
def overwrite (bytes : List UInt8) (position : Nat) (new : List UInt8) : List UInt8 :=
  bytes.take position ++ new ++ bytes.drop (position + new.length)

/-- **Fills in the open references** of code that starts at an offset of
the object. -/
def applyRelocations (base : Nat) : List Relocation → List UInt8 → Except Error (List UInt8)
  | [], code => .ok code
  | r :: rs, code =>
    let distance : Int := (r.target : Int) - (base + r.next : Nat)
    if fitsSigned 32 distance then
      applyRelocations base rs (overwrite code r.position (wordBytes (wordOfInt distance)))
    else .error (.layout (.relocation distance))

end Shading
