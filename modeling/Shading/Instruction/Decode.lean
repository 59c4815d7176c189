import Shading.Instruction

/-!
# Reading instructions

The reader takes one instruction from the start of some bytes. It knows
the opcodes in use, in every operand form, and the jumps, calls and
returns between them.
-/

namespace Shading

/-- **One step of a program**, as it is read from its bytes. -/
inductive Decoded where
  /-- An instruction with operands; a global operand carries its
  displacement field. -/
  | op (i : Instruction Nat)
  /-- Jumps by a signed distance from the next instruction. -/
  | jump (form : JumpForm) (distance : Int)
  /-- Calls what stands at a signed distance from the next
  instruction. -/
  | call (distance : Int)
  | ret
  | cdq
deriving DecidableEq

namespace Decoded

/-- Splits off so many bytes. -/
def take? (count : Nat) (bs : List UInt8) : Option (List UInt8 × List UInt8) :=
  if count ≤ bs.length then some (bs.take count, bs.drop count) else none

/-- Reads the operand that a mode byte announces. -/
def operand? (mode : UInt8) (bs : List UInt8) : Option (Operand Nat × List UInt8) :=
  let rm := mode.toNat % 8
  match mode.toNat / 64 with
  | 3 => some (.register rm, bs)
  | 2 =>
    if rm = localBaseRegister then
      (take? 4 bs).map (fun r => (.localAt (ofLittleEndian r.1), r.2))
    else none
  | 0 =>
    if rm = 5 then (take? 4 bs).map (fun r => (.globalAt (ofLittleEndian r.1), r.2))
    else if rm = 4 then none
    else some (.indirect rm, bs)
  | _ => none

/-- Reads an instruction as one of a given opcode, and what follows
it. -/
def readAs? (o : Opcode) (bs : List UInt8) : Option (Instruction Nat × List UInt8) :=
  if o.header.isPrefixOf bs then
    match bs.drop o.header.length with
    | [] => none
    | mode :: bs =>
      let field := mode.toNat / 8 % 8
      if o.form.digit.all (· == field) then do
        let (rm, bs) ← operand? mode bs
        let (immediate, bs) ← take? o.form.immediate bs
        return (⟨o, field, rm, immediate⟩, bs)
      else none
  else none

/-- Reads a jump, call or return, or the sign extension of `eax`, and
what follows it. -/
def readControl? : List UInt8 → Option (Decoded × List UInt8)
  | 0xC3 :: bs => some (.ret, bs)
  | 0x99 :: bs => some (.cdq, bs)
  | 0xE8 :: bs => (take? 4 bs).map (fun r => (.call (signedValue 32 (ofLittleEndian r.1)), r.2))
  | 0xE9 :: bs =>
    (take? 4 bs).map (fun r => (.jump .always (signedValue 32 (ofLittleEndian r.1)), r.2))
  | 0x0F :: b :: bs =>
    if b.toNat / 16 = 8 then do
      let c ← Condition.ofCode? (b - 0x80)
      let (d, bs) ← take? 4 bs
      return (.jump (.when c) (signedValue 32 (ofLittleEndian d)), bs)
    else none
  | b :: d :: bs =>
    if b.toNat / 16 = 7 then
      (Condition.ofCode? (b - 0x70)).map
        (fun c => (.jump (.shortWhen c) (signedValue 8 d.toNat), bs))
    else none
  | _ => none

/-- **Reads one instruction**, and what follows it. -/
def read? (bs : List UInt8) : Option (Decoded × List UInt8) :=
  match readControl? bs with
  | some r => some r
  | none => (Opcode.all.findSome? (fun o => readAs? o bs)).map (fun r => (.op r.1, r.2))

/-- Reads instructions to the end of the bytes, at most as many as
`budget` says. -/
def readAllWithin : (budget : Nat) → List UInt8 → Option (List Decoded)
  | _, [] => some []
  | 0, _ => none
  | budget + 1, bs => do
    let (d, bs) ← read? bs
    let ds ← readAllWithin budget bs
    return d :: ds

/-- **Reads bytes as a sequence of instructions** that fill them. -/
def readAll? (bs : List UInt8) : Option (List Decoded) := readAllWithin bs.length bs

end Decoded

end Shading
