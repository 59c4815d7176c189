import Shading.Lowering
import Shading.Proofs.Machine.Access
import Shading.Proofs.Typing

/-!
# The slots of memory

Memory is handed out in slots. A transcript tells which slots of local
memory are in use at each moment of a lowering, which slots of global
memory were handed out to save registers in, and of which slot an address
register holds an address: `lea` takes an address within a slot, and
`add64` carries it over to the register that an index was scaled in.

A slot is there for a use (`SlotUse`). What a lowering may do with memory
is a matter of that use: it reads any slot, and writes all but those of
constants and of variables that the code does not assign.
-/

namespace Shading

/-- **A stretch of memory** that was handed out as a whole. -/
structure Slot where
  region : Region
  offset : Nat
  size : Nat
deriving DecidableEq

namespace Slot

/-- The offset behind a slot. -/
def stop (s : Slot) : Nat := s.offset + s.size

/-- So many bytes from an offset of a region on lie in a slot. -/
def Holds (s : Slot) (r : Region) (offset count : Nat) : Prop :=
  s.region = r ∧ s.offset ≤ offset ∧ offset + count ≤ s.stop

/-- Two slots share no byte. -/
def Apart (s t : Slot) : Prop := s.region = t.region → s.stop ≤ t.offset ∨ t.stop ≤ s.offset

/-- The slot among some that an offset of a region lies in. -/
def at? (slots : List Slot) (r : Region) (offset : Nat) : Option Slot :=
  slots.find? fun s => s.region = r && s.offset ≤ offset && offset < s.stop

theorem mem_of_at? {slots : List Slot} {r : Region} {offset : Nat} {s : Slot}
    (h : at? slots r offset = some s) : s ∈ slots := List.mem_of_find?_eq_some h

end Slot

/-- The slot of so many bytes at a location, if it is one of memory at a
known offset. -/
def Location.slot? (size : Nat) : Location → Option Slot
  | .globalMemory offset => some ⟨.global, offset, size⟩
  | .localMemory offset => some ⟨.local, offset, size⟩
  | _ => Option.none

/-- The place of an operand in memory at a known offset. -/
def Operand.place? : Operand Nat → Option (Region × Nat)
  | .globalAt offset => some (.global, offset)
  | .localAt offset => some (.local, offset)
  | _ => none

/-! ## What a transcript tells

A transcript lists the last event first. -/

namespace Transcript

/-- The slots that were placed in each open scope, innermost first. -/
def frames : List LoweringEvent → List (List Slot)
  | [] => []
  | .opened _ _ :: es => [] :: frames es
  | .closed id _ :: es => (frames es).eraseIdx ((frames es).length - 1 - id)
  | .placed id ty location :: es =>
    (frames es).modify ((frames es).length - 1 - id) ((location.slot? ty.size).toList ++ ·)
  | _ :: es => frames es

/-- The slots in use in the open scopes. -/
def live (es : List LoweringEvent) : List Slot := (frames es).flatten

/-- **The temporaries**: the slots of all open scopes but the outermost,
which is that of a function's variables. -/
def temporaries (es : List LoweringEvent) : List Slot := (frames es).dropLast.flatten

/-- The slots that registers were saved in. -/
def spills (es : List LoweringEvent) : List Slot :=
  es.filterMap fun e => match e with
    | .leased lease _ => lease.location.registerOf?.bind fun (c, _) =>
        lease.spill.bind (Location.slot? c.spillSize)
    | _ => none

/-- The instructions that were emitted, in their order. -/
def emitted : List LoweringEvent → List (Instruction Nat)
  | [] => []
  | .emitted i _ :: es => emitted es ++ [i]
  | _ :: es => emitted es

/-- **The slot that an address register points into**, if an address was
put there: that of the operand of a `lea`, and after an `add64` that of
the register which was added. -/
def origin? (globals : List Slot) : List LoweringEvent → Nat → Option Slot
  | [], _ => none
  | .emitted i _ :: es, id =>
    if id = i.reg then
      match i.opcode, i.rm with
      | .lea, rm => rm.place?.bind fun (r, offset) => Slot.at? (live es ++ globals) r offset
      | .add64, .register base => origin? globals es base
      | _, _ => origin? globals es id
    else origin? globals es id
  | _ :: es, id => origin? globals es id

/-- **The container** that an instruction indexes: the slot that its
address register points into. -/
def container? (globals : List Slot) (es : List LoweringEvent) (i : Instruction Nat) :
    Option Slot :=
  match i.rm with
  | .indirect id => origin? globals es id
  | _ => none

/-- The containers of the instructions that were emitted, in their
order. -/
def containers (globals : List Slot) : List LoweringEvent → List (Option Slot)
  | [] => []
  | .emitted i _ :: es => containers globals es ++ [container? globals es i]
  | _ :: es => containers globals es

/-- **An instruction that was emitted** was so at some point. -/
theorem exists_suffix_of_mem_emitted {i : Instruction Nat} : ∀ {es : List LoweringEvent}, i ∈ emitted es →
    ∃ es' l, (.emitted i l :: es') <:+ es
  | [], mem => by cases mem
  | e :: es, mem => by
    have later (mem : i ∈ emitted es) : ∃ es' l, (.emitted i l :: es') <:+ e :: es := by
      obtain ⟨es', l, suffix⟩ := exists_suffix_of_mem_emitted mem
      exact ⟨es', l, suffix.trans (List.suffix_cons _ _)⟩
    cases e with
    | emitted j l =>
      rcases List.mem_append.1 mem with old | new
      · exact later old
      · rw [List.mem_singleton.1 new]
        exact ⟨es, l, List.suffix_rfl⟩
    | _ => exact later mem

theorem frames_closed {id : ScopeId} {scope : TemporaryScope} {es : List LoweringEvent}
    (last : (frames es).length = id + 1) : frames (.closed id scope :: es) = (frames es).tail := by
  rw [frames, last, Nat.add_sub_cancel, Nat.sub_self, List.eraseIdx_zero]

theorem length_containers (globals : List Slot) (es : List LoweringEvent) :
    (containers globals es).length = (emitted es).length := by
  induction es with
  | nil => rfl
  | cons e es ih => cases e <;> simp [containers, emitted, ih]

end Transcript

/-! ## Uses -/

/-- **What a slot is there for.** -/
inductive SlotUse where
  /-- A variable. -/
  | symbol (id : SymbolId)
  /-- A temporary of an open scope. -/
  | temporary
  /-- A place to save a register in. -/
  | spill
  /-- A scratch word of divisions. -/
  | division
  | constant

/-- Whether code that assigns some variables writes slots of a use. -/
def SlotUse.Writable (assigned : SymbolId → Prop) : SlotUse → Prop
  | symbol id => assigned id
  | temporary | spill | division => True
  | constant => False

/-- **The slots there are** at some point of the code of a function, with
their uses. -/
inductive Uses (d : Declarations) (f : Option FunctionId) (pool : ConstantPool)
    (division : Option DivisionSlots) (es : List LoweringEvent) : SlotUse → Slot → Prop where
  | symbol {id : SymbolId} {v : Symbol} {slot : Slot} (known : d.symbols.get? id = some v)
      (isVariable : v.kind = .variable) (visible : v.VisibleIn f)
      (place : v.location.slot? v.ty.size = some slot) : Uses d f pool division es (.symbol id) slot
  | temporary {slot : Slot} (live : slot ∈ Transcript.temporaries es) (own : slot.region = .local) :
      Uses d f pool division es .temporary slot
  | spill {slot : Slot} (saved : slot ∈ Transcript.spills es) :
      Uses d f pool division es .spill slot
  | division {slots : DivisionSlots} {location : Location} {slot : Slot} (known : division = some slots)
      (one : location = slots.eax ∨ location = slots.edx ∨ location = slots.divisor)
      (place : location.slot? 4 = some slot) : Uses d f pool division es .division slot
  | constant {c : Constant} {offset : Nat} (pooled : (c, offset) ∈ pool.slots) :
      Uses d f pool division es .constant ⟨.global, offset, c.size⟩

/-- Slots stay while constants and division slots are added. -/
theorem Uses.mono {d : Declarations} {f : Option FunctionId} {pool pool' : ConstantPool}
    {division division' : Option DivisionSlots} {es : List LoweringEvent} {use : SlotUse} {slot : Slot}
    (h : Uses d f pool division es use slot) (constants : ∀ c ∈ pool.slots, c ∈ pool'.slots)
    (divisions : ∀ x, division = some x → division' = some x) :
    Uses d f pool' division' es use slot := by
  cases h with
  | symbol known isVariable visible place => exact .symbol known isVariable visible place
  | temporary live own => exact .temporary live own
  | spill saved => exact .spill saved
  | division known one place => exact .division (divisions _ known) one place
  | constant pooled => exact .constant (constants _ pooled)

/-! ## Instructions -/

/-- Whether an opcode computes in its operand, or takes more of it than a
slot of its type has: such an operand is a register. -/
def Opcode.onRegister : Opcode → Bool
  | neg | xorImm8 | imulImm64 | add64 | addImm64 | psrldq | pslldq => true
  | _ => false

/-- The bytes of a region that were ever handed out. -/
def Layout.sizeOf (l : Layout) : Region → Nat
  | .global => l.globalSize
  | .local => l.localSize

/-- **What a lowering may emit** where there are certain slots: an
instruction that its bytes can tell, that leaves the base of the local
region alone, and whose operand in memory at a known offset lies in one
slot, which may be written if it writes it. -/
structure Instruction.Allowed (uses : SlotUse → Slot → Prop) (assigned : SymbolId → Prop)
    (l : Layout) (i : Instruction Nat) : Prop where
  reg : i.reg < 8
  immediate : i.immediate.length = i.opcode.form.immediate
  register : ∀ id, i.rm = .register id → id < 8
  address : ∀ id, i.rm = .indirect id → id ∈ RegisterClass.general.pool
  whole : i.opcode.onRegister = true → ∃ id, i.rm = .register id
  spares : ¬ Machine.writesGeneral i localBaseRegister
  slot : ∀ r o, i.rm.place? = some (r, o) → ∃ use slot, uses use slot ∧
    slot.Holds r o i.opcode.reach ∧ slot.stop ≤ l.sizeOf r ∧
    (i.opcode.writesOperand = true → use.Writable assigned)
  aligned : i.opcode.isAligned = true → ∀ r o, i.rm.place? = some (r, o) → o % 16 = 0

theorem Instruction.Allowed.mono {uses uses' : SlotUse → Slot → Prop} {assigned : SymbolId → Prop}
    {l : Layout} {i : Instruction Nat} (h : i.Allowed uses assigned l)
    (sub : ∀ use slot, uses use slot → uses' use slot) : i.Allowed uses' assigned l :=
  { h with
    slot := fun r o place => by
      obtain ⟨use, slot, known, rest⟩ := h.slot r o place
      exact ⟨use, slot, sub _ _ known, rest⟩ }

end Shading
