import Shading.Machine.Step
import Shading.Object

/-!
# Executing objects

An execution starts the machine at the entry point of an object, with
the object's block for its memory. What the shader writes stays in the
block for the next execution; registers do not.
-/

namespace Shading

/-- **What the host brings to an execution**: where the block stands, how
the processor takes reciprocal square roots, and what the registers hold
at the start. -/
structure Host where
  base : Nat := 0x7F0000000000
  rsqrt : Word → Word := Binary32.rsqrt
  registers : Registers := {}

/-- **What an execution comes to.** -/
inductive Execution where
  | finished (o : Object)
  | refused (e : Error)
  | fault (f : Fault)
  /-- The steps were used up. -/
  | unfinished

namespace Object

/-- The offset of the function that an execution starts. -/
def entry? (o : Object) : Option Nat :=
  (o.functions.find? (fun f => f.isExported && f.name == entryPoint)).map ObjectFunction.offset

/-- The machine at the start of an execution. -/
def machine (o : Object) (h : Host) (entry : Nat) : Machine :=
  { base := h.base, block := o.block, ip := entry, registers := h.registers }

/-- **Executes an object.** Code without backward jumps carries out each
of its instructions at most once, so the size of the block bounds the
steps. -/
def execute (o : Object) (h : Host := {}) : Execution :=
  match o.entry? with
  | none => .refused .missingEntryPoint
  | some entry =>
    match o.block.checkEntry entry with
    | .error e => .refused e
    | .ok () =>
      match Machine.run h.rsqrt o.block.size (o.machine h entry) with
      | .returned m => .finished { o with block := m.block }
      | .fault f => .fault f
      | .unfinished => .unfinished

end Object

end Shading
