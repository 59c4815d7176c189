import Shading.Proofs.Discipline.Slots
import Shading.Proofs.Lowering.Course
import Shading.Proofs.Machine.TwinStores

/-!
# Pairs of runs

Two runs of the same code are followed side by side, entry by entry and
before the code has its place in an object: an instruction names the
offset of its global operand, and a jump that is taken passes over the
entries in front of its mark. Jumps of assembled code lead forward, so
one pass over the entries is a run.

A `Regime` says which pairs of machines start, and which accesses through
address registers their runs may make. A pair stops where the first run
faults or makes an access that is not permitted. It *parts* where the
first run goes on and the second one does not follow, and where a packed
operand is not aligned. That no pair parts is what the course of a
lowering carries along.
-/

namespace Shading

/-! ## Instructions before they are placed -/

namespace Instruction

/-- The offset that the operand of an instruction counts from: a global
operand stands there itself. -/
def anchor (i : Instruction Nat) : Nat :=
  match i.rm with
  | .globalAt offset => offset
  | _ => 0

/-- The instruction with its operand at its anchor. -/
def anchored (i : Instruction Nat) : Instruction Nat := i.map fun _ => 0

end Instruction

namespace Machine

/-- **Carries out an instruction that has no place yet.** -/
def perform (rsqrt : Word → Word) (m : Machine) (i : Instruction Nat) : Except Fault Machine :=
  m.execute rsqrt i.anchor i.anchored

/-- The address of its operand. -/
def operandAddress? (m : Machine) (i : Instruction Nat) : Option Nat :=
  m.address? i.anchor i.anchored.rm

/-- Whether the operand of a packed instruction is not aligned. -/
def isMisaligned (m : Machine) (i : Instruction Nat) : Bool :=
  i.opcode.isAligned && (m.operandAddress? i).any fun a => a % 16 != 0

/-- The sign extension of `eax` into `edx`. -/
def extendSign (m : Machine) : Machine :=
  m.setGeneral32 2 (if Binary32.isNegative (m.general32 0) then 0xFFFFFFFF else 0)

end Machine

/-- Whether a jump is taken. -/
def JumpForm.taken (form : JumpForm) (flags : Flags) : Bool :=
  match form with
  | .always => true
  | .when c | .shortWhen c => c.holds flags

/-! ## Regimes -/

/-- **What pairs of runs have in common**: where the block stands and how
it is divided, which machines start, and which accesses through address
registers are permitted. -/
structure Regime where
  rsqrt : Word → Word
  /-- The address of the block. -/
  base : Nat
  /-- The size of the block. -/
  size : Nat
  globalSize : Nat
  localOffset : Nat
  localSize : Nat
  /-- The slots of the global variables. -/
  globals : List Slot
  /-- The constants that the block holds. -/
  constants : List (Constant × Nat)
  /-- The variables that the code assigns. -/
  assigned : SymbolId → Prop
  start : Machine → Machine → Prop
  /-- Whether a machine may carry out an instruction whose address register
  points into a container. -/
  permits : Machine → Instruction Nat → Option Slot → Bool

namespace Regime

/-- The offset in the block of an offset of a region. -/
def offsetOf (R : Regime) : Region → Nat → Nat
  | .global, offset => offset
  | .local, offset => R.localOffset + offset

/-- The bytes of a slot. -/
def bytesOf (R : Regime) (s : Slot) (k : Nat) : Prop :=
  R.offsetOf s.region s.offset ≤ k ∧ k < R.offsetOf s.region s.offset + s.size

/-- A machine has the block where the regime says, and the base of the
local region in its register. -/
structure Grounds (R : Regime) (m : Machine) : Prop where
  base : m.base = R.base
  size : m.block.size = R.size
  localBase : (m.general64 localBaseRegister).toNat = R.base + R.localOffset

/-- A machine holds the constants. -/
def HoldsConstants (R : Regime) (m : Machine) : Prop :=
  ∀ c ∈ R.constants, ∀ i < c.1.size, m.block.get (c.2 + i) = c.1.bytes.getD i 0

/-- The runs of a pair are the same. -/
def Identical (R : Regime) : Prop := ∀ a b, R.start a b → a = b

/-- The runs keep to the containers that they index. -/
structure Contained (R : Regime) : Prop where
  constants : ∀ a b, R.start a b → R.HoldsConstants a ∧ R.HoldsConstants b
  inside : ∀ m i c id, R.permits m i c = true → i.rm = .indirect id → i.opcode.reach ≠ 0 →
    ∃ slot, c = some slot ∧ R.base + R.offsetOf slot.region slot.offset ≤ (m.general64 id).toNat ∧
      (m.general64 id).toNat + i.opcode.reach ≤
        R.base + R.offsetOf slot.region slot.offset + slot.size

/-- **The block has room** for both regions, and displacements and addresses
for the block. -/
structure Fits (R : Regime) : Prop where
  inside : R.localOffset + R.localSize ≤ R.size
  reach : R.localOffset + R.localSize ≤ 2 ^ 32
  whole : R.base + R.size ≤ 2 ^ 63

/-- **A regime in good order.** -/
structure Sound (R : Regime) : Prop where
  aligned : R.base % 16 = 0
  localAligned : R.localOffset % 16 = 0
  behind : R.globalSize ≤ R.localOffset
  global : ∀ slot ∈ R.globals, slot.region = .global ∧ slot.stop ≤ R.globalSize
  apart : R.globals.Pairwise Slot.Apart
  /-- The constants lie behind the global variables. -/
  pooled : ∀ c ∈ R.constants, c.2 + c.1.size ≤ R.globalSize ∧ ∀ slot ∈ R.globals, slot.stop ≤ c.2
  grounds : ∀ a b, R.start a b → R.Grounds a ∧ R.Grounds b
  kind : R.Identical ∨ R.Contained

end Regime

/-! ## Runs -/

/-- **How far a pair of runs has come.** -/
inductive Pair where
  | running (a b : Machine)
  /-- Both have taken a jump, and its mark is not reached yet. -/
  | seeking (label : Nat) (a b : Machine)
  | returned (a b : Machine)
  /-- The first run faulted, or it made an access that is not permitted. -/
  | stopped
  /-- The second run did not follow the first one, or a packed operand was
  not aligned. -/
  | parted

/-- **An entry of code with the container it indexes**, if it is an
instruction that indexes one. -/
abbrev Indexed := CodeEntry × Option Slot

namespace Pair

/-- **A pair of runs carries out an instruction.** -/
def perform (R : Regime) (a b : Machine) (i : Instruction Nat) (c : Option Slot) : Pair :=
  if R.permits a i c then
    if 2 ^ 32 ≤ R.base && a.isMisaligned i then parted
    else
      match a.perform R.rsqrt i, b.perform R.rsqrt i with
      | .ok a, .ok b => running a b
      | .error _, _ => stopped
      | .ok _, .error _ => parted
  else stopped

/-- **A pair of runs passes an entry.** The call that starts a function is
over when the runs begin. -/
def step (R : Regime) : Pair → Indexed → Pair
  | running a b, (.instruction i _, c) => perform R a b i c
  | running _ _, (.raw _ _, _) => stopped
  | running a b, (.ret, _) => returned a b
  | running a b, (.cdq, _) => running a.extendSign b.extendSign
  | running a b, (.jump form label _, _) =>
    if form.taken a.registers.flags = form.taken b.registers.flags then
      if form.taken a.registers.flags then seeking label a b else running a b
    else parted
  | running a b, (.call _, _) | running a b, (.mark _, _) => running a b
  | seeking label a b, (.mark l, _) => if l = label then running a b else seeking label a b
  | pair, _ => pair

/-- **A pair of runs over some code.** -/
def run (R : Regime) (pair : Pair) (code : List Indexed) : Pair := code.foldl (step R) pair

variable {R : Regime} {pair : Pair} {es : List Indexed}

theorem run_append (es' : List Indexed) : run R pair (es ++ es') = run R (run R pair es) es' :=
  List.foldl_append

@[simp] theorem run_concat (e : Indexed) : run R pair (es ++ [e]) = step R (run R pair es) e :=
  run_append [e]

/-- Code whose distances have been changed. -/
def setDistance (label : Nat) (distance : Int) (e : Indexed) : Indexed :=
  (Assembly.setDistance label distance e.1, e.2)

/-- Distances do not matter. -/
theorem run_setDistance (label : Nat) (distance : Int) :
    run R pair (es.map (setDistance label distance)) = run R pair es := by
  have same (pair : Pair) (e : Indexed) : step R pair (setDistance label distance e) = step R pair e := by
    obtain ⟨e, c⟩ := e
    cases e <;> cases pair <;> rfl
  induction es generalizing pair with
  | nil => rfl
  | cons e es ih =>
    change run R (step R pair _) _ = run R (step R pair e) es
    rw [same, ih]

end Pair

/-! ## The code of a lowering -/

/-- The instruction of an entry, if it is one. -/
def CodeEntry.instruction? : CodeEntry → Option (Instruction Nat)
  | .instruction i _ => some i
  | _ => none

/-- An entry that is neither a call nor bytes written as they are. -/
def CodeEntry.isOrdinary : CodeEntry → Bool
  | .raw _ _ | .call _ => false
  | _ => true

/-- **The code of a function** starts with the call of the trampoline, if
there is code already, and goes on with ordinary entries. -/
def CodeEntry.Starts (es : List CodeEntry) : Prop :=
  ∃ body, (es = body ∨ es = .call "trampoline" :: body) ∧ ∀ e ∈ body, e.isOrdinary = true

theorem CodeEntry.Starts.concat {es : List CodeEntry} (h : CodeEntry.Starts es) {e : CodeEntry}
    (ordinary : e.isOrdinary = true) : CodeEntry.Starts (es ++ [e]) := by
  obtain ⟨body, start, all⟩ := h
  refine ⟨body ++ [e], ?_, fun x hx => ?_⟩
  · rcases start with rfl | rfl
    · exact .inl rfl
    · exact .inr rfl
  · rcases List.mem_append.1 hx with hx | hx
    · exact all x hx
    · rw [List.mem_singleton.1 hx]
      exact ordinary

theorem CodeEntry.Starts.setDistance {es : List CodeEntry} (h : CodeEntry.Starts es) (l : Nat) (d : Int) :
    CodeEntry.Starts (es.map (Assembly.setDistance l d)) := by
  obtain ⟨body, start, all⟩ := h
  refine ⟨body.map (Assembly.setDistance l d), ?_, fun x hx => ?_⟩
  · rcases start with rfl | rfl
    · exact .inl rfl
    · exact .inr rfl
  · obtain ⟨e, he, rfl⟩ := List.mem_map.1 hx
    have := all e he
    revert this
    cases e <;> exact id

/-- Entries with the containers of their instructions. -/
def withContainers : List CodeEntry → List (Option Slot) → List Indexed
  | [], _ => []
  | .instruction i text :: es, c :: cs => (.instruction i text, c) :: withContainers es cs
  | e :: es, cs => (e, none) :: withContainers es cs

theorem withContainers_append {es l : List CodeEntry} {cs k : List (Option Slot)}
    (count : (es.filterMap CodeEntry.instruction?).length = cs.length) :
    withContainers (es ++ l) (cs ++ k) = withContainers es cs ++ withContainers l k := by
  induction es generalizing cs with
  | nil =>
    obtain rfl : cs = [] := List.length_eq_zero_iff.1 count.symm
    rfl
  | cons e es ih =>
    cases e with
    | instruction i text =>
      cases cs with
      | nil => cases count
      | cons c cs =>
        have rest := @ih cs (by simpa [CodeEntry.instruction?] using count)
        simp only [List.cons_append, withContainers, rest]
    | _ =>
      have rest := @ih cs (by simpa [List.filterMap_cons, CodeEntry.instruction?] using count)
      cases cs <;> simp_all [withContainers]

end Shading
