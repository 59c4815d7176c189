import Shading.Proofs.Machine.Straight

/-!
# Integers in their places

An integer is in a general register, or in four bytes of either region.
Where the places of a machine are inside its block, loads and stores move
integers between them (`Machine.perform_load`, `Machine.perform_store`). What
code leaves as it was is told by the registers and bytes that it may change
(`Machine.Leaves`), and integers elsewhere stay (`Machine.Leaves.word`).
-/

namespace Shading

namespace Location

/-- A place for an integer. The displacement from the base of the local
region is signed. -/
def IsInteger : Location → Prop
  | register id => id < 8
  | globalMemory _ => True
  | localMemory offset => offset < 2 ^ 31
  | _ => False

/-- The first byte of a place in memory, if the local region starts at an
offset of the block. -/
def byte? (localOffset : Nat) : Location → Option Nat
  | globalMemory offset => some offset
  | localMemory offset => some (localOffset + offset)
  | _ => Option.none

/-- The four bytes of an integer in memory. -/
def Takes (localOffset : Nat) (x : Location) (k : Nat) : Prop :=
  ∃ first, x.byte? localOffset = some first ∧ first ≤ k ∧ k < first + 4

/-- The place as the operand of an instruction. -/
def operand : Location → Operand Nat
  | globalMemory offset => .globalAt offset
  | localMemory offset => .localAt offset
  | indirectRegister id => .indirect id
  | register id | simdRegister id | registerLane id _ => .register id
  | none => .register 0

variable {localOffset : Nat} {x : Location}

theorem IsInteger.operandOf (h : x.IsInteger) : Lower.operandOf x = .ok x.operand := by
  cases x <;> first | rfl | cases h

/-- A place for an integer is a register or in memory. -/
theorem IsInteger.cases (h : x.IsInteger) (localOffset : Nat) :
    (∃ id, id < 8 ∧ x = register id) ∨
      x.isRegister = false ∧ ∃ first, x.byte? localOffset = some first := by
  cases x with
  | register id => exact .inl ⟨id, h, rfl⟩
  | globalMemory offset => exact .inr ⟨rfl, _, rfl⟩
  | localMemory offset => exact .inr ⟨rfl, _, rfl⟩
  | _ => cases h

theorem IsInteger.encodable (h : x.IsInteger) : x.operand.Encodable = true := by
  cases x with
  | register id => exact decide_eq_true (p := id < 8) h
  | globalMemory offset => rfl
  | localMemory offset =>
    have : offset < 2 ^ 31 := h
    simp only [operand, Operand.Encodable, decide_eq_true_eq]
    omega
  | _ => cases h

end Location

namespace Machine

variable {m m' m₁ m₂ : Machine} {rsqrt : Word → Word} {L : Nat} {x : Location} {G H X Y : Nat → Prop}

/-! ## Reading and writing -/

/-- **Where the places of a machine are**: the local region starts at an
offset of the block, and the block ends before addresses do. -/
structure Grounded (m : Machine) (L : Nat) : Prop where
  localBase : (m.general64 localBaseRegister).toNat = m.base + L
  whole : m.base + m.block.size ≤ addressCount

/-- The integer at an offset of the block. -/
def wordAt (m : Machine) (offset : Nat) : Word := wordOfBytes (m.block.getBytes offset 4)

/-- **The integer in a place.** -/
def word (m : Machine) (L : Nat) : Location → Word
  | .register id => m.general32 id
  | .globalMemory offset => m.wordAt offset
  | .localMemory offset => m.wordAt (L + offset)
  | _ => 0

/-- The machine with an integer at an offset of its block. -/
def setWordAt (m : Machine) (offset : Nat) (w : Word) : Machine :=
  { m with block := m.block.setBytes offset (bytesOfWord w) }

theorem word_of_byte? {first : Nat} (h : x.byte? L = some first) : m.word L x = m.wordAt first := by
  cases x <;> cases h <;> rfl

/-- The four bytes of a place are in the block. -/
def Reaches (m : Machine) (L : Nat) (x : Location) : Prop :=
  ∀ first, x.byte? L = some first → first + 4 ≤ m.block.size

theorem toNat_address {a : Nat} (small : a < addressCount) : ((a : Int) % (addressCount : Nat)).toNat = a := by
  rw [← Int.natCast_emod, Int.toNat_natCast, Nat.mod_eq_of_lt small]

/-- **The address of a place in memory.** -/
theorem Grounded.address? (ground : m.Grounded L) (integer : x.IsInteger) (reaches : m.Reaches L x) {first : Nat}
    (h : x.byte? L = some first) {i : Instruction Nat} (rm : i.rm = x.operand) :
    m.address? i.anchor i.anchored.rm = some (m.base + first) := by
  obtain ⟨o, reg, _, immediate⟩ := i
  obtain rfl := rm
  have inside := reaches first h
  have whole := ground.whole
  cases x with
  | globalMemory offset =>
    obtain rfl : offset = first := Option.some.inj h
    have same : ((m.base + offset : Nat) : Int) + signedValue 32 0 = ((m.base + offset : Nat) : Int) :=
      Int.add_zero _
    simp only [Instruction.anchored, Instruction.map, Location.operand, Operand.map, Instruction.anchor,
      Machine.address?, same, toNat_address (show m.base + offset < addressCount by omega)]
  | localMemory offset =>
    obtain rfl : L + offset = first := Option.some.inj h
    have small : offset < 2 ^ 31 := integer
    have signed : signedValue 32 offset = offset := by
      simp only [signedValue, Int.bmod_def]
      split <;> omega
    have same : ((m.general64 localBaseRegister).toNat : Int) + signedValue 32 offset =
        ((m.base + (L + offset) : Nat) : Int) := by
      rw [ground.localBase, signed]
      omega
    simp only [Instruction.anchored, Instruction.map, Location.operand, Operand.map, Machine.address?, same,
      toNat_address (show m.base + (L + offset) < addressCount by omega)]
  | _ => cases h

/-- **An integer operand is read** from its place. -/
theorem read_word (ground : m.Grounded L) (integer : x.IsInteger) (reaches : m.Reaches L x) {i : Instruction Nat}
    (rm : i.rm = x.operand) : m.read32 i.anchor i.anchored.rm = .ok (m.word L x) := by
  rcases integer.cases L with ⟨id, -, rfl⟩ | ⟨-, first, h⟩
  · obtain ⟨o, reg, _, immediate⟩ := i
    obtain rfl := rm
    rfl
  · have spans : m.Spans (m.base + first) 4 := ⟨Nat.le_add_right _ _, by
      have := reaches first h
      omega⟩
    rw [read32_memory (ground.address? integer reaches h rm), readBytes_eq_ok.2 ⟨spans, rfl⟩,
      Nat.add_sub_cancel_left, word_of_byte? h]
    rfl

/-- **A general register is loaded** with the integer of a place. -/
theorem perform_load (ground : m.Grounded L) (integer : x.IsInteger) (reaches : m.Reaches L x) (id : Nat) :
    m.perform rsqrt ⟨.movLoad, id, x.operand, []⟩ = .ok (m.setGeneral32 id (m.word L x)) :=
  except_bind_eq_ok.2 ⟨_, read_word ground integer reaches (i := ⟨.movLoad, id, x.operand, []⟩) rfl, rfl⟩

/-- **A general register is stored** in memory. -/
theorem perform_store (ground : m.Grounded L) (integer : x.IsInteger) (reaches : m.Reaches L x) {first : Nat}
    (h : x.byte? L = some first) (id : Nat) :
    m.perform rsqrt ⟨.movStore, id, x.operand, []⟩ = .ok (m.setWordAt first (m.general32 id)) := by
  have address := ground.address? integer reaches h (i := ⟨.movStore, id, x.operand, []⟩) rfl
  have spans : m.Spans (m.base + first) (bytesOfWord (m.general32 id)).length := ⟨Nat.le_add_right _ _, by
    have := reaches first h
    rw [length_bytesOfWord]
    omega⟩
  refine (write32_memory address _).trans (writeBytes_eq_ok.2 ⟨spans, ?_⟩)
  rw [Nat.add_sub_cancel_left]
  rfl

/-! ## What stays as it was -/

/-- **What code leaves as it was**: all but some general registers and some
bytes. -/
structure Leaves (m m' : Machine) (G X : Nat → Prop) : Prop where
  base : m'.base = m.base
  size : m'.block.size = m.block.size
  stack : m'.stack = m.stack
  simd : m'.registers.simd = m.registers.simd
  general : ∀ id < 8, ¬ G id → m'.general64 id = m.general64 id
  bytes : ∀ k, ¬ X k → m'.block.get k = m.block.get k

namespace Leaves

theorem refl (m : Machine) (G X : Nat → Prop) : m.Leaves m G X :=
  ⟨rfl, rfl, rfl, rfl, fun _ _ _ => rfl, fun _ _ => rfl⟩

theorem mono (h : m.Leaves m' G X) (registers : ∀ id < 8, G id → H id) (bytes : ∀ k, X k → Y k) :
    m.Leaves m' H Y :=
  ⟨h.base, h.size, h.stack, h.simd, fun id hid out => h.general id hid fun g => out (registers id hid g),
    fun k out => h.bytes k fun x => out (bytes k x)⟩

theorem trans (h : m.Leaves m₁ G X) (h' : m₁.Leaves m₂ G X) : m.Leaves m₂ G X where
  base := h'.base.trans h.base
  size := h'.size.trans h.size
  stack := h'.stack.trans h.stack
  simd := h'.simd.trans h.simd
  general id hid out := (h'.general id hid out).trans (h.general id hid out)
  bytes k out := (h'.bytes k out).trans (h.bytes k out)

theorem setFlags (h : m.Leaves m' G X) (flags : Flags) : m.Leaves (m'.setFlags flags) G X :=
  ⟨h.base, h.size, h.stack, h.simd, h.general, h.bytes⟩

theorem wordAt (h : m.Leaves m' G X) {offset : Nat} (bytes : ∀ k, offset ≤ k → k < offset + 4 → ¬ X k) :
    m'.wordAt offset = m.wordAt offset := by
  rw [Machine.wordAt, Machine.wordAt, Block.getBytes_congr fun k low high => h.bytes k (bytes k low high)]

/-- **An integer elsewhere stays.** -/
theorem word (h : m.Leaves m' G X) (integer : x.IsInteger) (register : ∀ id, x = .register id → ¬ G id)
    (bytes : ∀ k, x.Takes L k → ¬ X k) : m'.word L x = m.word L x := by
  rcases integer.cases L with ⟨id, small, rfl⟩ | ⟨-, first, here⟩
  · exact congrArg UInt64.toUInt32 (h.general id small (register id rfl))
  · rw [word_of_byte? here, word_of_byte? here]
    exact h.wordAt fun k low high => bytes k ⟨first, here, low, high⟩

theorem grounded (h : m.Leaves m' G X) (ground : m.Grounded L) (base : ¬ G localBaseRegister) :
    m'.Grounded L := by
  obtain ⟨localBase, whole⟩ := ground
  exact ⟨by rw [h.general _ (by decide) base, h.base, localBase], by rw [h.base, h.size]; exact whole⟩

theorem reaches (h : m.Leaves m' G X) (reaches : m.Reaches L x) : m'.Reaches L x :=
  fun first here => h.size ▸ reaches first here

end Leaves

theorem leaves_setGeneral64 (m : Machine) {id : Nat} (within : G (id % 8)) (v : UInt64) :
    m.Leaves (m.setGeneral64 id v) G X where
  base := rfl
  size := rfl
  stack := rfl
  simd := rfl
  general j small other := by
    rw [general64_set, if_neg]
    rw [Nat.mod_eq_of_lt small]
    rintro rfl
    exact other within
  bytes _ _ := rfl

theorem leaves_setGeneral32 (m : Machine) {id : Nat} (within : G (id % 8)) (w : Word) :
    m.Leaves (m.setGeneral32 id w) G X := leaves_setGeneral64 m within _

/-- A machine with another block is the same but for bytes. -/
theorem leaves_block (m : Machine) {b : Block} (size : b.size = m.block.size)
    (bytes : ∀ k, ¬ X k → b.get k = m.block.get k) : m.Leaves { m with block := b } G X :=
  ⟨rfl, size, rfl, rfl, fun _ _ _ => rfl, bytes⟩

theorem leaves_setWordAt (m : Machine) {offset : Nat} (within : ∀ k, offset ≤ k → k < offset + 4 → X k) (w : Word) :
    m.Leaves (m.setWordAt offset w) G X := by
  refine leaves_block m (Block.size_setBytes _ _ _) fun k out => ?_
  rw [Block.get_setBytes]
  split
  · next above =>
    have below : ¬ k < offset + 4 := fun below => out (within k above below)
    rw [List.getElem?_eq_none (by rw [length_bytesOfWord]; omega)]
    rfl
  · rfl

/-- Registers are not in the block. -/
theorem general64_block (m : Machine) (b : Block) (id : Nat) :
    Machine.general64 { m with block := b } id = m.general64 id := rfl

@[simp] theorem general64_setWordAt (m : Machine) (offset id : Nat) (w : Word) :
    (m.setWordAt offset w).general64 id = m.general64 id := general64_block m _ id

@[simp] theorem general32_setWordAt (m : Machine) (offset id : Nat) (w : Word) :
    (m.setWordAt offset w).general32 id = m.general32 id := congrArg UInt64.toUInt32 (general64_setWordAt m offset id w)

@[simp] theorem wordAt_setGeneral32 (m : Machine) (offset id : Nat) (w : Word) :
    (m.setGeneral32 id w).wordAt offset = m.wordAt offset := rfl

/-- A register that is written as 32 bits has zero above them. -/
@[simp] theorem general64_setGeneral32 (m : Machine) (id j : Nat) (w : Word) :
    (m.setGeneral32 id w).general64 j = if j % 8 = id % 8 then w.toUInt64 else m.general64 j :=
  general64_set m id j _

@[simp] theorem general32_setGeneral32 (m : Machine) (id j : Nat) (w : Word) :
    (m.setGeneral32 id w).general32 j = if j % 8 = id % 8 then w else m.general32 j := by
  rw [general32, general64_setGeneral32]
  split
  · exact UInt32.toUInt32_toUInt64 w
  · rfl

@[simp] theorem wordAt_setWordAt (m : Machine) (offset : Nat) (w : Word) :
    (m.setWordAt offset w).wordAt offset = w := by
  have bytes : (m.setWordAt offset w).block.getBytes offset 4 = bytesOfWord w := by
    refine List.ext_getElem? fun k => ?_
    by_cases inside : k < 4
    · rw [Block.getElem?_getBytes inside, setWordAt, Block.get_setBytes, if_pos (Nat.le_add_right _ _),
        Nat.add_sub_cancel_left, List.getElem?_eq_getElem (by rw [length_bytesOfWord]; exact inside)]
      rfl
    · rw [List.getElem?_eq_none (by rw [Block.length_getBytes]; omega),
        List.getElem?_eq_none (by rw [length_bytesOfWord]; omega)]
  have word := wordOfBytes_bytesOfWord w []
  rw [List.append_nil] at word
  rw [wordAt, bytes, word]

end Machine

end Shading
