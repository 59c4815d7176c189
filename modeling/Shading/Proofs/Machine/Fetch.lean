import Shading.Proofs.Discipline.Pairs
import Shading.Proofs.Object.Linking

/-!
# Code in a block

A machine reads its program from the bytes of its block. Where linked code
stands there, it carries out the entries that were emitted: the bytes of an
entry are read back as the entry (`Machine.read_upcoming`), the displacement
of a global operand leads to the offset that the instruction names, and so
a step of the machine does what the instruction does before it has a place
(`Machine.step_instruction`).
-/

namespace Shading

/-! ## Bytes of a block -/

namespace Block

variable {b b' : Block} {start : Nat} {xs ys : List UInt8}

theorem getBytes_add (b : Block) (start n m : Nat) :
    b.getBytes start (n + m) = b.getBytes start n ++ b.getBytes (start + n) m := by
  induction n generalizing start with
  | zero => simp [getBytes]
  | succ n ih =>
    rw [Nat.succ_add, getBytes, getBytes, ih, List.cons_append, Nat.add_assoc, Nat.add_comm 1 n]

/-- Bytes are read alike where blocks are alike. -/
theorem getBytes_congr {count : Nat} (same : ∀ k, start ≤ k → k < start + count → b'.get k = b.get k) :
    b'.getBytes start count = b.getBytes start count := by
  induction count generalizing start with
  | zero => rfl
  | succ count ih =>
    rw [getBytes, getBytes, same start (Nat.le_refl _) (by omega),
      ih fun k low high => same k (by omega) (by omega)]

/-- **Bytes stand in a block** from an offset on. -/
structure Holds (b : Block) (start : Nat) (bytes : List UInt8) : Prop where
  inside : start + bytes.length ≤ b.size
  bytes : b.getBytes start bytes.length = bytes

theorem holds_append :
    b.Holds start (xs ++ ys) ↔ b.Holds start xs ∧ b.Holds (start + xs.length) ys := by
  constructor
  · rintro ⟨inside, bytes⟩
    rw [List.length_append] at inside bytes
    rw [getBytes_add] at bytes
    obtain ⟨front, behind⟩ := List.append_inj bytes (by simp)
    exact ⟨⟨by omega, front⟩, by omega, behind⟩
  · rintro ⟨⟨-, front⟩, inside, behind⟩
    refine ⟨by rw [List.length_append]; omega, ?_⟩
    rw [List.length_append, getBytes_add, front, behind]

/-- Bytes that are not written to stand where they stood. -/
theorem Holds.of_same (h : b.Holds start xs) (size : b'.size = b.size)
    (same : ∀ k, start ≤ k → k < start + xs.length → b'.get k = b.get k) : b'.Holds start xs :=
  ⟨size ▸ h.inside, (getBytes_congr same).trans h.bytes⟩

end Block

/-! ## Sizes -/

theorem Opcode.length_header_le (o : Opcode) : o.header.length + o.form.immediate ≤ 8 := by
  cases o <;> decide

theorem Operand.length_encode_le {γ : Type} (place : γ → Nat) (field : Nat) (rm : Operand γ) :
    (rm.encode place field).length ≤ 5 := by
  cases rm <;> simp [Operand.encode, wordBytes]

/-- **No entry is longer than the longest instruction.** -/
theorem CodeEntry.size_le {e : CodeEntry} (readable : e.Readable) : e.size ≤ Machine.longestInstruction := by
  rw [size, Machine.longestInstruction]
  cases e with
  | instruction i text =>
    have whole : i.Encodable = true := readable
    simp only [Instruction.Encodable, Bool.and_eq_true, beq_iff_eq] at whole
    have header := i.opcode.length_header_le
    have operand := i.rm.length_encode_le (fun _ => 0) i.field
    simp only [bytes, Instruction.encode, Instruction.encodeWith, List.length_append]
    omega
  | raw bytes text => exact readable.elim
  | call target => exact readable.elim
  | ret => decide
  | cdq => decide
  | mark l => exact Nat.zero_le _
  | jump form l d =>
    cases form <;> simp [bytes, JumpForm.header, JumpForm.width]

namespace Machine

variable {m : Machine} {rsqrt : Word → Word}

/-! ## Operands -/

theorem read64_memory {next a : Nat} {rm : Operand Nat} (h : m.address? next rm = some a) :
    m.read64 next rm = (m.readBytes a 8).map fun bs => UInt64.ofNat (ofLittleEndian bs) := by
  unfold read64
  rw [h]
  cases rm with
  | register => cases h
  | _ => rfl

theorem write64_memory {next a : Nat} {rm : Operand Nat} (h : m.address? next rm = some a) (w : UInt64) :
    m.write64 next rm w = m.writeBytes a (littleEndian 8 w.toNat) := by
  unfold write64
  rw [h]
  cases rm with
  | register => cases h
  | _ => rfl

/-- Operands of one kind at one address are the same to an instruction. -/
theorem execute_map {o : Opcode} {reg next next' : Nat} {rm : Operand Nat} {immediate : List UInt8}
    {f g : Nat → Nat} (same : m.address? next (rm.map f) = m.address? next' (rm.map g)) :
    m.execute rsqrt next ⟨o, reg, rm.map f, immediate⟩ =
      m.execute rsqrt next' ⟨o, reg, rm.map g, immediate⟩ := by
  cases rm with
  | register id => cases o <;> rfl
  | localAt offset => cases o <;> rfl
  | indirect id => cases o <;> rfl
  | globalAt place =>
    obtain ⟨a, here⟩ : ∃ a, m.address? next (.globalAt (f place)) = some a := ⟨_, rfl⟩
    have there : m.address? next' (.globalAt (g place)) = some a := same.symm.trans here
    have word : m.read32 next (.globalAt (f place)) = m.read32 next' (.globalAt (g place)) := by
      rw [read32_memory here, read32_memory there]
    have wide : m.read64 next (.globalAt (f place)) = m.read64 next' (.globalAt (g place)) := by
      rw [read64_memory here, read64_memory there]
    have scalar : m.readScalar next (.globalAt (f place)) = m.readScalar next' (.globalAt (g place)) := by
      rw [readScalar_memory here, readScalar_memory there]
    have packed : m.readPacked next (.globalAt (f place)) = m.readPacked next' (.globalAt (g place)) := by
      rw [readPacked_memory here, readPacked_memory there]
    have aligned : m.readAligned next (.globalAt (f place)) = m.readAligned next' (.globalAt (g place)) := by
      simp only [readAligned, here, there, packed]
    have store (w : Word) : m.write32 next (.globalAt (f place)) w = m.write32 next' (.globalAt (g place)) w := by
      rw [write32_memory here, write32_memory there]
    have storeWide (w : UInt64) : m.write64 next (.globalAt (f place)) w =
        m.write64 next' (.globalAt (g place)) w := by
      rw [write64_memory here, write64_memory there]
    cases o <;> simp only [Operand.map, execute, arithmetic, Machine.scalar, Machine.packed, word, wide, scalar,
      packed, aligned, store, storeWide, here, there]

/-- An instruction does not look at the register field that its digit
takes. -/
theorem execute_field (m : Machine) (rsqrt : Word → Word) (next : Nat) {i : Instruction Nat} (small : i.reg < 8) :
    m.execute rsqrt next { i with reg := i.field } = m.execute rsqrt next i := by
  obtain ⟨o, reg, rm, immediate⟩ := i
  cases digit : o.form.digit with
  | none => rw [Instruction.field, digit, Option.getD_none, Nat.mod_eq_of_lt small]
  | some d =>
    cases o with
    | movImm | neg | idiv | xorImm8 | cmpImm8 | addImm64 | psrldq | pslldq => rfl
    | _ => cases digit

/-- **A displacement leads to the offset** that the instruction names. -/
theorem address?_linked {i : Instruction Nat} {next : Nat}
    (near : ∀ target, i.rm = .globalAt target → fitsSigned 32 ((target : Int) - next) = true) :
    m.address? next (i.linked (displacement next)).rm = m.address? i.anchor i.anchored.rm := by
  obtain ⟨o, reg, rm, immediate⟩ := i
  cases rm with
  | globalAt target =>
    have reached := reach_displacement (near target rfl)
    have same : ((m.base + next : Nat) : Int) + signedValue 32 (displacement next target) =
        ((m.base + target : Nat) : Int) + signedValue 32 0 := by
      rw [Int.natCast_add, Int.natCast_add, Int.add_assoc, reached]
      exact (Int.add_zero _).symm
    simp only [Instruction.linked, Instruction.anchored, Instruction.map, Operand.map, address?, Instruction.anchor, same]
  | _ => rfl

/-- An instruction that is linked does what it does without a place. -/
theorem execute_linked {i : Instruction Nat} {next : Nat} (encodable : i.Encodable = true)
    (near : ∀ target, i.rm = .globalAt target → fitsSigned 32 ((target : Int) - next) = true) :
    m.execute rsqrt next (i.linked (displacement next)) = m.perform rsqrt i := by
  have small : i.reg < 8 := by
    simp only [Instruction.Encodable, Bool.and_eq_true, decide_eq_true_eq] at encodable
    exact encodable.1.1
  have field := execute_field m rsqrt next (i := { i with rm := i.rm.map (displacement next) }) small
  exact field.trans (execute_map (address?_linked near))

/-! ## Steps -/

/-- **Bytes are read** where they stand. -/
theorem read_standing {bytes : List UInt8} {d : Decoded} (holds : m.block.Holds m.ip bytes)
    (short : bytes.length ≤ longestInstruction) (reads : ∀ rest, Decoded.read? (bytes ++ rest) = some (d, rest)) :
    ∃ rest, Decoded.read? m.upcoming = some (d, rest) ∧ m.upcoming.length - rest.length = bytes.length := by
  have inside := holds.inside
  obtain ⟨more, count⟩ : ∃ more, min longestInstruction (m.block.size - m.ip) = bytes.length + more :=
    ⟨_, (Nat.add_sub_of_le (Nat.le_min.2 ⟨short, by omega⟩)).symm⟩
  have split : m.upcoming = bytes ++ m.block.getBytes (m.ip + bytes.length) more := by
    rw [upcoming, count, Block.getBytes_add, holds.bytes]
  refine ⟨m.block.getBytes (m.ip + bytes.length) more, ?_, ?_⟩
  · rw [split]
    exact reads _
  · rw [split, List.length_append, Nat.add_sub_cancel]

/-- **An entry is read back** where its bytes stand. -/
theorem read_upcoming {e : CodeEntry} {d : Decoded} (holds : m.block.Holds m.ip (e.linkedBytes m.ip))
    (readable : e.Readable) (decoded : e.decoded? m.ip = some d) :
    ∃ rest, Decoded.read? m.upcoming = some (d, rest) ∧ m.upcoming.length - rest.length = e.size := by
  have short := CodeEntry.size_le readable
  rw [← CodeEntry.length_linkedBytes m.ip e] at short ⊢
  exact read_standing holds short fun rest => Decoded.read?_linkedBytes readable m.ip rest decoded

/-- **An instruction is carried out** where its bytes stand. -/
theorem step_instruction {i : Instruction Nat} {text : String} {start : Nat} (ip : m.ip = start)
    (encodable : i.Encodable = true)
    (holds : m.block.Holds start ((CodeEntry.instruction i text).linkedBytes start))
    (near : ∀ target, i.rm = .globalAt target →
      fitsSigned 32 ((target : Int) - (start + (CodeEntry.instruction i text).size : Nat)) = true) :
    m.step rsqrt = (m.perform rsqrt i).map fun m' =>
      .running { m' with ip := start + (CodeEntry.instruction i text).size } := by
  subst ip
  obtain ⟨rest, read, length⟩ := read_upcoming holds encodable rfl
  simp only [step, read, length, execute_linked encodable near]
  rfl

/-- **A call is read** where its bytes stand. -/
theorem read_call {next target : Nat} (holds : m.block.Holds m.ip (0xE8 :: wordBytes (displacement next target))) :
    ∃ rest, Decoded.read? m.upcoming = some (.call (signedValue 32 (displacement next target)), rest) ∧
      m.upcoming.length - rest.length = 5 := by
  have value : ofLittleEndian (wordBytes (displacement next target)) = displacement next target := by
    rw [wordBytes, ofLittleEndian_littleEndian]
    exact Nat.mod_eq_of_lt (displacement_lt _ _)
  obtain ⟨rest, read, length⟩ := read_standing holds (d := .call (signedValue 32 (displacement next target)))
    (by simp [longestInstruction, wordBytes]) fun rest => by
      have word := Decoded.take?_word (displacement next target) rest
      simp only [List.cons_append, Decoded.read?, Decoded.readControl?, word, Option.map_some, value]
  exact ⟨rest, read, length.trans (by simp [wordBytes])⟩

/-- **A call is carried out** where its bytes stand. -/
theorem step_call {target : Nat} (holds : m.block.Holds m.ip (0xE8 :: wordBytes (displacement (m.ip + 5) target)))
    (near : fitsSigned 32 ((target : Int) - (m.ip + 5 : Nat)) = true) :
    m.step rsqrt = .ok (.running { m with ip := target, stack := (m.ip + 5) :: m.stack }) := by
  obtain ⟨rest, read, length⟩ := read_call holds
  have reach := reach_displacement near
  simp only [step, read, length, goto, reach, Int.natCast_nonneg, if_true]
  rfl

theorem step_cdq {start : Nat} (ip : m.ip = start) (holds : m.block.Holds start (CodeEntry.cdq.linkedBytes start)) :
    m.step rsqrt = .ok (.running { m.extendSign with ip := start + CodeEntry.cdq.size }) := by
  subst ip
  obtain ⟨rest, read, length⟩ := read_upcoming (e := .cdq) holds trivial rfl
  simp only [step, read, length]
  rfl

end Machine

end Shading
