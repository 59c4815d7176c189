import Shading.Machine.Step

/-!
# What instructions access

An instruction reaches memory through its operand alone, and how many
bytes it reaches and whether it writes them is a matter of its opcode.
So one that is carried out leaves all other bytes as they were
(`execute_frames`), its operand lies in the block (`execute_spans`), and
one that is not carried out fails for one of four reasons
(`execute_error`).
-/

namespace Shading

namespace Opcode

/-- **The bytes of memory that an opcode reads or writes** at its
operand. An address is computed without any access. -/
def reach : Opcode → Nat
  | lea => 0
  | imulImm64 | add64 | addImm64 => 8
  | movupsLoad | movupsStore | addps | subps | mulps | rsqrtps | andps | orps | xorps | shufps
  | haddps | psrldq | pslldq => 16
  | _ => 4

/-- Whether an opcode writes its operand. -/
def writesOperand : Opcode → Bool
  | movStore | movImm | neg | xorImm8 | addImm64 | movssStore | movupsStore => true
  | _ => false

/-- Whether an operand in memory has to be aligned: that of a packed
opcode other than `movups`. -/
def isAligned : Opcode → Bool
  | addps | subps | mulps | rsqrtps | andps | orps | xorps | shufps | haddps => true
  | _ => false

/-- Whether an opcode moves the bytes of a register. -/
def isShift : Opcode → Bool
  | psrldq | pslldq => true
  | _ => false

end Opcode

/-- **A fault of an instruction that could be read**: of its operand or of
its division. -/
def Fault.OfData (f : Fault) : Prop := ∀ offset, f ≠ .instruction offset

/-! ## Results of steps that may fail -/

theorem except_bind_eq_ok {ε α β : Type} {x : Except ε α} {f : α → Except ε β} {b : β} :
    (x >>= f) = .ok b ↔ ∃ a, x = .ok a ∧ f a = .ok b := by
  cases x with
  | error e => simp [bind, Except.bind]
  | ok a => simp [bind, Except.bind]

theorem except_bind_eq_error {ε α β : Type} {x : Except ε α} {f : α → Except ε β} {e : ε} :
    (x >>= f) = .error e ↔ x = .error e ∨ ∃ a, x = .ok a ∧ f a = .error e := by
  cases x with
  | error e => simp [bind, Except.bind]
  | ok a => simp [bind, Except.bind]

theorem except_map_eq_ok {ε α β : Type} {x : Except ε α} {f : α → β} {b : β} :
    x.map f = .ok b ↔ ∃ a, x = .ok a ∧ f a = b := by
  cases x <;> simp [Except.map]

theorem except_map_eq_error {ε α β : Type} {x : Except ε α} {f : α → β} {e : ε} :
    x.map f = .error e ↔ x = .error e := by
  cases x <;> simp [Except.map]

/-- The bytes of a stretch of a block, one by one. -/
theorem Block.getElem?_getBytes {b : Block} {offset count k : Nat} (h : k < count) :
    (b.getBytes offset count)[k]? = some (b.get (offset + k)) := by
  induction count generalizing offset k with
  | zero => omega
  | succ n ih =>
    cases k with
    | zero => rfl
    | succ k =>
      rw [getBytes, List.getElem?_cons_succ, ih (by omega)]
      congr 2
      omega

namespace Machine

variable {m m' : Machine} {next : Nat} {rm : Operand Nat} {rsqrt : Word → Word}
  {i : Instruction Nat}

/-! ## Single accesses -/

/-- So many bytes at an address are in the block. -/
def Spans (m : Machine) (address count : Nat) : Prop :=
  m.base ≤ address ∧ address - m.base + count ≤ m.block.size

theorem offsetOf_eq_ok {a n o : Nat} :
    m.offsetOf a n = .ok o ↔ m.Spans a n ∧ o = a - m.base := by
  unfold offsetOf Spans
  split
  · next h => simp [h, eq_comm]
  · next h => simp [h]

theorem offsetOf_eq_error {a n : Nat} {f : Fault} (h : m.offsetOf a n = .error f) :
    f = .access a n := by
  unfold offsetOf at h
  split at h
  · cases h
  · simpa using h.symm

/-- Bytes that are read are in the block. -/
theorem readBytes_eq_ok {a n : Nat} {bytes : List UInt8} :
    m.readBytes a n = .ok bytes ↔ m.Spans a n ∧ bytes = m.block.getBytes (a - m.base) n := by
  simp only [readBytes, except_bind_eq_ok, offsetOf_eq_ok, pure, Except.pure, Except.ok.injEq]
  constructor
  · rintro ⟨o, ⟨spans, rfl⟩, rfl⟩
    exact ⟨spans, rfl⟩
  · rintro ⟨spans, rfl⟩
    exact ⟨_, ⟨spans, rfl⟩, rfl⟩

/-- Bytes that are written are in the block. -/
theorem writeBytes_eq_ok {a : Nat} {bytes : List UInt8} :
    m.writeBytes a bytes = .ok m' ↔ m.Spans a bytes.length ∧
      m' = { m with block := m.block.setBytes (a - m.base) bytes } := by
  simp only [writeBytes, except_bind_eq_ok, offsetOf_eq_ok, pure, Except.pure, Except.ok.injEq]
  constructor
  · rintro ⟨o, ⟨spans, rfl⟩, rfl⟩
    exact ⟨spans, rfl⟩
  · rintro ⟨spans, rfl⟩
    exact ⟨_, ⟨spans, rfl⟩, rfl⟩

/-- **What a step leaves as it was**: the block stays where it is, control
stays where it is, and the bytes outside of a set keep their values. -/
structure Frames (m m' : Machine) (X : Nat → Prop) : Prop where
  base : m'.base = m.base
  size : m'.block.size = m.block.size
  ip : m'.ip = m.ip
  stack : m'.stack = m.stack
  bytes : ∀ k, ¬ X k → m'.block.get k = m.block.get k

theorem Frames.refl (m : Machine) (X : Nat → Prop) : m.Frames m X :=
  ⟨rfl, rfl, rfl, rfl, fun _ _ => rfl⟩

/-- The offsets of so many bytes at an address. -/
def bytesAt (m : Machine) (a n : Nat) (k : Nat) : Prop := a ≤ m.base + k ∧ m.base + k < a + n

theorem frames_writeBytes {a : Nat} {bytes : List UInt8} (h : m.writeBytes a bytes = .ok m') :
    m.Spans a bytes.length ∧ m.Frames m' (m.bytesAt a bytes.length) := by
  obtain ⟨spans, rfl⟩ := writeBytes_eq_ok.1 h
  refine ⟨spans, rfl, Block.size_setBytes _ _ _, rfl, rfl, fun k outside => ?_⟩
  simp only [Block.get_setBytes]
  have low := spans.1
  split
  · rw [List.getElem?_eq_none, Option.getD_none]
    simp only [bytesAt, not_and, Nat.not_lt] at outside
    have := outside (by omega)
    omega
  · rfl

/-! ## Operands -/

theorem read32_spans {w : Word} (h : m.read32 next rm = .ok w) {a : Nat}
    (ha : m.address? next rm = some a) : m.Spans a 4 := by
  unfold read32 at h
  rw [ha] at h
  cases rm with
  | register => cases ha
  | _ =>
    obtain ⟨bytes, read, -⟩ := except_map_eq_ok.1 h
    exact (readBytes_eq_ok.1 read).1

theorem read64_spans {w : UInt64} (h : m.read64 next rm = .ok w) {a : Nat}
    (ha : m.address? next rm = some a) : m.Spans a 8 := by
  unfold read64 at h
  rw [ha] at h
  cases rm with
  | register => cases ha
  | _ =>
    obtain ⟨bytes, read, -⟩ := except_map_eq_ok.1 h
    exact (readBytes_eq_ok.1 read).1

theorem readScalar_spans {w : Word} (h : m.readScalar next rm = .ok w) {a : Nat}
    (ha : m.address? next rm = some a) : m.Spans a 4 := by
  unfold readScalar at h
  rw [ha] at h
  cases rm with
  | register => cases ha
  | _ =>
    obtain ⟨bytes, read, -⟩ := except_map_eq_ok.1 h
    exact (readBytes_eq_ok.1 read).1

theorem readPacked_spans {v : Lanes} (h : m.readPacked next rm = .ok v) {a : Nat}
    (ha : m.address? next rm = some a) : m.Spans a 16 := by
  unfold readPacked at h
  rw [ha] at h
  cases rm with
  | register => cases ha
  | _ =>
    obtain ⟨bytes, read, -⟩ := except_map_eq_ok.1 h
    exact (readBytes_eq_ok.1 read).1

/-- An aligned operand is read like any other. -/
theorem readAligned_eq_ok {v : Lanes} : m.readAligned next rm = .ok v ↔
    (∀ a, m.address? next rm = some a → a % 16 = 0) ∧ m.readPacked next rm = .ok v := by
  unfold readAligned
  cases m.address? next rm with
  | none => simp
  | some a => by_cases h : a % 16 = 0 <;> simp [h]

/-- An operand in memory has an address. -/
theorem address?_of_memory (m : Machine) (next : Nat) {rm : Operand Nat} (h : ∀ id, rm ≠ .register id) :
    ∃ a, m.address? next rm = some a := by
  cases rm with
  | register id => exact absurd rfl (h id)
  | _ => exact ⟨_, rfl⟩

/-- A write to a register or to so many bytes of memory. -/
theorem frames_of_write {n : Nat} {bytes : List UInt8} (length : bytes.length = n)
    (register : ∀ id, rm = .register id → m.Frames m' fun _ => False)
    (memory : ∀ a, m.address? next rm = some a → m.writeBytes a bytes = .ok m') :
    (∀ a, m.address? next rm = some a → m.Spans a n) ∧
      m.Frames m' fun k => ∃ a, m.address? next rm = some a ∧ m.bytesAt a n k := by
  by_cases h : ∃ id, rm = .register id
  · obtain ⟨id, rfl⟩ := h
    have frames := register id rfl
    refine ⟨fun a ha => (nomatch ha), frames.1, frames.2, frames.3, frames.4, fun k _ => ?_⟩
    exact frames.5 k not_false
  · obtain ⟨a, ha⟩ := address?_of_memory m next fun id e => h ⟨id, e⟩
    obtain ⟨spans, frames⟩ := frames_writeBytes (memory a ha)
    rw [length] at spans frames
    refine ⟨fun b hb => ?_, frames.1, frames.2, frames.3, frames.4, fun k outside => ?_⟩
    · rw [ha] at hb
      cases hb
      exact spans
    · exact frames.5 k fun inside => outside ⟨a, ha, inside⟩

theorem write32_frames {w : Word} (h : m.write32 next rm w = .ok m') :
    (∀ a, m.address? next rm = some a → m.Spans a 4) ∧
      m.Frames m' fun k => ∃ a, m.address? next rm = some a ∧ m.bytesAt a 4 k := by
  refine frames_of_write (length_bytesOfWord w) (fun id e => ?_) fun a ha => ?_
  · subst e
    cases h
    exact ⟨rfl, rfl, rfl, rfl, fun _ _ => rfl⟩
  · unfold write32 at h
    rw [ha] at h
    cases rm with
    | register => cases ha
    | _ => exact h

theorem write64_frames {w : UInt64} (h : m.write64 next rm w = .ok m') :
    (∀ a, m.address? next rm = some a → m.Spans a 8) ∧
      m.Frames m' fun k => ∃ a, m.address? next rm = some a ∧ m.bytesAt a 8 k := by
  refine frames_of_write (length_littleEndian 8 w.toNat) (fun id e => ?_) fun a ha => ?_
  · subst e
    cases h
    exact ⟨rfl, rfl, rfl, rfl, fun _ _ => rfl⟩
  · unfold write64 at h
    rw [ha] at h
    cases rm with
    | register => cases ha
    | _ => exact h

/-! ## Instructions -/

/-- The offsets of the bytes that an instruction writes. -/
def writtenBy (m : Machine) (next : Nat) (i : Instruction Nat) (k : Nat) : Prop :=
  i.opcode.writesOperand = true ∧ ∃ a, m.address? next i.rm = some a ∧ m.bytesAt a i.opcode.reach k

/-- A change of registers alone. -/
theorem frames_registers (m : Machine) (r : Registers) (X : Nat → Prop) :
    m.Frames { m with registers := r } X :=
  ⟨rfl, rfl, rfl, rfl, fun _ _ => rfl⟩

theorem Frames.registers {X : Nat → Prop} (h : m.Frames m' X) (r : Registers) :
    m.Frames { m' with registers := r } X :=
  ⟨h.base, h.size, h.ip, h.stack, h.bytes⟩

theorem Frames.mono {X Y : Nat → Prop} (h : m.Frames m' X) (sub : ∀ k, X k → Y k) :
    m.Frames m' Y :=
  ⟨h.base, h.size, h.ip, h.stack, fun k hk => h.bytes k fun hx => hk (sub k hx)⟩

/-- A division that is carried out has a quotient and a remainder. -/
theorem execute_idiv {reg : Nat} {immediate : List UInt8}
    (run : m.execute rsqrt next ⟨.idiv, reg, rm, immediate⟩ = .ok m') :
    ∃ w q r, m.read32 next rm = .ok w ∧
      divide? (m.general32 2) (m.general32 0) w = some (q, r) ∧
      m' = ((m.setGeneral32 0 q).setGeneral32 2 r).setFlags .ofDivision := by
  unfold execute at run
  dsimp only at run
  obtain ⟨w, read, run⟩ := except_bind_eq_ok.1 run
  cases h : divide? (m.general32 2) (m.general32 0) w with
  | none =>
    simp only [h] at run
    cases run
  | some qr =>
    simp only [h] at run
    cases run
    exact ⟨w, qr.1, qr.2, read, h, rfl⟩

/-- A division that has a quotient and a remainder is carried out. -/
theorem execute_idiv_of_quotient {reg : Nat} {immediate : List UInt8} {w q r : Word}
    (read : m.read32 next rm = .ok w)
    (quotient : divide? (m.general32 2) (m.general32 0) w = some (q, r)) :
    m.execute rsqrt next ⟨.idiv, reg, rm, immediate⟩ =
      .ok (((m.setGeneral32 0 q).setGeneral32 2 r).setFlags .ofDivision) := by
  unfold execute
  dsimp only
  refine except_bind_eq_ok.2 ⟨w, read, ?_⟩
  rw [quotient]
  rfl

/-- **An instruction that is carried out** changes the bytes of its
operand alone, and only if it writes them. -/
theorem execute_frames (run : m.execute rsqrt next i = .ok m') :
    m.Frames m' (m.writtenBy next i) := by
  obtain ⟨o, reg, rm, immediate⟩ := i
  -- Only the instructions that write their operand change bytes; the others change
  -- registers and flags.
  cases o
  case idiv =>
    obtain ⟨w, q, r, -, -, rfl⟩ := execute_idiv run
    exact frames_registers m _ _
  all_goals
    simp only [execute, arithmetic, scalar, packed, except_bind_eq_ok, pure, Except.pure,
      Except.ok.injEq] at run
  case movStore | movImm =>
    exact (write32_frames run).2.mono fun k h => ⟨rfl, h⟩
  case neg | xorImm8 =>
    obtain ⟨a, -, m₁, write, rfl⟩ := run
    exact ((write32_frames write).2.mono fun k h => ⟨rfl, h⟩).registers _
  case addImm64 =>
    obtain ⟨a, -, m₁, write, rfl⟩ := run
    exact ((write64_frames write).2.mono fun k h => ⟨rfl, h⟩).registers _
  case movssStore =>
    split at run
    · cases run
      exact frames_registers m _ _
    · exact (write32_frames run).2.mono fun k h => ⟨rfl, h⟩
  case movupsStore =>
    split at run
    · next a ha =>
      have frames := (frames_writeBytes run).2
      rw [Lanes.length_bytes] at frames
      exact frames.mono fun k h => ⟨rfl, a, ha, h⟩
    · cases run
      exact frames_registers m _ _
    · cases run
      exact .refl m _
  case movssLoad =>
    obtain ⟨v, -, run⟩ := run
    split at run <;> cases run <;> exact frames_registers m _ _
  case psrldq | pslldq =>
    split at run
    · cases run
      exact frames_registers m _ _
    · cases run
  case lea =>
    subst run
    exact frames_registers m _ _
  all_goals
    obtain ⟨v, -, rfl⟩ := run
    exact frames_registers m _ _

/-- **The operand of an instruction that is carried out** lies in the
block. -/
theorem execute_spans (run : m.execute rsqrt next i = .ok m') {a : Nat}
    (ha : m.address? next i.rm = some a) (access : i.opcode.reach ≠ 0) :
    m.Spans a i.opcode.reach := by
  obtain ⟨o, reg, rm, immediate⟩ := i
  -- The bytes are read or written by the memory, which refuses those that are not in
  -- the block.
  cases o
  case idiv =>
    obtain ⟨w, q, r, read, -, -⟩ := execute_idiv run
    exact read32_spans read ha
  all_goals
    simp only [execute, arithmetic, scalar, packed, except_bind_eq_ok, pure, Except.pure,
      Except.ok.injEq] at run
  case lea => exact absurd rfl access
  case movStore | movImm => exact (write32_frames run).1 a ha
  case movssStore =>
    split at run
    · cases ha
    · exact (write32_frames run).1 a ha
  case movupsStore =>
    split at run
    · next b hb =>
      obtain rfl : a = b := Option.some.inj (ha.symm.trans hb)
      have spans := (frames_writeBytes run).1
      rwa [Lanes.length_bytes] at spans
    · cases ha
    · next none => exact nomatch ha.symm.trans none
  case psrldq | pslldq =>
    split at run
    · cases ha
    · cases run
  case imulImm64 | add64 | addImm64 =>
    obtain ⟨v, read, -⟩ := run
    exact read64_spans read ha
  case movupsLoad =>
    obtain ⟨v, read, -⟩ := run
    exact readPacked_spans read ha
  case addps | subps | mulps | rsqrtps | andps | orps | xorps | shufps | haddps =>
    obtain ⟨v, read, -⟩ := run
    exact readPacked_spans (readAligned_eq_ok.1 read).2 ha
  case movLoad | add | sub | imul | neg | xorImm8 | cmpImm8 | cmpLoad | cmpStore | movsxd
      | cvtsi2ss =>
    obtain ⟨v, read, -⟩ := run
    exact read32_spans read ha
  all_goals
    obtain ⟨v, read, -⟩ := run
    exact readScalar_spans read ha

/-! ## General registers -/

theorem general64_set (m : Machine) (id j : Nat) (v : UInt64) :
    (m.setGeneral64 id v).general64 j = if j % 8 = id % 8 then v else m.general64 j := by
  simp only [general64, setGeneral64, Fin.getElem_fin, Vector.getElem_set, Fin.val_ofNat]
  split
  · next same => rw [if_pos same.symm]
  · next other => rw [if_neg fun same => other same.symm]

theorem simd_set (m : Machine) (id j : Nat) (v : Lanes) :
    (m.setSimd id v).simd j = if j % 8 = id % 8 then v else m.simd j := by
  simp only [simd, setSimd, Fin.getElem_fin, Vector.getElem_set, Fin.val_ofNat]
  split
  · next same => rw [if_pos same.symm]
  · next other => rw [if_neg fun same => other same.symm]

/-- Whether an instruction writes a general register. -/
def writesGeneral (i : Instruction Nat) (id : Nat) : Prop :=
  match i.opcode with
  | .movLoad | .add | .sub | .imul | .movsxd | .imulImm64 | .add64 | .lea | .cvttss2si => i.reg = id
  | .movStore | .movImm | .neg | .xorImm8 | .addImm64 => i.rm = .register id
  | .idiv => id = 0 ∨ id = 2
  | _ => False

/-- What an instruction that is carried out leaves in a general register. -/
def Spares (m : Machine) (i : Instruction Nat) (m' : Machine) : Prop :=
  ∀ id, m'.general64 id = m.general64 id ∨ ∃ j, writesGeneral i j ∧ j % 8 = id % 8 ∧
    (i.opcode.form.wide = true ∨ (m'.general64 id).toNat < 2 ^ 32)

theorem spares_of_general (h : m'.registers.general = m.registers.general) : m.Spares i m' := by
  intro id
  rw [general64, general64, h]
  exact .inl rfl

theorem spares_setGeneral32 {j : Nat} (w : Word) (h : writesGeneral i j) :
    m.Spares i (m.setGeneral32 j w) := by
  intro id
  rw [setGeneral32, general64_set]
  split
  · next same =>
    refine .inr ⟨j, h, same.symm, .inr ?_⟩
    rw [UInt32.toNat_toUInt64]
    exact w.toNat_lt
  · exact .inl rfl

theorem spares_setGeneral64 {j : Nat} (v : UInt64) (h : writesGeneral i j)
    (wide : i.opcode.form.wide = true) : m.Spares i (m.setGeneral64 j v) := by
  intro id
  rw [general64_set]
  split
  · next same => exact .inr ⟨j, h, same.symm, .inl wide⟩
  · exact .inl rfl

/-- Flags are no general registers. -/
theorem Spares.setFlags (h : m.Spares i m') (flags : Flags) : m.Spares i (m'.setFlags flags) := h

theorem spares_write32 {w : Word} (h : m.write32 next rm w = .ok m')
    (writes : ∀ id, rm = .register id → writesGeneral i id) : m.Spares i m' := by
  unfold write32 at h
  split at h
  · cases h
    exact spares_setGeneral32 w (writes _ rfl)
  · obtain ⟨-, rfl⟩ := writeBytes_eq_ok.1 h
    exact spares_of_general rfl
  · cases h
    exact spares_of_general rfl

theorem spares_write64 {w : UInt64} (h : m.write64 next rm w = .ok m')
    (writes : ∀ id, rm = .register id → writesGeneral i id) (wide : i.opcode.form.wide = true) :
    m.Spares i m' := by
  unfold write64 at h
  split at h
  · cases h
    exact spares_setGeneral64 w (writes _ rfl) wide
  · obtain ⟨-, rfl⟩ := writeBytes_eq_ok.1 h
    exact spares_of_general rfl
  · cases h
    exact spares_of_general rfl

/-- **What becomes of a general register**: it is the destination of the
instruction, and holds a number of 32 bits unless the opcode is one for
addresses, or it stays as it is. -/
theorem execute_spares (run : m.execute rsqrt next i = .ok m') : m.Spares i m' := by
  obtain ⟨o, reg, rm, immediate⟩ := i
  -- An instruction that writes its operand spares the registers unless the operand is
  -- one of them; the others write the register in their field, and a division and the
  -- extension of a sign write fixed ones.
  cases o
  case idiv =>
    obtain ⟨w, q, r, -, -, rfl⟩ := execute_idiv run
    refine Spares.setFlags (fun id => ?_) _
    have first := spares_setGeneral32 (m := m) (i := ⟨.idiv, reg, rm, immediate⟩) q (.inl rfl) id
    have second := spares_setGeneral32 (m := m.setGeneral32 0 q)
      (i := ⟨.idiv, reg, rm, immediate⟩) r (.inr rfl) id
    rcases second with same | writes
    · rw [same]
      exact first
    · exact .inr writes
  all_goals
    simp only [execute, arithmetic, scalar, packed, except_bind_eq_ok, pure, Except.pure,
      Except.ok.injEq] at run
  case movStore | movImm => exact spares_write32 run fun id h => h
  case neg =>
    obtain ⟨a, -, m₁, write, rfl⟩ := run
    have spares : m.Spares ⟨.neg, reg, rm, immediate⟩ m₁ := spares_write32 write fun id h => h
    exact spares.setFlags _
  case xorImm8 =>
    obtain ⟨a, -, m₁, write, rfl⟩ := run
    have spares : m.Spares ⟨.xorImm8, reg, rm, immediate⟩ m₁ := spares_write32 write fun id h => h
    exact spares.setFlags _
  case addImm64 =>
    obtain ⟨a, -, m₁, write, rfl⟩ := run
    have spares : m.Spares ⟨.addImm64, reg, rm, immediate⟩ m₁ := spares_write64 write (fun id h => h) rfl
    exact spares.setFlags _
  case lea =>
    subst run
    exact spares_setGeneral64 _ rfl rfl
  case movsxd =>
    obtain ⟨v, -, rfl⟩ := run
    exact spares_setGeneral64 _ rfl rfl
  case imulImm64 | add64 =>
    obtain ⟨v, -, rfl⟩ := run
    refine Spares.setFlags ?_ _
    exact spares_setGeneral64 _ rfl rfl
  case movLoad | cvttss2si =>
    obtain ⟨v, -, rfl⟩ := run
    exact spares_setGeneral32 _ rfl
  case add | sub | imul =>
    obtain ⟨v, -, rfl⟩ := run
    refine Spares.setFlags ?_ _
    exact spares_setGeneral32 _ rfl
  case movssStore =>
    split at run
    · cases run
      exact spares_of_general rfl
    · next outside =>
      refine spares_write32 run fun id h => ?_
      exact absurd h (outside id)
  case movupsStore =>
    split at run
    · obtain ⟨-, rfl⟩ := writeBytes_eq_ok.1 run
      exact spares_of_general rfl
    · cases run
      exact spares_of_general rfl
    · cases run
      exact spares_of_general rfl
  case movssLoad =>
    obtain ⟨v, -, run⟩ := run
    split at run <;> cases run <;> exact spares_of_general rfl
  case psrldq | pslldq =>
    split at run
    · cases run
      exact spares_of_general rfl
    · cases run
  all_goals
    obtain ⟨v, -, rfl⟩ := run
    exact spares_of_general rfl

/-! ## Faults -/

theorem readBytes_eq_error {a n : Nat} {f : Fault} (h : m.readBytes a n = .error f) :
    f = .access a n := by
  simp only [readBytes, except_bind_eq_error] at h
  obtain h | ⟨o, -, h⟩ := h
  · exact offsetOf_eq_error h
  · cases h

theorem writeBytes_eq_error {a : Nat} {bytes : List UInt8} {f : Fault}
    (h : m.writeBytes a bytes = .error f) : f = .access a bytes.length := by
  simp only [writeBytes, except_bind_eq_error] at h
  obtain h | ⟨o, -, h⟩ := h
  · exact offsetOf_eq_error h
  · cases h

theorem read32_error {f : Fault} (h : m.read32 next rm = .error f) : f.OfData := by
  unfold read32 at h
  split at h
  · cases h
  · rw [readBytes_eq_error (except_map_eq_error.1 h)]
    exact fun _ => nofun
  · cases h

theorem read64_error {f : Fault} (h : m.read64 next rm = .error f) : f.OfData := by
  unfold read64 at h
  split at h
  · cases h
  · rw [readBytes_eq_error (except_map_eq_error.1 h)]
    exact fun _ => nofun
  · cases h

theorem readScalar_error {f : Fault} (h : m.readScalar next rm = .error f) : f.OfData := by
  unfold readScalar at h
  split at h
  · cases h
  · rw [readBytes_eq_error (except_map_eq_error.1 h)]
    exact fun _ => nofun
  · cases h

theorem readPacked_error {f : Fault} (h : m.readPacked next rm = .error f) : f.OfData := by
  unfold readPacked at h
  split at h
  · cases h
  · rw [readBytes_eq_error (except_map_eq_error.1 h)]
    exact fun _ => nofun
  · cases h

theorem readAligned_error {f : Fault} (h : m.readAligned next rm = .error f) : f.OfData := by
  unfold readAligned at h
  split at h
  · split at h
    · exact readPacked_error h
    · cases h
      exact fun _ => nofun
  · exact readPacked_error h

theorem write32_error {w : Word} {f : Fault} (h : m.write32 next rm w = .error f) : f.OfData := by
  unfold write32 at h
  split at h
  · cases h
  · rw [writeBytes_eq_error h]
    exact fun _ => nofun
  · cases h

theorem write64_error {w : UInt64} {f : Fault} (h : m.write64 next rm w = .error f) :
    f.OfData := by
  unfold write64 at h
  split at h
  · cases h
  · rw [writeBytes_eq_error h]
    exact fun _ => nofun
  · cases h

/-- **An instruction that was read fails** by its data alone, as long as
bytes are moved within a register. -/
theorem execute_error {f : Fault} (fails : m.execute rsqrt next i = .error f)
    (register : i.opcode.isShift = true → ∃ id, i.rm = .register id) : f.OfData := by
  obtain ⟨o, reg, rm, immediate⟩ := i
  -- The faults are those of the reads and writes of the operand. A division has its
  -- own, and a shift, which takes a register only, has none.
  cases o
  case idiv =>
    unfold execute at fails
    dsimp only at fails
    obtain h | ⟨w, -, h⟩ := except_bind_eq_error.1 fails
    · exact read32_error h
    · cases d : divide? (m.general32 2) (m.general32 0) w <;> simp only [d] at h
      · cases h
        exact fun _ => nofun
      · cases h
  case psrldq | pslldq =>
    obtain ⟨id, rfl⟩ := register rfl
    cases fails
  all_goals
    simp only [execute, arithmetic, scalar, packed, except_bind_eq_error, pure, Except.pure,
      reduceCtorEq, and_false, exists_false, or_false] at fails
  case movStore | movImm => exact write32_error fails
  case neg | xorImm8 =>
    obtain h | ⟨w, -, h⟩ := fails
    · exact read32_error h
    · exact write32_error h
  case addImm64 =>
    obtain h | ⟨w, -, h⟩ := fails
    · exact read64_error h
    · exact write64_error h
  case movssStore =>
    split at fails
    · cases fails
    · exact write32_error fails
  case movupsStore =>
    split at fails
    · rw [writeBytes_eq_error fails]
      exact fun _ => nofun
    · cases fails
    · cases fails
  case movssLoad =>
    obtain h | ⟨v, -, h⟩ := fails
    · exact readScalar_error h
    · split at h <;> cases h
  case imulImm64 | add64 => exact read64_error fails
  case movupsLoad => exact readPacked_error fails
  case addps | subps | mulps | rsqrtps | andps | orps | xorps | shufps | haddps =>
    exact readAligned_error fails
  case movLoad | add | sub | imul | cmpImm8 | cmpLoad | cmpStore | movsxd | cvtsi2ss =>
    exact read32_error fails
  all_goals exact readScalar_error fails

end Machine

end Shading
