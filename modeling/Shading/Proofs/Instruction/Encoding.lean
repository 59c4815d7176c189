import Shading.Instruction.Decode

/-!
# Instructions are read back

The bytes of an instruction begin with the header of its opcode, and no
header begins with another one. Opcodes that share a header differ in the
digit that stands in the register field. So the reader finds the opcode
that was written (`read?_encode`), as long as the registers are below
eight, the immediate has the length of its opcode, and the displacement
of local memory fits.
-/

namespace Shading

/-- A list of bytes that begins the same as another begins it, or is begun
by it. -/
theorem Opcode.header_inj {o o' : Opcode}
    (h : o.header <+: o'.header ∨ o'.header <+: o.header) : o.header = o'.header := by
  have table : Opcode.all.all (fun o => Opcode.all.all fun o' =>
      !(o.header.isPrefixOf o'.header || o'.header.isPrefixOf o.header) ||
        o.header == o'.header) = true := by decide +kernel
  have mem (o : Opcode) : o ∈ Opcode.all := by cases o <;> decide
  have entry := List.all_eq_true.1 (List.all_eq_true.1 table o (mem o)) o' (mem o')
  have compared : (o.header.isPrefixOf o'.header || o'.header.isPrefixOf o.header) = true := by
    simpa [List.isPrefixOf_iff_prefix] using h
  rw [compared] at entry
  simpa using entry

/-- **A header and a digit make an opcode.** -/
theorem Opcode.digit_ne {o o' : Opcode} (h : o.header = o'.header) (ne : o ≠ o') :
    ∃ d d', o.form.digit = some d ∧ o'.form.digit = some d' ∧ d ≠ d' ∧ d < 8 := by
  have table : Opcode.all.all (fun o => Opcode.all.all fun o' =>
      o.header != o'.header || o == o' ||
        (match o.form.digit, o'.form.digit with
          | some d, some d' => d != d' && d < 8
          | _, _ => false)) = true := by decide +kernel
  have mem (o : Opcode) : o ∈ Opcode.all := by cases o <;> decide
  have entry := List.all_eq_true.1 (List.all_eq_true.1 table o (mem o)) o' (mem o')
  simp only [h, bne_self_eq_false, Bool.false_or, Bool.or_eq_true, beq_iff_eq] at entry
  have entry := entry.resolve_left ne
  split at entry
  · next d d' hd hd' =>
    simp only [Bool.and_eq_true, bne_iff_ne, decide_eq_true_eq] at entry
    exact ⟨d, d', hd, hd', entry.1, entry.2⟩
  · cases entry

namespace Operand

/-- An operand that its mode byte can tell. -/
def Encodable : Operand Nat → Bool
  | .register id => id < 8
  | .globalAt _ => true
  | .localAt offset => offset < 2 ^ 32
  | .indirect id => id < 8 && id != 4 && id != 5

end Operand

namespace Instruction

/-- **An instruction that its bytes can tell.** -/
def Encodable (i : Instruction Nat) : Bool :=
  i.reg < 8 && i.rm.Encodable && i.immediate.length == i.opcode.form.immediate

/-- An instruction as it is read back, with the displacement of a global
operand in place of its offset. -/
def linked (place : Nat → Nat) (i : Instruction Nat) : Instruction Nat :=
  { i with reg := i.field, rm := i.rm.map place }

end Instruction

namespace Decoded

theorem take?_append (xs ys : List UInt8) : take? xs.length (xs ++ ys) = some (xs, ys) := by
  simp [take?]

theorem take?_word (n : Nat) (ys : List UInt8) :
    take? 4 (wordBytes n ++ ys) = some (wordBytes n, ys) := by
  have := take?_append (wordBytes n) ys
  rwa [wordBytes, length_littleEndian] at this

/-- The mode byte of an operand, and what follows it. -/
theorem encode_eq (place : Nat → Nat) (field : Nat) (rm : Operand Nat) :
    ∃ mode tail, rm.encode place field = mode :: tail := by
  cases rm <;> exact ⟨_, _, rfl⟩

/-- **An operand is read back** from its mode byte on. -/
theorem operand?_encode {place : Nat → Nat} (small : ∀ o, place o < 2 ^ 32) {field : Nat}
    (hf : field < 8) {rm : Operand Nat} (ok : rm.Encodable = true) {mode : UInt8}
    {tail : List UInt8} (eq : rm.encode place field = mode :: tail) (rest : List UInt8) :
    mode.toNat / 8 % 8 = field ∧
      operand? mode (tail ++ rest) = some (rm.map place, rest) := by
  have word {n : Nat} (h : n < 2 ^ 32) : ofLittleEndian (wordBytes n) = n := by
    rw [wordBytes, ofLittleEndian_littleEndian]
    exact Nat.mod_eq_of_lt (by simpa using h)
  -- The mode byte is taken apart by division: its two top bits tell the form of the
  -- operand, the next three are the field, and the last three name a register or tell
  -- the form of the address.
  cases rm with
  | register id =>
    simp only [Operand.Encodable, decide_eq_true_eq] at ok
    simp only [Operand.encode, List.cons.injEq] at eq
    obtain ⟨rfl, rfl⟩ := eq
    have value : (UInt8.ofNat (0xC0 + 8 * field + id % 8)).toNat = 0xC0 + 8 * field + id := by
      rw [UInt8.toNat_ofNat']
      omega
    generalize UInt8.ofNat (0xC0 + 8 * field + id % 8) = mode at value ⊢
    refine ⟨by omega, ?_⟩
    have top : (0xC0 + 8 * field + id) / 64 = 3 := by omega
    have low : (0xC0 + 8 * field + id) % 8 = id := by omega
    simp [operand?, value, top, low, Operand.map]
  | globalAt o =>
    simp only [Operand.encode, List.cons.injEq] at eq
    obtain ⟨rfl, rfl⟩ := eq
    have value : (UInt8.ofNat (8 * field + 5)).toNat = 8 * field + 5 := by
      rw [UInt8.toNat_ofNat']
      omega
    generalize UInt8.ofNat (8 * field + 5) = mode at value ⊢
    refine ⟨by omega, ?_⟩
    have top : (8 * field + 5) / 64 = 0 := by omega
    have low : (8 * field + 5) % 8 = 5 := by omega
    simp [operand?, value, top, low, take?_word, word (small o), Operand.map]
  | localAt o =>
    simp only [Operand.Encodable, decide_eq_true_eq] at ok
    simp only [Operand.encode, List.cons.injEq, localBaseRegister] at eq
    obtain ⟨rfl, rfl⟩ := eq
    have value : (UInt8.ofNat (0x80 + 8 * field + 6)).toNat = 0x80 + 8 * field + 6 := by
      rw [UInt8.toNat_ofNat']
      omega
    generalize UInt8.ofNat (0x80 + 8 * field + 6) = mode at value ⊢
    refine ⟨by omega, ?_⟩
    have top : (0x80 + 8 * field + 6) / 64 = 2 := by omega
    have low : (0x80 + 8 * field + 6) % 8 = 6 := by omega
    simp [operand?, value, top, low, take?_word, word ok, Operand.map, localBaseRegister]
  | indirect id =>
    simp only [Operand.Encodable, Bool.and_eq_true, decide_eq_true_eq, bne_iff_ne] at ok
    simp only [Operand.encode, List.cons.injEq] at eq
    obtain ⟨rfl, rfl⟩ := eq
    have value : (UInt8.ofNat (8 * field + id % 8)).toNat = 8 * field + id := by
      rw [UInt8.toNat_ofNat']
      omega
    generalize UInt8.ofNat (8 * field + id % 8) = mode at value ⊢
    refine ⟨by omega, ?_⟩
    have top : (8 * field + id) / 64 = 0 := by omega
    have low : (8 * field + id) % 8 = id := by omega
    simp [operand?, value, top, low, ok.1.2, ok.2, Operand.map]

theorem field_lt (i : Instruction Nat) : i.field < 8 := Nat.mod_lt _ (by decide)

/-- An instruction is read back as one of its opcode. -/
theorem readAs?_encode {place : Nat → Nat} (small : ∀ o, place o < 2 ^ 32) {i : Instruction Nat}
    (ok : i.Encodable = true) (rest : List UInt8) :
    readAs? i.opcode (i.encodeWith place ++ rest) = some (i.linked place, rest) := by
  simp only [Instruction.Encodable, Bool.and_eq_true, decide_eq_true_eq, beq_iff_eq] at ok
  obtain ⟨⟨-, okRm⟩, length⟩ := ok
  obtain ⟨mode, tail, eq⟩ := encode_eq place i.field i.rm
  obtain ⟨field, read⟩ := operand?_encode small (field_lt i) okRm eq (i.immediate ++ rest)
  have digit : i.opcode.form.digit.all (· == i.field) = true := by
    cases hd : i.opcode.form.digit with
    | none => rfl
    | some d =>
      have small : d < 8 := by
        revert hd
        generalize i.opcode = o
        cases o <;> simp [Opcode.form] <;> omega
      simp [Instruction.field, hd, Nat.mod_eq_of_lt small]
  have immediate := take?_append i.immediate rest
  rw [length] at immediate
  have bytes : i.encodeWith place ++ rest =
      i.opcode.header ++ (mode :: (tail ++ (i.immediate ++ rest))) := by
    simp [Instruction.encodeWith, eq]
  rw [bytes, readAs?, if_pos (by simp [List.isPrefixOf_iff_prefix])]
  simp only [List.drop_left, field, digit, if_true, read, immediate, bind, Option.bind]
  rfl

/-- An instruction is read as one of no other opcode. -/
theorem readAs?_other {place : Nat → Nat} (small : ∀ o, place o < 2 ^ 32) {i : Instruction Nat}
    (ok : i.Encodable = true) (rest : List UInt8) {o : Opcode} (ne : o ≠ i.opcode) :
    readAs? o (i.encodeWith place ++ rest) = none := by
  simp only [Instruction.Encodable, Bool.and_eq_true, decide_eq_true_eq, beq_iff_eq] at ok
  obtain ⟨⟨-, okRm⟩, -⟩ := ok
  obtain ⟨mode, tail, eq⟩ := encode_eq place i.field i.rm
  obtain ⟨field, -⟩ := operand?_encode small (field_lt i) okRm eq (i.immediate ++ rest)
  have bytes : i.encodeWith place ++ rest =
      i.opcode.header ++ (mode :: (tail ++ (i.immediate ++ rest))) := by
    simp [Instruction.encodeWith, eq]
  rw [bytes, readAs?]
  split
  · next starts =>
    rw [List.isPrefixOf_iff_prefix] at starts
    have same : o.header = i.opcode.header :=
      Opcode.header_inj (List.prefix_or_prefix_of_prefix starts (List.prefix_append _ _))
    obtain ⟨d, d', hd, hd', other, small⟩ := Opcode.digit_ne same.symm ne.symm
    have mine : i.field = d := by
      rw [Instruction.field, hd, Option.getD_some, Nat.mod_eq_of_lt small]
    simp [same, field, hd', mine, other.symm]
  · rfl

/-- Nothing else begins like an instruction with operands. -/
theorem readControl?_encode (place : Nat → Nat) (i : Instruction Nat) (rest : List UInt8) :
    readControl? (i.encodeWith place ++ rest) = none := by
  obtain ⟨mode, tail, eq⟩ := encode_eq place i.field i.rm
  have bytes : i.encodeWith place ++ rest =
      i.opcode.header ++ (mode :: (tail ++ (i.immediate ++ rest))) := by
    simp [Instruction.encodeWith, eq]
  rw [bytes]
  generalize i.opcode = o
  cases o <;> rfl

/-- **An instruction is read back**, and what follows it. -/
theorem read?_encode {place : Nat → Nat} (small : ∀ o, place o < 2 ^ 32) {i : Instruction Nat}
    (ok : i.Encodable = true) (rest : List UInt8) :
    read? (i.encodeWith place ++ rest) = some (.op (i.linked place), rest) := by
  have found : ∀ os : List Opcode, i.opcode ∈ os →
      os.findSome? (fun o => readAs? o (i.encodeWith place ++ rest)) =
        some (i.linked place, rest) := by
    intro os mem
    induction os with
    | nil => cases mem
    | cons o os ih =>
      rw [List.findSome?_cons]
      by_cases here : o = i.opcode
      · rw [here, readAs?_encode small ok]
      · rw [readAs?_other small ok rest here]
        exact ih ((List.mem_cons.1 mem).resolve_left fun same => here same.symm)
  have known : i.opcode ∈ Opcode.all := by cases i.opcode <;> decide
  rw [read?, readControl?_encode, found _ known]
  rfl

end Decoded

end Shading
