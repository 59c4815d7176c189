import Shading.Proofs.Machine.Words

/-!
# What code does to a machine

Code that has no place yet is carried out entry by entry
(`Machine.Track.run`): a jump that is taken passes over what stands before
its mark. An instruction writes one register, or its operand in memory, and
every other register keeps its content (`Machine.perform_content`). Registers
are saved in memory and loaded again as bytes: the lower half of a general
register, and all of an SSE register.
-/

namespace Shading

namespace Machine

variable {m m' : Machine} {rsqrt : Word → Word} {next : Nat} {rm : Operand Nat} {i : Instruction Nat}

/-! ## SSE registers -/

/-- Whether an instruction writes an SSE register. -/
def writesSimd (i : Instruction Nat) (id : Nat) : Prop :=
  match i.opcode with
  | .movssLoad | .addss | .subss | .mulss | .divss | .maxss | .sqrtss | .cvtsi2ss | .movupsLoad | .addps
  | .subps | .mulps | .rsqrtps | .andps | .orps | .xorps | .shufps | .haddps => i.reg = id
  | .movssStore | .movupsStore | .psrldq | .pslldq => i.rm = .register id
  | _ => False

theorem simd_registers (h : m'.registers.simd = m.registers.simd) (id : Nat) : m'.simd id = m.simd id := by
  rw [simd, simd, h]

/-- Flags are no SSE registers. -/
theorem simd_setFlags (m : Machine) (flags : Flags) (id : Nat) : (m.setFlags flags).simd id = m.simd id := rfl

theorem writeBytes_registers {a : Nat} {bytes : List UInt8} (h : m.writeBytes a bytes = .ok m') :
    m'.registers = m.registers := by
  obtain ⟨-, rfl⟩ := writeBytes_eq_ok.1 h
  rfl

/-- What is written as a general operand is no SSE register. -/
theorem write32_simd {w : Word} (h : m.write32 next rm w = .ok m') : m'.registers.simd = m.registers.simd := by
  unfold write32 at h
  split at h
  · cases h
    rfl
  · exact congrArg Registers.simd (writeBytes_registers h)
  · cases h
    rfl

theorem write64_simd {w : UInt64} (h : m.write64 next rm w = .ok m') : m'.registers.simd = m.registers.simd := by
  unfold write64 at h
  split at h
  · cases h
    rfl
  · exact congrArg Registers.simd (writeBytes_registers h)
  · cases h
    rfl

theorem simd_setSimd_of_ne {id j : Nat} {v : Lanes} (other : id % 8 ≠ j % 8) :
    (m.setSimd id v).simd j = m.simd j := by
  rw [simd_set, if_neg fun same => other same.symm]

theorem simd_setScalar_of_ne {id j : Nat} {w : Word} (other : id % 8 ≠ j % 8) :
    (m.setScalar id w).simd j = m.simd j := simd_setSimd_of_ne other

/-- **An SSE register keeps its content** under an instruction that does not
write it. -/
theorem execute_simd (run : m.execute rsqrt next i = .ok m') {id : Nat}
    (spares : ∀ j, writesSimd i j → j % 8 ≠ id % 8) : m'.simd id = m.simd id := by
  obtain ⟨o, reg, rm, immediate⟩ := i
  -- An operation writes one SSE register at most, the one in its register field or in
  -- its operand, and neither is this one.
  cases o
  case idiv =>
    obtain ⟨w, q, r, -, -, rfl⟩ := execute_idiv run
    rfl
  all_goals
    simp only [execute, arithmetic, scalar, packed, except_bind_eq_ok, pure, Except.pure,
      Except.ok.injEq] at run
  case movStore | movImm => exact simd_registers (write32_simd run) id
  case neg | xorImm8 =>
    obtain ⟨a, -, m₁, write, rfl⟩ := run
    exact simd_registers (write32_simd write) id
  case addImm64 =>
    obtain ⟨a, -, m₁, write, rfl⟩ := run
    exact (simd_setFlags _ _ id).trans (simd_registers (write64_simd write) id)
  case lea => exact simd_registers (by rw [← run]; rfl) id
  case movssStore =>
    split at run
    · next j =>
      cases run
      exact simd_setScalar_of_ne (spares j rfl)
    · exact simd_registers (write32_simd run) id
  case movupsStore =>
    split at run
    · exact simd_registers (congrArg Registers.simd (writeBytes_registers run)) id
    · next j _ =>
      cases run
      exact simd_setSimd_of_ne (spares j rfl)
    · cases run
      rfl
  case movssLoad =>
    obtain ⟨v, -, run⟩ := run
    split at run
    · cases run
      exact simd_setScalar_of_ne (spares reg rfl)
    · cases run
      exact simd_setSimd_of_ne (spares reg rfl)
  case psrldq | pslldq =>
    split at run
    · next j =>
      cases run
      exact simd_setSimd_of_ne (spares j rfl)
    · cases run
  case addss | subss | mulss | divss | maxss | sqrtss | cvtsi2ss =>
    obtain ⟨v, -, rfl⟩ := run
    exact simd_setScalar_of_ne (spares reg rfl)
  case movupsLoad | addps | subps | mulps | rsqrtps | andps | orps | xorps | shufps | haddps =>
    obtain ⟨v, -, rfl⟩ := run
    exact simd_setSimd_of_ne (spares reg rfl)
  case imulImm64 | add64 =>
    obtain ⟨v, -, rfl⟩ := run
    exact (simd_setFlags _ _ id).trans (simd_registers rfl id)
  all_goals
    obtain ⟨v, -, rfl⟩ := run
    exact simd_registers rfl id

/-! ## Flags -/

end Machine

/-- Whether an opcode leaves the flags as they are. -/
def Opcode.keepsFlags : Opcode → Bool
  | add | sub | imul | neg | idiv | xorImm8 | cmpImm8 | cmpLoad | cmpStore | imulImm64 | add64 | addImm64 | comiss => false
  | _ => true

namespace Machine

variable {m m' : Machine} {rsqrt : Word → Word} {next : Nat} {rm : Operand Nat} {i : Instruction Nat}

theorem write32_flags {w : Word} (h : m.write32 next rm w = .ok m') : m'.registers.flags = m.registers.flags := by
  unfold write32 at h
  split at h
  · cases h
    rfl
  · exact congrArg Registers.flags (writeBytes_registers h)
  · cases h
    rfl

/-- **Moves and float arithmetic keep the flags.** -/
theorem execute_flags (run : m.execute rsqrt next i = .ok m') (keeps : i.opcode.keepsFlags = true) :
    m'.registers.flags = m.registers.flags := by
  obtain ⟨o, reg, rm, immediate⟩ := i
  cases o
  case add | sub | imul | neg | idiv | xorImm8 | cmpImm8 | cmpLoad | cmpStore | imulImm64 | add64 | addImm64 | comiss =>
    cases keeps
  all_goals
    simp only [execute, scalar, packed, except_bind_eq_ok, pure, Except.pure, Except.ok.injEq] at run
  case movStore | movImm => exact write32_flags run
  case lea =>
    subst run
    rfl
  case movssStore =>
    split at run
    · cases run
      rfl
    · exact write32_flags run
  case movupsStore =>
    split at run
    · exact congrArg Registers.flags (writeBytes_registers run)
    · cases run
      rfl
    · cases run
      rfl
  case movssLoad =>
    obtain ⟨v, -, run⟩ := run
    split at run <;> cases run <;> rfl
  case psrldq | pslldq =>
    split at run
    · cases run
      rfl
    · cases run
  all_goals
    obtain ⟨v, -, rfl⟩ := run
    rfl

/-! ## The content of registers -/

end Machine

/-- The words of the content of a register: one for the lower half of a
general register, and four for an SSE register. -/
def RegisterClass.words : RegisterClass → Nat
  | general => 1
  | simd => 4

theorem RegisterClass.spillSize_eq (c : RegisterClass) : c.spillSize = 4 * c.words := by cases c <;> rfl

namespace Machine

/-- **A word of the content of a register.** -/
def content (m : Machine) : RegisterClass → Nat → Nat → Word
  | .general, id, _ => m.general32 id
  | .simd, id, k => (m.simd id).get k

end Machine

namespace Opcode

/-- The class of the register that an opcode computes into, if it writes
neither its operand nor the registers of a division. -/
def written? : Opcode → Option RegisterClass
  | movLoad | add | sub | imul | movsxd | imulImm64 | add64 | lea | cvttss2si => some .general
  | movssLoad | addss | subss | mulss | divss | maxss | sqrtss | cvtsi2ss | movupsLoad | addps | subps | mulps
  | rsqrtps | andps | orps | xorps | shufps | haddps => some .simd
  | _ => none

/-- The class of the operand that an opcode writes, of those that may be
registers. -/
def inPlace? : Opcode → Option RegisterClass
  | movStore | movImm | neg | xorImm8 | addImm64 => some .general
  | movssStore | movupsStore | psrldq | pslldq => some .simd
  | _ => none

/-- An opcode that computes into its register leaves its operand alone. -/
theorem inPlace?_of_written? {o : Opcode} {c : RegisterClass} (h : o.written? = some c) :
    o.inPlace? = none ∧ o.writesOperand = false ∧ o ≠ .idiv := by
  revert h
  cases o <;> first | (rintro ⟨⟩; done) | exact fun _ => ⟨rfl, rfl, nofun⟩

end Opcode

/-- Whether an instruction writes a register. -/
def Instruction.Writes (i : Instruction Nat) : RegisterClass → Nat → Prop
  | .general, id => Machine.writesGeneral i id
  | .simd, id => Machine.writesSimd i id

namespace Instruction

variable {i : Instruction Nat} {c : RegisterClass} {id : Nat}

/-- **Which register an instruction writes**: that of its register field, or
its operand. -/
theorem Writes.cases (h : i.Writes c id) (other : i.opcode ≠ .idiv) :
    (i.opcode.written? = some c ∧ id = i.reg) ∨ (i.opcode.inPlace? = some c ∧ i.rm = .register id) := by
  obtain ⟨o, reg, rm, immediate⟩ := i
  cases o <;> cases c <;> simp_all [Writes, Machine.writesGeneral, Machine.writesSimd, Opcode.written?,
    Opcode.inPlace?]

/-- Placing an operand does not change which register is written. -/
theorem writes_anchored : i.anchored.Writes c id ↔ i.Writes c id := by
  obtain ⟨o, reg, rm, immediate⟩ := i
  cases c <;> cases o <;> cases rm <;>
    simp [Writes, Machine.writesGeneral, Machine.writesSimd, anchored, map, Operand.map]

end Instruction

namespace Machine

variable {m m' : Machine} {rsqrt : Word → Word} {next : Nat} {rm : Operand Nat} {i : Instruction Nat}

/-- A general register keeps all of its bits under an instruction that does
not write it. -/
theorem perform_general64 (run : m.perform rsqrt i = .ok m') {id : Nat}
    (spares : ∀ j, i.Writes .general j → j % 8 ≠ id % 8) : m'.general64 id = m.general64 id := by
  rcases execute_spares run id with same | ⟨j, writes, index, -⟩
  · exact same
  · exact absurd index (spares j (Instruction.writes_anchored.1 writes))

/-- **A register keeps its content** under an instruction that does not
write it. -/
theorem perform_content (run : m.perform rsqrt i = .ok m') {c : RegisterClass} {id : Nat}
    (spares : ∀ j, i.Writes c j → j % 8 ≠ id % 8) (k : Nat) : m'.content c id k = m.content c id k := by
  cases c with
  | general => rw [content, content, general32, general32, perform_general64 run spares]
  | simd =>
    rw [content, content, execute_simd run fun j writes => spares j (Instruction.writes_anchored.1 writes)]

/-- Only an operand that is written changes bytes. -/
theorem perform_bytes (run : m.perform rsqrt i = .ok m') {k : Nat}
    (outside : ∀ a, i.opcode.writesOperand = true → m.operandAddress? i = some a → ¬ m.bytesAt a i.opcode.reach k) :
    m'.block.get k = m.block.get k :=
  (execute_frames run).bytes k fun ⟨writes, a, address, at_⟩ => outside a writes address at_

theorem perform_flags (run : m.perform rsqrt i = .ok m') (keeps : i.opcode.keepsFlags = true) :
    m'.registers.flags = m.registers.flags := execute_flags run keeps

/-! ## Saving a register -/

/-- The address of a global operand in the block. -/
theorem address_global {o n : Nat} (whole : m.base + m.block.size ≤ addressCount) (inside : o + n ≤ m.block.size)
    (positive : 0 < n) : (((m.base + o : Nat) + signedValue 32 0) % (addressCount : Nat)).toNat = m.base + o := by
  have same : ((m.base + o : Nat) : Int) + signedValue 32 0 = ((m.base + o : Nat) : Int) := Int.add_zero _
  rw [same, ← Int.natCast_emod, Int.toNat_natCast, Nat.mod_eq_of_lt (by omega)]

/-- **A word of bytes that were stored** is read back. -/
theorem wordOfBytes_getBytes_setBytes (b : Block) {o k : Nat} {xs : List UInt8} (inside : 4 * k + 4 ≤ xs.length) :
    wordOfBytes ((b.setBytes o xs).getBytes (o + 4 * k) 4) = wordOfBytes (xs.drop (4 * k)) := by
  have bytes : (b.setBytes o xs).getBytes (o + 4 * k) 4 = (xs.drop (4 * k)).take 4 := by
    refine List.ext_getElem? fun j => ?_
    by_cases small : j < 4
    · rw [Block.getElem?_getBytes small, Block.get_setBytes, if_pos (by omega), List.getElem?_take_of_lt small,
        List.getElem?_drop, show o + 4 * k + j - o = 4 * k + j by omega,
        List.getElem?_eq_getElem (show 4 * k + j < xs.length by omega)]
      rfl
    · rw [List.getElem?_eq_none (by rw [Block.length_getBytes]; omega),
        List.getElem?_eq_none (by rw [List.length_take]; omega)]
  rw [bytes, wordOfBytes, wordOfBytes, List.take_take, Nat.min_self]

/-- A word of bytes that are read. -/
theorem drop_getBytes (b : Block) {o k n : Nat} (inside : 4 * k + 4 ≤ n) :
    wordOfBytes ((b.getBytes o n).drop (4 * k)) = wordOfBytes (b.getBytes (o + 4 * k) 4) := by
  have bytes : ((b.getBytes o n).drop (4 * k)).take 4 = (b.getBytes (o + 4 * k) 4).take 4 := by
    refine List.ext_getElem? fun j => ?_
    by_cases small : j < 4
    · rw [List.getElem?_take_of_lt small, List.getElem?_take_of_lt small, List.getElem?_drop,
        Block.getElem?_getBytes small, Block.getElem?_getBytes (by omega), Nat.add_assoc]
    · rw [List.getElem?_eq_none (by rw [List.length_take]; omega),
        List.getElem?_eq_none (by rw [List.length_take]; omega)]
  rw [wordOfBytes, wordOfBytes, bytes]

/-- The words of the bytes of four lanes. -/
theorem wordOfBytes_lanes (l : Lanes) {k : Nat} (hk : k < 4) : wordOfBytes (l.bytes.drop (4 * k)) = l.get k := by
  rw [← get_ofBytes l.bytes hk]
  have same := Lanes.ofBytes_bytes l []
  rw [List.append_nil] at same
  rw [same]

/-- **A register is saved** in global memory: the words of its content are
there, and registers stay as they were. -/
theorem perform_save {c : RegisterClass} {id o : Nat} (whole : m.base + m.block.size ≤ addressCount)
    (inside : o + c.spillSize ≤ m.block.size)
    (run : m.perform rsqrt ⟨(Lower.spillWidth c).store, id, .globalAt o, []⟩ = .ok m') :
    m'.registers = m.registers ∧ ∀ k < c.words, m'.wordAt (o + 4 * k) = m.content c id k := by
  have here : m.address? o (.globalAt 0) = some (m.base + o) :=
    congrArg some (address_global whole inside (by cases c <;> decide))
  cases c with
  | general =>
    have run : m.write32 o (.globalAt 0) (m.general32 id) = .ok m' := run
    rw [write32_memory here] at run
    obtain ⟨-, rfl⟩ := writeBytes_eq_ok.1 run
    refine ⟨rfl, fun k hk => ?_⟩
    have length := length_bytesOfWord (m.general32 id)
    have hk : k < 1 := hk
    have word := wordOfBytes_bytesOfWord (m.general32 id) []
    rw [List.append_nil] at word
    obtain rfl : k = 0 := by omega
    rw [wordAt, Nat.add_sub_cancel_left, wordOfBytes_getBytes_setBytes _ (by omega)]
    exact word
  | simd =>
    have run : m.writeBytes (m.base + o) (m.simd id).bytes = .ok m' := by
      rw [← run]
      simp only [perform, execute, Instruction.anchor, Instruction.anchored, Instruction.map, Operand.map,
        Lower.spillWidth, Width.store, here]
    obtain ⟨-, rfl⟩ := writeBytes_eq_ok.1 run
    refine ⟨rfl, fun k hk => ?_⟩
    have hk : k < 4 := hk
    rw [wordAt, Nat.add_sub_cancel_left,
      wordOfBytes_getBytes_setBytes _ (by rw [Lanes.length_bytes]; omega), wordOfBytes_lanes _ hk]
    rfl

/-- **A register is loaded again**: its content is what has been saved, and
memory stays as it was. -/
theorem perform_reload {c : RegisterClass} {id o : Nat} (whole : m.base + m.block.size ≤ addressCount)
    (inside : o + c.spillSize ≤ m.block.size)
    (run : m.perform rsqrt ⟨(Lower.spillWidth c).load, id, .globalAt o, []⟩ = .ok m') :
    m'.block = m.block ∧ ∀ k < c.words, m'.content c id k = m.wordAt (o + 4 * k) := by
  have here : m.address? o (.globalAt 0) = some (m.base + o) :=
    congrArg some (address_global whole inside (by cases c <;> decide))
  cases c with
  | general =>
    obtain ⟨w, read, eq⟩ := except_bind_eq_ok.1 (show (m.read32 o (.globalAt 0) >>= fun w =>
      pure (m.setGeneral32 id w)) = .ok m' from run)
    cases eq
    rw [read32_memory here] at read
    obtain ⟨xs, got, rfl⟩ := except_map_eq_ok.1 read
    obtain ⟨-, rfl⟩ := readBytes_eq_ok.1 got
    refine ⟨rfl, fun k hk => ?_⟩
    have hk : k < 1 := hk
    obtain rfl : k = 0 := by omega
    rw [Nat.add_sub_cancel_left, content, general32, setGeneral32, general64_set, if_pos rfl,
      UInt32.toUInt32_toUInt64]
    rfl
  | simd =>
    obtain ⟨v, read, eq⟩ := except_bind_eq_ok.1 (show (m.readPacked o (.globalAt 0) >>= fun v =>
      pure (m.setSimd id v)) = .ok m' from run)
    cases eq
    rw [readPacked_memory here] at read
    obtain ⟨xs, got, rfl⟩ := except_map_eq_ok.1 read
    obtain ⟨-, rfl⟩ := readBytes_eq_ok.1 got
    refine ⟨rfl, fun k hk => ?_⟩
    have hk : k < 4 := hk
    rw [Nat.add_sub_cancel_left, content, simd_set, if_pos rfl, get_ofBytes _ hk,
      drop_getBytes _ (by omega)]
    rfl

/-! ## Runs over code -/

/-- **How far a run over some code has come.** -/
inductive Track where
  | running (m : Machine)
  /-- A jump has been taken, and its mark is not reached yet. -/
  | seeking (label : Nat) (m : Machine)
  /-- An instruction has faulted, or the code has been left. -/
  | stopped

namespace Track

/-- **A run passes an entry.** -/
def step (rsqrt : Word → Word) : Track → CodeEntry → Track
  | running m, .instruction i _ =>
    match m.perform rsqrt i with
    | .ok m' => running m'
    | .error _ => stopped
  | running m, .cdq => running m.extendSign
  | running m, .jump form label _ => if form.taken m.registers.flags then seeking label m else running m
  | running m, .mark _ => running m
  | running _, .ret | running _, .call _ | running _, .raw _ _ => stopped
  | seeking label m, .mark l => if l = label then running m else seeking label m
  | track, _ => track

/-- **A run over some code.** -/
def run (rsqrt : Word → Word) (track : Track) (es : List CodeEntry) : Track := es.foldl (step rsqrt) track

variable {rsqrt : Word → Word} {track : Track} {es : List CodeEntry} {m m' : Machine}

@[simp] theorem run_nil : run rsqrt track [] = track := rfl

theorem run_append (es' : List CodeEntry) : run rsqrt track (es ++ es') = run rsqrt (run rsqrt track es) es' :=
  List.foldl_append

@[simp] theorem run_concat (e : CodeEntry) : run rsqrt track (es ++ [e]) = step rsqrt (run rsqrt track es) e :=
  run_append [e]

@[simp] theorem run_stopped (es : List CodeEntry) : run rsqrt stopped es = stopped := by
  induction es with
  | nil => rfl
  | cons e es ih => exact ih

theorem run_instruction {i : Instruction Nat} {text : String} :
    run rsqrt (running m) [.instruction i text] = match m.perform rsqrt i with
      | .ok m' => running m'
      | .error _ => stopped := rfl

/-- A jump over an instruction. -/
theorem run_skip {form : JumpForm} {label : Nat} {distance : Int} {i : Instruction Nat} {text : String} :
    run rsqrt (running m) [.jump form label distance, .instruction i text, .mark label] =
      if form.taken m.registers.flags then running m
      else match m.perform rsqrt i with
        | .ok m' => running m'
        | .error _ => stopped := by
  have jump : step rsqrt (running m) (.jump form label distance) =
      if form.taken m.registers.flags then seeking label m else running m := rfl
  simp only [run, List.foldl_cons, List.foldl_nil, jump]
  split
  · exact if_pos rfl
  · simp only [step]
    cases m.perform rsqrt i <;> rfl

end Track

end Machine

/-! ## Code up to distances -/

/-- **An entry without the distance of its jump.** -/
def CodeEntry.unaimed : CodeEntry → CodeEntry
  | .jump form label _ => .jump form label 0
  | e => e

/-- An entry that is written does not depend on distances. -/
theorem CodeEntry.unaimed_setDistance (label : Nat) (distance : Int) (e : CodeEntry) :
    (Assembly.setDistance label distance e).unaimed = e.unaimed := by
  cases e <;> rfl

namespace Machine.Track

variable {rsqrt : Word → Word}

/-- Distances do not matter. -/
theorem run_unaimed (track : Track) (es : List CodeEntry) :
    run rsqrt track (es.map CodeEntry.unaimed) = run rsqrt track es := by
  have same (track : Track) (e : CodeEntry) : step rsqrt track e.unaimed = step rsqrt track e := by
    cases e <;> cases track <;> rfl
  induction es generalizing track with
  | nil => rfl
  | cons e es ih =>
    change run rsqrt (step rsqrt track e.unaimed) _ = run rsqrt (step rsqrt track e) es
    rw [same, ih]

/-- What is no mark of a label is passed over while the label is sought. -/
theorem run_seeking {label : Nat} {m : Machine} {es : List CodeEntry} (first : CodeEntry.mark label ∉ es) :
    run rsqrt (.seeking label m) es = .seeking label m := by
  induction es with
  | nil => rfl
  | cons e es ih =>
    rw [List.mem_cons, not_or] at first
    have stays : step rsqrt (.seeking label m) e = .seeking label m := by
      cases e with
      | mark l => exact if_neg fun same => first.1 (congrArg CodeEntry.mark same.symm)
      | _ => rfl
    change run rsqrt (step rsqrt (.seeking label m) e) es = _
    rw [stays]
    exact ih first.2

end Machine.Track

end Shading
