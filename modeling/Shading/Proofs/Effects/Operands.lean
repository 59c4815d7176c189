import Shading.Proofs.Frames.Emission

/-!
# Operands in their places

An operand is in a register or in memory, at an offset of a region or where a
register leads. It is read word by word (`Machine.part`). A machine that has the
place (`Machine.Has`) reads it without a fault, and the instructions that the
operations are made of have one lemma each for what they do with it.
-/

namespace Shading

namespace Machine

variable {m m' : Machine} {rsqrt : Word → Word} {L n : Nat} {l : Location} {i : Instruction Nat}

/-! ## Places -/

/-- The address of a place in memory. -/
def addressOf (m : Machine) (L : Nat) : Location → Nat
  | .globalMemory o => m.base + o
  | .localMemory o => m.base + (L + o)
  | .indirectRegister id => (m.general64 id).toNat
  | _ => 0

/-- The address of a place depends on the register that it stands behind. -/
theorem addressOf_congr (base : m'.base = m.base) (l : Location)
    (same : ∀ id, l = .indirectRegister id → m'.general64 id = m.general64 id) : m'.addressOf L l = m.addressOf L l := by
  cases l with
  | indirectRegister id => rw [addressOf, addressOf, same id rfl]
  | _ => simp only [addressOf, base]

/-- Where a place in memory starts in the block. -/
def offsetAt (m : Machine) (L : Nat) (l : Location) : Nat := m.addressOf L l - m.base

/-- **A word of what is in a place.** -/
def part (m : Machine) (L : Nat) : Location → Nat → Word
  | .register id, _ => m.general32 id
  | .simdRegister id, k => (m.simd id).get k
  | l, k => m.wordAt (m.offsetAt L l + 4 * k)

/-- **The lanes in a place.** -/
def lanesAt (m : Machine) (L : Nat) (l : Location) : Lanes :=
  ⟨m.part L l 0, m.part L l 1, m.part L l 2, m.part L l 3⟩

theorem get_lanesAt (m : Machine) (L : Nat) (l : Location) {k : Nat} (small : k < 4) :
    (m.lanesAt L l).get k = m.part L l k := by
  obtain rfl | rfl | rfl | rfl : k = 0 ∨ k = 1 ∨ k = 2 ∨ k = 3 := by omega
  all_goals rfl

@[simp] theorem lanesAt_simd (m : Machine) (L id : Nat) : m.lanesAt L (.simdRegister id) = m.simd id := rfl

theorem part_memory (m : Machine) (L : Nat) (memory : l.isInMemory = true) (k : Nat) :
    m.part L l k = m.wordAt (m.offsetAt L l + 4 * k) := by
  cases l <;> first | rfl | cases memory

/-- Lanes in memory are words in memory. -/
theorem ofBytes_getBytes (m : Machine) (L : Nat) (memory : l.isInMemory = true) :
    Lanes.ofBytes (m.block.getBytes (m.offsetAt L l) 16) = m.lanesAt L l := by
  have word {k : Nat} (hk : k < 4) :
      (Lanes.ofBytes (m.block.getBytes (m.offsetAt L l) 16)).get k = m.part L l k := by
    rw [get_ofBytes _ hk, drop_getBytes _ (by omega), part_memory m L memory, wordAt]
  rw [lanesAt, ← word (k := 0) (by decide), ← word (k := 1) (by decide), ← word (k := 2) (by decide),
    ← word (k := 3) (by decide)]
  rfl

/-- **A machine has a place of so many bytes**: a register, or memory of the
block. -/
structure Has (m : Machine) (L n : Nat) (l : Location) : Prop where
  operand : l.isRegister = true ∨ l.isInMemory = true
  near : ∀ o, l = .localMemory o → o < 2 ^ 31
  spans : l.isInMemory = true → m.Spans (m.addressOf L l) n

theorem has_location (c : RegisterClass) (id : Nat) : m.Has L n (c.location id) := by
  cases c <;> exact ⟨.inl rfl, by rintro _ ⟨⟩, by rintro ⟨⟩⟩

theorem Has.mono {k : Nat} (h : m.Has L n l) (less : k ≤ n) : m.Has L k l :=
  ⟨h.operand, h.near, fun memory => ⟨(h.spans memory).1, Nat.le_trans (Nat.add_le_add_left less _) (h.spans memory).2⟩⟩

/-- **The address of an operand** is that of its place. -/
theorem Has.address? (h : m.Has L n l) (ground : m.Grounded L) (positive : 0 < n) (memory : l.isInMemory = true)
    (rm : i.rm = l.operand) : m.address? i.anchor i.anchored.rm = some (m.addressOf L l) := by
  obtain ⟨low, high⟩ := h.spans memory
  have whole := ground.whole
  change m.operandAddress? i = _
  cases l with
  | globalMemory o =>
    simp only [addressOf] at low high
    rw [operandAddress?_globalAt rm, address_global whole (n := n) (by omega) positive]
    rfl
  | localMemory o =>
    simp only [addressOf] at low high
    have same : ((m.base + L : Nat) : Int) + (o : Int) = ((m.base + (L + o) : Nat) : Int) := by omega
    rw [operandAddress?_localAt rm, signedValue_small (h.near o rfl), ground.localBase, same,
      toNat_address (by omega)]
    rfl
  | indirectRegister id => exact operandAddress?_indirect rm
  | _ => cases memory

/-! ## Reading -/

theorem Has.read32 (h : m.Has L 4 l) (ground : m.Grounded L) (integral : ∀ id, l ≠ .simdRegister id)
    (rm : i.rm = l.operand) : m.read32 i.anchor i.anchored.rm = .ok (m.part L l 0) := by
  rcases h.operand with whole | memory
  · obtain ⟨o, reg, _, immediate⟩ := i
    obtain rfl := rm
    cases l with
    | register id => rfl
    | simdRegister id => exact absurd rfl (integral id)
    | _ => cases whole
  · rw [read32_memory (h.address? ground (by decide) memory rm), readBytes_eq_ok.2 ⟨h.spans memory, rfl⟩]
    cases l <;> first | rfl | cases memory

theorem Has.readScalar (h : m.Has L 4 l) (ground : m.Grounded L) (float : ∀ id, l ≠ .register id)
    (rm : i.rm = l.operand) : m.readScalar i.anchor i.anchored.rm = .ok (m.part L l 0) := by
  rcases h.operand with whole | memory
  · obtain ⟨o, reg, _, immediate⟩ := i
    obtain rfl := rm
    cases l with
    | register id => exact absurd rfl (float id)
    | simdRegister id => rfl
    | _ => cases whole
  · rw [readScalar_memory (h.address? ground (by decide) memory rm), readBytes_eq_ok.2 ⟨h.spans memory, rfl⟩]
    cases l <;> first | rfl | cases memory

theorem Has.readPacked (h : m.Has L 16 l) (ground : m.Grounded L) (float : ∀ id, l ≠ .register id)
    (rm : i.rm = l.operand) : m.readPacked i.anchor i.anchored.rm = .ok (m.lanesAt L l) := by
  rcases h.operand with whole | memory
  · obtain ⟨o, reg, _, immediate⟩ := i
    obtain rfl := rm
    cases l with
    | register id => exact absurd rfl (float id)
    | simdRegister id => rfl
    | _ => cases whole
  · rw [readPacked_memory (h.address? ground (by decide) memory rm), readBytes_eq_ok.2 ⟨h.spans memory, rfl⟩,
      ← ofBytes_getBytes m L memory]
    rfl

/-- A place that is aligned, if it is in memory. -/
def Straight16 (m : Machine) (L : Nat) (l : Location) : Prop := l.isInMemory = true → m.addressOf L l % 16 = 0

theorem Has.readAligned (h : m.Has L 16 l) (ground : m.Grounded L) (float : ∀ id, l ≠ .register id)
    (aligned : m.Straight16 L l) (rm : i.rm = l.operand) :
    m.readAligned i.anchor i.anchored.rm = .ok (m.lanesAt L l) := by
  refine readAligned_eq_ok.2 ⟨fun a address => ?_, h.readPacked ground float rm⟩
  rcases h.operand with whole | memory
  · change m.operandAddress? i = some a at address
    have register : ∃ id, i.rm = .register id := by cases l <;> first | exact ⟨_, rm⟩ | cases whole
    obtain ⟨id, rm⟩ := register
    rw [operandAddress?_register rm] at address
    cases address
  · rw [h.address? ground (by decide) memory rm] at address
    cases address
    exact aligned memory

/-! ## Loading -/

theorem perform_loadWord (h : m.Has L 4 l) (ground : m.Grounded L) (integral : ∀ id, l ≠ .simdRegister id) (id : Nat) :
    m.perform rsqrt ⟨.movLoad, id, l.operand, []⟩ = .ok (m.setGeneral32 id (m.part L l 0)) :=
  except_bind_eq_ok.2 ⟨_, h.read32 ground integral (i := ⟨.movLoad, id, l.operand, []⟩) rfl, rfl⟩

variable (rsqrt) in
/-- **A float is loaded**; from memory it clears the other lanes. -/
theorem perform_loadFloat (h : m.Has L 4 l) (ground : m.Grounded L) (float : ∀ id, l ≠ .register id) (id : Nat) :
    ∃ v : Lanes, m.perform rsqrt ⟨.movssLoad, id, l.operand, []⟩ = .ok (m.setSimd id v) ∧ v.x = m.part L l 0 := by
  have read := h.readScalar ground float (i := ⟨.movssLoad, id, l.operand, []⟩) rfl
  rcases h.operand with whole | memory
  · cases l with
    | register j => exact absurd rfl (float j)
    | simdRegister j => exact ⟨_, except_bind_eq_ok.2 ⟨_, read, rfl⟩, rfl⟩
    | _ => cases whole
  · refine ⟨⟨m.part L l 0, 0, 0, 0⟩, except_bind_eq_ok.2 ⟨_, read, ?_⟩, rfl⟩
    cases l <;> first | rfl | cases memory

theorem perform_loadPacked (h : m.Has L 16 l) (ground : m.Grounded L) (float : ∀ id, l ≠ .register id) (id : Nat) :
    m.perform rsqrt ⟨.movupsLoad, id, l.operand, []⟩ = .ok (m.setSimd id (m.lanesAt L l)) :=
  except_bind_eq_ok.2 ⟨_, h.readPacked ground float (i := ⟨.movupsLoad, id, l.operand, []⟩) rfl, rfl⟩

/-- An integer is converted into the first lane. -/
theorem perform_convert (h : m.Has L 4 l) (ground : m.Grounded L) (integral : ∀ id, l ≠ .simdRegister id) (id : Nat) :
    m.perform rsqrt ⟨.cvtsi2ss, id, l.operand, []⟩ = .ok (m.setScalar id (Binary32.ofInt (m.part L l 0))) :=
  except_bind_eq_ok.2 ⟨_, h.read32 ground integral (i := ⟨.cvtsi2ss, id, l.operand, []⟩) rfl, rfl⟩

end Machine

/-- What a packed operation computes, of those without a parameter. -/
def Opcode.lanes? : Opcode → Option (Lanes → Lanes → Lanes)
  | addps => some (Lanes.map2 Binary32.add)
  | subps => some (Lanes.map2 Binary32.sub)
  | mulps => some (Lanes.map2 Binary32.mul)
  | andps => some (Lanes.map2 (· &&& ·))
  | orps => some (Lanes.map2 (· ||| ·))
  | xorps => some (Lanes.map2 (· ^^^ ·))
  | haddps => some Lanes.horizontalAdd
  | _ => none

namespace Machine

variable {m m' : Machine} {rsqrt : Word → Word} {L n : Nat} {l : Location} {i : Instruction Nat}

/-- **A packed operation** on a register and an aligned operand. -/
theorem perform_lanes {o : Opcode} {f : Lanes → Lanes → Lanes} (computes : o.lanes? = some f) (h : m.Has L 16 l)
    (ground : m.Grounded L) (float : ∀ id, l ≠ .register id) (aligned : m.Straight16 L l) (id : Nat) :
    m.perform rsqrt ⟨o, id, l.operand, []⟩ = .ok (m.setSimd id (f (m.simd id) (m.lanesAt L l))) := by
  have read := h.readAligned ground float aligned (i := ⟨o, id, l.operand, []⟩) rfl
  cases o <;> cases computes <;> exact except_bind_eq_ok.2 ⟨_, read, rfl⟩

/-- The first lane of a register in all of them. -/
theorem perform_spread (id : Nat) :
    m.perform rsqrt ⟨.shufps, id, .register id, [0]⟩ = .ok (m.setSimd id (.splat (m.simd id).x)) := by
  have choice : ofLittleEndian [0] = 0 := by decide
  change (.ok (m.setSimd id ((m.simd id).shuffle (m.simd id) (ofLittleEndian [0]))) : Except Fault Machine) = _
  rw [choice]
  rfl

/-! ## Storing -/

/-- The bytes of the content of a register, as many as a width has. -/
def contentBytes (m : Machine) (id : Nat) : Width → List UInt8
  | .dword => bytesOfWord (m.general32 id)
  | .single => bytesOfWord (m.simd id).x
  | .packed => (m.simd id).bytes

theorem length_contentBytes (m : Machine) (id : Nat) (w : Width) : (m.contentBytes id w).length = 4 * w.words := by
  cases w <;> first | exact length_bytesOfWord _ | exact Lanes.length_bytes _

variable (rsqrt) in
/-- **A register is stored** in a place in memory. -/
theorem perform_storeWidth {w : Width} (h : m.Has L (4 * w.words) l) (ground : m.Grounded L)
    (memory : l.isInMemory = true) (id : Nat) :
    m.perform rsqrt ⟨w.store, id, l.operand, []⟩ =
      .ok { m with block := m.block.setBytes (m.offsetAt L l) (m.contentBytes id w) } := by
  have address := h.address? ground (by cases w <;> decide) memory (i := ⟨w.store, id, l.operand, []⟩) rfl
  have spans : m.Spans (m.addressOf L l) (m.contentBytes id w).length := by
    rw [length_contentBytes]
    exact h.spans memory
  have written := writeBytes_eq_ok.2 ⟨spans, rfl⟩
  cases w with
  | dword => exact (write32_memory address _).trans written
  | single =>
    refine Eq.trans ?_ ((write32_memory address _).trans written)
    cases l <;> first | rfl | cases memory
  | packed =>
    refine Eq.trans ?_ written
    simp only [perform, execute, Width.store] at address ⊢
    simp only [address]
    rfl

end Machine

namespace Machine

variable {m : Machine} {rsqrt : Word → Word} {L : Nat} {l : Location}

/-! ## Moving values -/

variable (rsqrt) in
/-- **A value is loaded into a register.** -/
theorem perform_loadWidth (w : Width) (h : m.Has L (4 * w.words) l) (ground : m.Grounded L)
    (fits : ∀ c id, l = RegisterClass.location c id → c = w.registerClass) (id : Nat) :
    ∃ m', m.perform rsqrt ⟨w.load, id, l.operand, []⟩ = .ok m' ∧
      ∀ k < w.words, m'.part L (w.registerClass.location id) k = m.part L l k := by
  cases w with
  | dword =>
    have integral (j : Nat) (same : l = .simdRegister j) : False := by cases fits .simd j same
    refine ⟨_, perform_loadWord h ground integral id, fun k small => ?_⟩
    obtain rfl : k = 0 := Nat.lt_one_iff.1 small
    exact (general32_setGeneral32 m id id _).trans (if_pos rfl)
  | single =>
    have float (j : Nat) (same : l = .register j) : False := by cases fits .general j same
    obtain ⟨v, run, first⟩ := perform_loadFloat rsqrt h ground float id
    refine ⟨_, run, fun k small => ?_⟩
    obtain rfl : k = 0 := Nat.lt_one_iff.1 small
    exact (congrArg Lanes.x ((simd_set m id id v).trans (if_pos rfl))).trans first
  | packed =>
    have float (j : Nat) (same : l = .register j) : False := by cases fits .general j same
    refine ⟨_, perform_loadPacked h ground float id, fun k small => ?_⟩
    have loaded : (m.setSimd id (m.lanesAt L l)).simd id = m.lanesAt L l := (simd_set m id id _).trans (if_pos rfl)
    change ((m.setSimd id (m.lanesAt L l)).simd id).get k = _
    rw [loaded, get_lanesAt m L l small]

/-- The words that are stored. -/
theorem part_stored {w : Width} (memory : l.isInMemory = true) (id : Nat) {k : Nat} (small : k < w.words) :
    Machine.part { m with block := m.block.setBytes (m.offsetAt L l) (m.contentBytes id w) } L l k =
      m.part L (w.registerClass.location id) k := by
  have words : wordOfBytes ((m.contentBytes id w).drop (4 * k)) = m.part L (w.registerClass.location id) k := by
    cases w with
    | dword =>
      obtain rfl : k = 0 := Nat.lt_one_iff.1 small
      exact (congrArg wordOfBytes (List.append_nil _).symm).trans (wordOfBytes_bytesOfWord (m.general32 id) [])
    | single =>
      obtain rfl : k = 0 := Nat.lt_one_iff.1 small
      exact (congrArg wordOfBytes (List.append_nil _).symm).trans (wordOfBytes_bytesOfWord (m.simd id).x [])
    | packed => exact wordOfBytes_lanes (m.simd id) small
  have inside : 4 * k + 4 ≤ (m.contentBytes id w).length := by
    rw [length_contentBytes]
    omega
  have at_ : Machine.offsetAt { m with block := m.block.setBytes (m.offsetAt L l) (m.contentBytes id w) } L l =
      m.offsetAt L l :=
    congrArg (· - m.base) (addressOf_congr (m := m) rfl l fun _ _ => rfl)
  rw [part_memory _ L memory, at_, wordAt, wordOfBytes_getBytes_setBytes _ inside, words]

end Machine

/-! ## Memory that has been handed out -/

namespace LoweringState

variable {s : LoweringState} {L : Nat} {m m₀ : Machine}

/-- A place in memory that has been handed out, with so many bytes. -/
def Backs (s : LoweringState) (n : Nat) : Location → Prop
  | .globalMemory o => o + n ≤ s.globalTop
  | .localMemory o => o + n ≤ s.layout.localSize
  | _ => False

theorem Backs.isInMemory {n : Nat} {l : Location} (h : s.Backs n l) : l.isInMemory = true := by
  cases l <;> first | rfl | cases h

theorem Backs.direct {n : Nat} {l : Location} (h : s.Backs n l) (id : Nat) : l ≠ .indirectRegister id := by
  rintro rfl
  exact h

theorem Backs.registerOf? {n : Nat} {l : Location} (h : s.Backs n l) : l.registerOf? = none := by
  cases l <;> first | rfl | cases h

/-- Local memory that has been handed out is near its region's start. -/
theorem Suits.near (suits : s.Suits L m) {n : Nat} {l : Location} (backs : s.Backs n l) (positive : 0 < n) :
    ∀ o, l = .localMemory o → o < 2 ^ 31 := by
  rintro o rfl
  have top : o + n ≤ s.layout.localSize := backs
  have := suits.reach
  omega

/-- Memory that has been handed out is in the block of a machine that suits. -/
theorem Suits.spans (suits : s.Suits L m₀) (ok : s.Ok) {n : Nat} {l : Location} (backs : s.Backs n l)
    (size : m.block.size = m₀.block.size) : m.Spans (m.addressOf L l) n := by
  have top : s.layout.globalRegion.top ≤ s.layout.globalSize := ok.layout.globalTop
  obtain ⟨-, globals, locals, -⟩ := suits
  cases l with
  | globalMemory o =>
    have : o + n ≤ s.layout.globalRegion.top := backs
    simp only [Machine.addressOf, Machine.Spans]
    omega
  | localMemory o =>
    have : o + n ≤ s.layout.localSize := backs
    simp only [Machine.addressOf, Machine.Spans]
    omega
  | _ => cases backs

/-- **Memory that has been handed out** is an operand. -/
theorem Suits.has (suits : s.Suits L m₀) (ok : s.Ok) {n : Nat} {l : Location} (backs : s.Backs n l) (positive : 0 < n)
    (size : m.block.size = m₀.block.size) : m.Has L n l where
  operand := .inr backs.isInMemory
  near := suits.near backs positive
  spans := fun _ => suits.spans ok backs size

end LoweringState

end Shading
