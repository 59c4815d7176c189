import Shading.Location
import Shading.Proofs.Machine.Access

/-!
# Twin machines

Two machines may hold the same in some parts of their state and differ
in others. An instruction reads certain parts: where these are the same,
it is carried out on both machines or on none, what it computes is the
same, and every part that was the same still is. So what one machine
does says what the other does, and parts that are the same stay so until
something else is stored there.
-/

namespace Shading

/-- **A part of the state of a machine.** -/
inductive Part where
  | general (id : Nat)
  | lane (id k : Nat)
  /-- A byte of the block, by its offset. -/
  | byte (offset : Nat)
  | flags
deriving DecidableEq

/-- The part that holds a word of a register. -/
def RegisterClass.part : RegisterClass → Nat → Nat → Part
  | .general, id, _ => .general id
  | .simd, id, k => .lane id k

/-- The parts that hold the first words of a register. -/
def RegisterClass.parts (c : RegisterClass) (id n : Nat) (p : Part) : Prop :=
  ∃ k < n, p = c.part id k

/-- **One computation has the results of another**, if it has any. -/
def Follows {ε α β : Type} (x : Except ε α) (y : Except ε β) (Q : α → β → Prop) : Prop :=
  ∀ a, x = .ok a → ∃ b, y = .ok b ∧ Q a b

namespace Follows

variable {ε α β γ δ : Type} {x : Except ε α} {y : Except ε β} {Q Q' : α → β → Prop}

theorem ok {a : α} {b : β} (h : Q a b) : Follows (.ok a : Except ε α) (.ok b : Except ε β) Q := by
  intro a' e
  cases e
  exact ⟨b, rfl, h⟩

theorem bind {f : α → Except ε γ} {g : β → Except ε δ} {R : γ → δ → Prop} (h : Follows x y Q)
    (next : ∀ a b, Q a b → Follows (f a) (g b) R) : Follows (x >>= f) (y >>= g) R := by
  intro r run
  obtain ⟨a, hx, hf⟩ := except_bind_eq_ok.1 run
  obtain ⟨b, hy, q⟩ := h a hx
  obtain ⟨r', hg, q'⟩ := next a b q r hf
  exact ⟨r', except_bind_eq_ok.2 ⟨b, hy, hg⟩, q'⟩

theorem map {f : α → γ} {g : β → δ} {R : γ → δ → Prop} (h : Follows x y Q)
    (next : ∀ a b, Q a b → R (f a) (g b)) : Follows (x.map f) (y.map g) R := by
  intro r run
  obtain ⟨a, hx, rfl⟩ := except_map_eq_ok.1 run
  obtain ⟨b, hy, q⟩ := h a hx
  exact ⟨g b, except_map_eq_ok.2 ⟨b, hy, rfl⟩, next a b q⟩

theorem mono (h : Follows x y Q) (sub : ∀ a b, Q a b → Q' a b) : Follows x y Q' := fun a hx => by
  obtain ⟨b, hy, q⟩ := h a hx
  exact ⟨b, hy, sub a b q⟩

end Follows

namespace Machine

/-- **A part is the same** on two machines. -/
def Same (a b : Machine) : Part → Prop
  | .general id => a.general64 id = b.general64 id
  | .lane id k => (a.simd id).get k = (b.simd id).get k
  | .byte o => a.block.get o = b.block.get o
  | .flags => a.registers.flags = b.registers.flags

/-- Two machines run the code of one block, at one place. -/
structure Aligned (a b : Machine) : Prop where
  base : a.base = b.base
  size : a.block.size = b.block.size

/-- **What was the same is the same still**, when two machines go on. -/
def Keeps (a b a' b' : Machine) : Prop := ∀ p, a.Same b p → a'.Same b' p

variable {a b a' b' : Machine} {next : Nat} {rm : Operand Nat} {rsqrt : Word → Word}

/-! ## Registers -/

theorem keeps_setGeneral64 (id : Nat) (v : UInt64) :
    Keeps a b (a.setGeneral64 id v) (b.setGeneral64 id v) := by
  intro p h
  cases p with
  | general j =>
    simp only [Same, general64_set] at h ⊢
    split
    · rfl
    · exact h
  | _ => exact h

theorem same_setGeneral64 (id : Nat) (v : UInt64) :
    (a.setGeneral64 id v).Same (b.setGeneral64 id v) (.general id) := by
  simp only [Same, general64_set, if_true]

theorem keeps_setFlags (f : Flags) : Keeps a b (a.setFlags f) (b.setFlags f) := by
  intro p h
  cases p with
  | flags => rfl
  | _ => exact h

/-- Setting a register lane by lane. -/
theorem keeps_setSimd (id : Nat) {v w : Lanes}
    (lanes : ∀ k, a.Same b (.lane id k) → v.get k = w.get k) :
    Keeps a b (a.setSimd id v) (b.setSimd id w) := by
  intro p h
  cases p with
  | lane j k =>
    simp only [Same, simd_set] at h ⊢
    split
    · next same =>
      refine lanes k ?_
      have : Fin.ofNat 8 j = Fin.ofNat 8 id := Fin.ext same
      simpa only [Same, simd, this] using h
    · exact h
  | _ => exact h

theorem same_setSimd (id : Nat) {v w : Lanes} {k : Nat} (lane : v.get k = w.get k) :
    (a.setSimd id v).Same (b.setSimd id w) (.lane id k) := by
  simpa only [Same, simd_set, if_true] using lane

theorem Keeps.trans {c d : Machine} (h : Keeps a b a' b') (h' : Keeps a' b' c d) :
    Keeps a b c d := fun p same => h' p (h p same)

end Machine

/-- Lanes that are the same one by one are the same. -/
theorem Lanes.ext_get {v w : Lanes} (h : ∀ k < 4, v.get k = w.get k) : v = w := by
  obtain ⟨x, y, z, u⟩ := v
  obtain ⟨x', y', z', u'⟩ := w
  have h0 := h 0 (by decide)
  have h1 := h 1 (by decide)
  have h2 := h 2 (by decide)
  have h3 := h 3 (by decide)
  simp only [Lanes.get, Lanes.toList] at h0 h1 h2 h3
  simp_all

/-- Replacing the first lane of registers whose other lanes stay. -/
theorem Lanes.get_setFirst {v w : Lanes} {x : Word} {k : Nat} (h : v.get k = w.get k) :
    ({ v with x := x } : Lanes).get k = ({ w with x := x } : Lanes).get k := by
  cases k with
  | zero => rfl
  | succ k => exact h

namespace Machine

variable {a b a' b' : Machine} {next : Nat} {rm : Operand Nat} {rsqrt : Word → Word} {n : Nat}

/-! ## Operands -/

/-- **An operand is the same**: so many words of a register, or so many
words of memory at the same address. -/
def SameOperand (a b : Machine) (next : Nat) (c : RegisterClass) (n : Nat) (rm : Operand Nat) :
    Prop :=
  (∀ id, rm = .register id → ∀ p, c.parts id n p → a.Same b p) ∧
    ∀ x, a.address? next rm = some x → b.address? next rm = some x ∧
      ∀ k, a.bytesAt x (4 * n) k → a.Same b (.byte k)

/-- An operand is a register, or it is in memory. -/
theorem operand_cases (m : Machine) (next : Nat) (rm : Operand Nat) :
    (∃ id, rm = .register id) ∨ ∃ x, m.address? next rm = some x := by
  cases rm with
  | register id => exact .inl ⟨id, rfl⟩
  | _ => exact .inr ⟨_, rfl⟩

theorem read32_memory {m : Machine} {x : Nat} (h : m.address? next rm = some x) :
    m.read32 next rm = (m.readBytes x 4).map wordOfBytes := by
  unfold read32
  rw [h]
  cases rm with
  | register => cases h
  | _ => rfl

theorem readScalar_memory {m : Machine} {x : Nat} (h : m.address? next rm = some x) :
    m.readScalar next rm = (m.readBytes x 4).map wordOfBytes := by
  unfold readScalar
  rw [h]
  cases rm with
  | register => cases h
  | _ => rfl

theorem readPacked_memory {m : Machine} {x : Nat} (h : m.address? next rm = some x) :
    m.readPacked next rm = (m.readBytes x 16).map Lanes.ofBytes := by
  unfold readPacked
  rw [h]
  cases rm with
  | register => cases h
  | _ => rfl

theorem follows_readBytes (h : a.Aligned b) {x count : Nat}
    (same : ∀ k, a.bytesAt x count k → a.Same b (.byte k)) :
    Follows (a.readBytes x count) (b.readBytes x count) Eq := by
  intro bytes read
  obtain ⟨spans, rfl⟩ := readBytes_eq_ok.1 read
  have low := spans.1
  refine ⟨_, readBytes_eq_ok.2 ⟨?_, rfl⟩, ?_⟩
  · simpa only [Spans, h.base, h.size] using spans
  · rw [← h.base]
    generalize offset : x - a.base = o
    have bytes : ∀ count' o', o ≤ o' → o' + count' ≤ o + count →
        a.block.getBytes o' count' = b.block.getBytes o' count' := by
      intro count'
      induction count' with
      | zero => exact fun _ _ _ => rfl
      | succ n ih =>
        intro o' above below
        have byte : a.block.get o' = b.block.get o' := same o' ⟨by omega, by omega⟩
        rw [Block.getBytes, Block.getBytes, byte, ih (o' + 1) (by omega) (by omega)]
    exact bytes count o (Nat.le_refl _) (Nat.le_refl _)

theorem follows_read32 (h : a.Aligned b) (same : a.SameOperand b next .general 1 rm) :
    Follows (a.read32 next rm) (b.read32 next rm) Eq := by
  rcases operand_cases a next rm with ⟨id, rfl⟩ | ⟨x, ha⟩
  · have word : a.general64 id = b.general64 id := same.1 id rfl _ ⟨0, Nat.one_pos, rfl⟩
    exact .ok (by rw [general32, general32, word])
  · obtain ⟨hb, bytes⟩ := same.2 x ha
    rw [read32_memory ha, read32_memory hb]
    exact (follows_readBytes h bytes).map fun _ _ e => by rw [e]

theorem follows_readScalar (h : a.Aligned b) (same : a.SameOperand b next .simd 1 rm) :
    Follows (a.readScalar next rm) (b.readScalar next rm) Eq := by
  rcases operand_cases a next rm with ⟨id, rfl⟩ | ⟨x, ha⟩
  · exact .ok (same.1 id rfl _ ⟨0, Nat.one_pos, rfl⟩)
  · obtain ⟨hb, bytes⟩ := same.2 x ha
    rw [readScalar_memory ha, readScalar_memory hb]
    exact (follows_readBytes h bytes).map fun _ _ e => by rw [e]

theorem follows_readPacked (h : a.Aligned b) (same : a.SameOperand b next .simd 4 rm) :
    Follows (a.readPacked next rm) (b.readPacked next rm) Eq := by
  rcases operand_cases a next rm with ⟨id, rfl⟩ | ⟨x, ha⟩
  · exact .ok (Lanes.ext_get fun k hk => same.1 id rfl _ ⟨k, hk, rfl⟩)
  · obtain ⟨hb, bytes⟩ := same.2 x ha
    rw [readPacked_memory ha, readPacked_memory hb]
    exact (follows_readBytes h bytes).map fun _ _ e => by rw [e]

theorem follows_readAligned (h : a.Aligned b) (same : a.SameOperand b next .simd 4 rm) :
    Follows (a.readAligned next rm) (b.readAligned next rm) Eq := by
  intro v run
  obtain ⟨aligned, read⟩ := readAligned_eq_ok.1 run
  obtain ⟨w, read', e⟩ := follows_readPacked h same v read
  refine ⟨w, readAligned_eq_ok.2 ⟨fun y hy => ?_, read'⟩, e⟩
  rcases operand_cases a next rm with ⟨id, rfl⟩ | ⟨x, ha⟩
  · cases hy
  · obtain rfl : x = y := Option.some.inj ((same.2 x ha).1.symm.trans hy)
    exact aligned x ha

end Machine

/-! ## Computing instructions -/

/-- **How an opcode computes into its register**: the classes of its
register and of its operand, how many words of each it uses, and how many
words of the register it determines. -/
structure Opcode.Shape where
  reg : RegisterClass
  rm : RegisterClass
  uses : Nat
  reads : Nat
  gives : Nat

/-- The shape of an opcode that computes into its register. -/
def Opcode.shape? : Opcode → Option Opcode.Shape
  | movLoad | movsxd => some ⟨.general, .general, 0, 1, 1⟩
  | add | sub | imul => some ⟨.general, .general, 1, 1, 1⟩
  | cvttss2si => some ⟨.general, .simd, 0, 1, 1⟩
  | cvtsi2ss => some ⟨.simd, .general, 0, 1, 1⟩
  | movssLoad | sqrtss => some ⟨.simd, .simd, 0, 1, 1⟩
  | addss | subss | mulss | divss | maxss => some ⟨.simd, .simd, 1, 1, 1⟩
  | movupsLoad | rsqrtps => some ⟨.simd, .simd, 0, 4, 4⟩
  | addps | subps | mulps | andps | orps | xorps | haddps => some ⟨.simd, .simd, 4, 4, 4⟩
  | _ => none

namespace Machine

variable {a b a' b' : Machine} {next : Nat} {rm : Operand Nat} {rsqrt : Word → Word} {n : Nat}

/-- What two machines come to that go on in the same way: what was the
same still is, and some parts have become the same. -/
structure Results (a b : Machine) (X : Part → Prop) (a' b' : Machine) : Prop where
  keeps : Keeps a b a' b'
  gives : ∀ p, X p → a'.Same b' p

theorem results_general {id : Nat} (v : UInt64) {k : Nat} :
    a.Results b (RegisterClass.general.parts id k) (a.setGeneral64 id v) (b.setGeneral64 id v) := by
  refine ⟨keeps_setGeneral64 id v, fun p hp => ?_⟩
  obtain ⟨-, -, rfl⟩ := hp
  exact same_setGeneral64 id v

/-- A result in the first lane of a register. -/
theorem results_scalar {id : Nat} (v : Word) :
    a.Results b (RegisterClass.simd.parts id 1) (a.setScalar id v) (b.setScalar id v) := by
  refine ⟨keeps_setSimd id fun k h => Lanes.get_setFirst h, fun p hp => ?_⟩
  obtain ⟨k, hk, rfl⟩ := hp
  obtain rfl : k = 0 := Nat.lt_one_iff.1 hk
  exact same_setSimd id rfl

theorem results_packed {id : Nat} (v : Lanes) {k : Nat} :
    a.Results b (RegisterClass.simd.parts id k) (a.setSimd id v) (b.setSimd id v) := by
  refine ⟨keeps_setSimd id fun _ _ => rfl, fun p hp => ?_⟩
  obtain ⟨j, -, rfl⟩ := hp
  exact same_setSimd id rfl

/-- No part of a general register is a flag. -/
theorem not_parts_flags (id : Nat) : ¬ RegisterClass.general.parts id 1 .flags := by
  simp [RegisterClass.parts, RegisterClass.part]

theorem Results.setFlags {X : Part → Prop} (h : a.Results b X a' b') {f g : Flags}
    (flags : a.Same b .flags → f = g) (other : ¬ X .flags) :
    a.Results b X (a'.setFlags f) (b'.setFlags g) := by
  constructor
  · intro p same
    cases p with
    | flags => exact flags same
    | _ => exact h.keeps _ same
  · intro p hp
    cases p with
    | flags => exact absurd hp other
    | _ => exact h.gives _ hp

/-- **Computing on twin machines.** Where the register and the operand are
the same, so is the result. -/
theorem follows_computes {i : Instruction Nat} {shape : Opcode.Shape}
    (known : i.opcode.shape? = some shape) (h : a.Aligned b)
    (register : ∀ p, shape.reg.parts i.reg shape.uses p → a.Same b p)
    (operand : a.SameOperand b next shape.rm shape.reads i.rm) :
    Follows (a.execute rsqrt next i) (b.execute rsqrt next i)
      (a.Results b (shape.reg.parts i.reg shape.gives)) := by
  obtain ⟨o, reg, rm, immediate⟩ := i
  -- Each operation reads its operand once. Twins read the same there, and what they
  -- write is a function of what they have read.
  cases o
  all_goals
    simp only [Opcode.shape?, Option.some.injEq, reduceCtorEq] at known
  all_goals
    subst known
    simp only [execute, arithmetic, scalar, packed]
  case movLoad | movsxd =>
    refine (follows_read32 h operand).bind fun w _ e => ?_
    subst e
    exact .ok (results_general _)
  case add | sub | imul =>
    have word : a.general64 reg = b.general64 reg := register _ ⟨0, Nat.one_pos, rfl⟩
    refine (follows_read32 h operand).bind fun w _ e => ?_
    subst e
    simp only [general32, word]
    exact .ok ((results_general _).setFlags (fun _ => rfl) (not_parts_flags reg))
  case cvttss2si =>
    refine (follows_readScalar h operand).bind fun w _ e => ?_
    subst e
    exact .ok (results_general _)
  case cvtsi2ss =>
    refine (follows_read32 h operand).bind fun w _ e => ?_
    subst e
    exact .ok (results_scalar _)
  case movssLoad =>
    refine (follows_readScalar h operand).bind fun w _ e => ?_
    subst e
    cases rm with
    | register => exact .ok (results_scalar _)
    | _ => exact .ok (results_packed _)
  case sqrtss =>
    refine (follows_readScalar h operand).bind fun w _ e => ?_
    subst e
    exact .ok (results_scalar _)
  case addss | subss | mulss | divss | maxss =>
    have first : (a.simd reg).x = (b.simd reg).x := register _ ⟨0, Nat.one_pos, rfl⟩
    refine (follows_readScalar h operand).bind fun w _ e => ?_
    subst e
    rw [first]
    exact .ok (results_scalar _)
  case movupsLoad =>
    refine (follows_readPacked h operand).bind fun w _ e => ?_
    subst e
    exact .ok (results_packed _)
  case rsqrtps =>
    refine (follows_readAligned h operand).bind fun w _ e => ?_
    subst e
    exact .ok (results_packed _)
  all_goals
    have lanes : a.simd reg = b.simd reg :=
      Lanes.ext_get fun k hk => register _ ⟨k, hk, rfl⟩
    refine (follows_readAligned h operand).bind fun w _ e => ?_
    subst e
    rw [lanes]
    exact .ok (results_packed _)

/-! ## Comparisons -/

theorem results_flags (f : Flags) : a.Results b (· = .flags) (a.setFlags f) (b.setFlags f) :=
  ⟨keeps_setFlags f, fun p hp => by subst hp; rfl⟩

/-- Comparing integers on twin machines. -/
theorem follows_compareInts {o : Opcode} {reg : Nat} {immediate : List UInt8} (h : a.Aligned b)
    (compare : o = .cmpLoad ∨ o = .cmpStore)
    (register : a.Same b (.general reg)) (operand : a.SameOperand b next .general 1 rm) :
    Follows (a.execute rsqrt next ⟨o, reg, rm, immediate⟩)
      (b.execute rsqrt next ⟨o, reg, rm, immediate⟩) (a.Results b (· = .flags)) := by
  have word : a.general64 reg = b.general64 reg := register
  obtain rfl | rfl := compare
  all_goals
    simp only [execute, general32, word]
    refine (follows_read32 h operand).bind fun w _ e => ?_
    subst e
    exact .ok (results_flags _)

/-- Comparing an integer with a constant on twin machines. -/
theorem follows_cmpImm8 {reg : Nat} {immediate : List UInt8} (h : a.Aligned b)
    (operand : a.SameOperand b next .general 1 rm) :
    Follows (a.execute rsqrt next ⟨.cmpImm8, reg, rm, immediate⟩)
      (b.execute rsqrt next ⟨.cmpImm8, reg, rm, immediate⟩) (a.Results b (· = .flags)) := by
  simp only [execute]
  refine (follows_read32 h operand).bind fun w _ e => ?_
  subst e
  exact .ok (results_flags _)

/-- Comparing floats on twin machines. -/
theorem follows_comiss {reg : Nat} {immediate : List UInt8} (h : a.Aligned b)
    (register : a.Same b (.lane reg 0)) (operand : a.SameOperand b next .simd 1 rm) :
    Follows (a.execute rsqrt next ⟨.comiss, reg, rm, immediate⟩)
      (b.execute rsqrt next ⟨.comiss, reg, rm, immediate⟩) (a.Results b (· = .flags)) := by
  have first : (a.simd reg).x = (b.simd reg).x := register
  simp only [execute, first]
  refine (follows_readScalar h operand).bind fun w _ e => ?_
  subst e
  exact .ok (results_flags _)

/-! ## Operations on registers -/

/-- Operations on a general register alone. -/
theorem follows_inPlace {o : Opcode} {reg id : Nat} {immediate : List UInt8}
    (inPlace : o = .neg ∨ o = .xorImm8 ∨ o = .addImm64) (register : a.Same b (.general id)) :
    Follows (a.execute rsqrt next ⟨o, reg, .register id, immediate⟩)
      (b.execute rsqrt next ⟨o, reg, .register id, immediate⟩)
      (a.Results b (RegisterClass.general.parts id 1)) := by
  have word : a.general64 id = b.general64 id := register
  obtain rfl | rfl | rfl := inPlace
  · simp only [execute, read32, write32, general32, word]
    exact .ok ((results_general _).setFlags (fun _ => rfl) (not_parts_flags id))
  · simp only [execute, read32, write32, general32, word]
    exact .ok ((results_general _).setFlags (fun _ => rfl) (not_parts_flags id))
  · simp only [execute, read64, write64, word]
    exact .ok ((results_general _).setFlags (fun _ => rfl) (not_parts_flags id))

/-- Multiplying an address register by a constant. -/
theorem follows_imulImm64 {reg id : Nat} {immediate : List UInt8}
    (operand : a.Same b (.general id)) :
    Follows (a.execute rsqrt next ⟨.imulImm64, reg, .register id, immediate⟩)
      (b.execute rsqrt next ⟨.imulImm64, reg, .register id, immediate⟩)
      (a.Results b (RegisterClass.general.parts reg 1)) := by
  have word : a.general64 id = b.general64 id := operand
  simp only [execute, read64, word]
  exact .ok ((results_general _).setFlags (fun _ => rfl) (not_parts_flags reg))

/-- Adding one address register to another. -/
theorem follows_add64 {reg id : Nat} {immediate : List UInt8}
    (register : a.Same b (.general reg)) (operand : a.Same b (.general id)) :
    Follows (a.execute rsqrt next ⟨.add64, reg, .register id, immediate⟩)
      (b.execute rsqrt next ⟨.add64, reg, .register id, immediate⟩)
      (a.Results b (RegisterClass.general.parts reg 1)) := by
  have word : a.general64 reg = b.general64 reg := register
  have word' : a.general64 id = b.general64 id := operand
  simp only [execute, read64, word, word']
  exact .ok ((results_general _).setFlags (fun _ => rfl) (not_parts_flags reg))

/-- Taking an address. -/
theorem follows_lea {reg : Nat} {immediate : List UInt8}
    (address : a.address? next rm = b.address? next rm) :
    Follows (a.execute rsqrt next ⟨.lea, reg, rm, immediate⟩)
      (b.execute rsqrt next ⟨.lea, reg, rm, immediate⟩)
      (a.Results b (RegisterClass.general.parts reg 1)) := by
  simp only [execute, address]
  exact .ok (results_general _)

/-- Moving the bytes of a register up or down. -/
theorem follows_shift {o : Opcode} {reg id : Nat} {immediate : List UInt8}
    (shift : o.isShift = true) (register : ∀ p, RegisterClass.simd.parts id 4 p → a.Same b p) :
    Follows (a.execute rsqrt next ⟨o, reg, .register id, immediate⟩)
      (b.execute rsqrt next ⟨o, reg, .register id, immediate⟩)
      (a.Results b (RegisterClass.simd.parts id 4)) := by
  have lanes : a.simd id = b.simd id := Lanes.ext_get fun k hk => register _ ⟨k, hk, rfl⟩
  cases o <;> simp only [Opcode.isShift, Bool.false_eq_true] at shift
  all_goals
    simp only [execute, lanes]
    exact .ok (results_packed _)

/-- Copying the first lane of a register to all of them. -/
theorem follows_splat {id : Nat} (register : a.Same b (.lane id 0)) :
    Follows (a.execute rsqrt next ⟨.shufps, id, .register id, [0]⟩)
      (b.execute rsqrt next ⟨.shufps, id, .register id, [0]⟩)
      (a.Results b (RegisterClass.simd.parts id 4)) := by
  have first : (a.simd id).get 0 = (b.simd id).get 0 := register
  have splat (v : Lanes) : v.shuffle v (ofLittleEndian [0]) = .splat (v.get 0) := rfl
  have run (m : Machine) : m.execute rsqrt next ⟨.shufps, id, .register id, [0]⟩ =
      .ok (m.setSimd id (.splat ((m.simd id).get 0))) := by
    rw [← splat]
    rfl
  rw [run, run, first]
  exact .ok (results_packed _)

/-- Clearing a register, whatever it holds. -/
theorem follows_clear {id : Nat} {immediate : List UInt8} :
    Follows (a.execute rsqrt next ⟨.xorps, id, .register id, immediate⟩)
      (b.execute rsqrt next ⟨.xorps, id, .register id, immediate⟩)
      (a.Results b (RegisterClass.simd.parts id 4)) := by
  have run (m : Machine) : m.execute rsqrt next ⟨.xorps, id, .register id, immediate⟩ =
      .ok (m.setSimd id .zero) := by
    have zero : (m.simd id).map2 (· ^^^ ·) (m.simd id) = .zero := by
      simp [Lanes.map2, Lanes.zero]
    rw [← zero]
    rfl
  rw [run, run]
  exact .ok (results_packed _)

/-- Keeping the first lane of a register. -/
theorem follows_keepFirst {reg : Nat} {immediate : List UInt8} (h : a.Aligned b)
    (register : a.Same b (.lane reg 0)) (operand : a.SameOperand b next .simd 4 rm)
    (mask : ∀ v, a.readAligned next rm = .ok v → v.y = 0 ∧ v.z = 0 ∧ v.w = 0) :
    Follows (a.execute rsqrt next ⟨.andps, reg, rm, immediate⟩)
      (b.execute rsqrt next ⟨.andps, reg, rm, immediate⟩)
      (a.Results b (RegisterClass.simd.parts reg 4)) := by
  have first : (a.simd reg).x = (b.simd reg).x := register
  intro a' run
  simp only [execute, packed, except_bind_eq_ok] at run ⊢
  obtain ⟨v, read, run⟩ := run
  obtain ⟨w, read', rfl⟩ := follows_readAligned h operand v read
  obtain ⟨hy, hz, hw⟩ := mask v read
  have same : (a.simd reg).map2 (· &&& ·) v = (b.simd reg).map2 (· &&& ·) v := by
    simp [Lanes.map2, first, hy, hz, hw]
  simp only [pure, Except.pure, Except.ok.injEq] at run
  subst run
  refine ⟨_, ⟨v, read', rfl⟩, ?_⟩
  rw [same]
  exact results_packed _

/-- Inverting bits of a register keeps the lanes apart: one that was the
same still is. -/
theorem follows_flip {reg : Nat} {immediate : List UInt8} (h : a.Aligned b)
    (register : a.Same b (.lane reg 0)) (operand : a.SameOperand b next .simd 4 rm) :
    Follows (a.execute rsqrt next ⟨.xorps, reg, rm, immediate⟩)
      (b.execute rsqrt next ⟨.xorps, reg, rm, immediate⟩)
      (a.Results b (RegisterClass.simd.parts reg 1)) := by
  simp only [execute, packed]
  refine (follows_readAligned h operand).bind fun v _ e => ?_
  subst e
  have lanes (k : Nat) (same : (a.simd reg).get k = (b.simd reg).get k) :
      ((a.simd reg).map2 (· ^^^ ·) v).get k = ((b.simd reg).map2 (· ^^^ ·) v).get k := by
    rcases k with - | - | - | - | k
    · exact congrArg (· ^^^ v.x) same
    · exact congrArg (· ^^^ v.y) same
    · exact congrArg (· ^^^ v.z) same
    · exact congrArg (· ^^^ v.w) same
    · rfl
  refine .ok ⟨keeps_setSimd reg lanes, ?_⟩
  rintro _ ⟨k, small, rfl⟩
  obtain rfl : k = 0 := by omega
  exact same_setSimd reg (lanes 0 register)

end Machine

end Shading
