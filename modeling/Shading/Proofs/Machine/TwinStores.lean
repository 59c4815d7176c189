import Shading.Proofs.Machine.Twins

/-!
# Twin machines and memory

Twin machines that store words at one address come to the same bytes where the
words are the same (`Machine.Stores`), and a register that is loaded again is
the same where all bytes of a word are. A division reads and writes two
registers besides its operand.
-/

namespace Shading

/-! ## Storing instructions -/

/-- The register that an opcode stores, and how many words of it. -/
def Opcode.stored? : Opcode → Option (RegisterClass × Nat)
  | movStore => some (.general, 1)
  | movssStore => some (.simd, 1)
  | movupsStore => some (.simd, 4)
  | _ => none

/-- The bytes of four words stand one word behind the other. -/
theorem Lanes.getElem?_bytes (l : Lanes) {i : Nat} (h : i < 16) :
    l.bytes[i]? = (bytesOfWord (l.get (i / 4)))[i % 4]? := by
  have length (w : Word) := length_bytesOfWord w
  obtain rfl | rfl | rfl | rfl | rfl | rfl | rfl | rfl | rfl | rfl | rfl | rfl | rfl | rfl | rfl |
    rfl : i = 0 ∨ i = 1 ∨ i = 2 ∨ i = 3 ∨ i = 4 ∨ i = 5 ∨ i = 6 ∨ i = 7 ∨ i = 8 ∨ i = 9 ∨ i = 10 ∨
      i = 11 ∨ i = 12 ∨ i = 13 ∨ i = 14 ∨ i = 15 := by omega
  all_goals simp [Lanes.bytes, Lanes.toList, Lanes.get, bytesOfWord, wordBytes, littleEndian]

namespace Machine

variable {a b a' b' : Machine} {next : Nat} {rm : Operand Nat} {rsqrt : Word → Word} {n : Nat}

/-- **What two machines come to that write words** at one address: no
other part changes, and the bytes of the words that are the same are the
same. -/
structure Stores (a b : Machine) (known : Nat → Prop) (n x : Nat) (a' b' : Machine) : Prop where
  others : ∀ p, (∀ k, p = .byte k → ¬ a.bytesAt x (4 * n) k) → a.Same b p → a'.Same b' p
  stored : ∀ j < n, known j → ∀ k, a.bytesAt (x + 4 * j) 4 k → a'.Same b' (.byte k)

/-- Writing words at one address. -/
theorem follows_writeWords (h : a.Aligned b) {x : Nat} {xs ys : List UInt8}
    (hx : xs.length = 4 * n) (hy : ys.length = 4 * n) {known : Nat → Prop}
    (same : ∀ j < n, known j → ∀ i < 4, xs[4 * j + i]? = ys[4 * j + i]?) :
    Follows (a.writeBytes x xs) (b.writeBytes x ys) (a.Stores b known n x) := by
  intro a' run
  obtain ⟨spans, rfl⟩ := writeBytes_eq_ok.1 run
  have low := spans.1
  refine ⟨_, writeBytes_eq_ok.2 ⟨?_, rfl⟩, fun p outside known => ?_, fun j hj known k inside => ?_⟩
  · simpa only [Spans, h.base, h.size, hx, hy] using spans
  · cases p with
    | byte k =>
      have out := outside k rfl
      simp only [bytesAt] at out
      simp only [Same, Block.get_setBytes, ← h.base] at known ⊢
      split
      · rw [List.getElem?_eq_none (by omega), List.getElem?_eq_none (by omega)]
        exact known
      · exact known
    | _ => exact known
  · simp only [bytesAt] at inside
    simp only [Same, Block.get_setBytes, ← h.base]
    rw [if_pos (by omega), if_pos (by omega)]
    have word := same j hj known (k - (x - a.base) - 4 * j) (by omega)
    rw [show 4 * j + (k - (x - a.base) - 4 * j) = k - (x - a.base) by omega] at word
    have some : k - (x - a.base) < ys.length := by omega
    rw [word, List.getElem?_eq_getElem some]
    rfl

theorem write32_memory {m : Machine} {x : Nat} (h : m.address? next rm = some x) (w : Word) :
    m.write32 next rm w = m.writeBytes x (bytesOfWord w) := by
  unfold write32
  rw [h]
  cases rm with
  | register => cases h
  | _ => rfl

/-- Writing one word at one address. -/
theorem follows_writeWord (h : a.Aligned b) {x : Nat} {v w : Word} {known : Nat → Prop}
    (same : known 0 → v = w) :
    Follows (a.writeBytes x (bytesOfWord v)) (b.writeBytes x (bytesOfWord w))
      (a.Stores b known 1 x) := by
  refine follows_writeWords h (length_bytesOfWord v) (length_bytesOfWord w) fun j hj known i _ => ?_
  obtain rfl : j = 0 := Nat.lt_one_iff.1 hj
  rw [same known]

/-- **Storing a register on twin machines**, at the same address. -/
theorem follows_stores {i : Instruction Nat} {c : RegisterClass}
    (known : i.opcode.stored? = some (c, n)) (h : a.Aligned b) {x : Nat}
    (ha : a.address? next i.rm = some x) (hb : b.address? next i.rm = some x) :
    Follows (a.execute rsqrt next i) (b.execute rsqrt next i)
      (a.Stores b (fun j => a.Same b (c.part i.reg j)) n x) := by
  obtain ⟨o, reg, rm, immediate⟩ := i
  dsimp only at ha hb
  cases o
  all_goals
    simp only [Opcode.stored?, Option.some.injEq, reduceCtorEq, Prod.mk.injEq] at known
  all_goals
    obtain ⟨rfl, rfl⟩ := known
    simp only [execute]
  case movStore =>
    rw [write32_memory ha, write32_memory hb]
    refine follows_writeWord h fun same => ?_
    have word : a.general64 reg = b.general64 reg := same
    rw [general32, general32, word]
  case movssStore =>
    have float : Follows (a.write32 next rm (a.simd reg).x) (b.write32 next rm (b.simd reg).x)
        (a.Stores b (fun j => a.Same b (RegisterClass.simd.part reg j)) 1 x) := by
      rw [write32_memory ha, write32_memory hb]
      exact follows_writeWord h id
    cases rm with
    | register => cases ha
    | _ => exact float
  case movupsStore =>
    rw [ha, hb]
    refine follows_writeWords h (Lanes.length_bytes _) (Lanes.length_bytes _) fun j hj same i hi => ?_
    rw [Lanes.getElem?_bytes _ (by omega), Lanes.getElem?_bytes _ (by omega)]
    have word : (a.simd reg).get j = (b.simd reg).get j := same
    rw [show (4 * j + i) / 4 = j by omega, word]

/-- Where all words are the same, nothing that was the same is lost. -/
theorem Stores.results {known : Nat → Prop} {x : Nat} (h : a.Stores b known n x a' b')
    (all : ∀ j < n, known j) :
    a.Results b (fun p => ∃ k, p = .byte k ∧ a.bytesAt x (4 * n) k) a' b' := by
  have stored (k : Nat) (inside : a.bytesAt x (4 * n) k) : a'.Same b' (.byte k) := by
    simp only [bytesAt] at inside
    exact h.stored ((a.base + k - x) / 4) (by omega) (all _ (by omega)) k
      ⟨by omega, by omega⟩
  refine ⟨fun p same => ?_, fun p hp => ?_⟩
  · by_cases out : ∃ k, p = .byte k ∧ a.bytesAt x (4 * n) k
    · obtain ⟨k, rfl, inside⟩ := out
      exact stored k inside
    · exact h.others p (fun k e inside => out ⟨k, e, inside⟩) same
  · obtain ⟨k, rfl, inside⟩ := hp
    exact stored k inside

/-- Setting a place to a constant on twin machines. -/
theorem follows_movImm {reg : Nat} {immediate : List UInt8} (h : a.Aligned b)
    (address : a.address? next rm = b.address? next rm) :
    Follows (a.execute rsqrt next ⟨.movImm, reg, rm, immediate⟩)
      (b.execute rsqrt next ⟨.movImm, reg, rm, immediate⟩)
      (a.Results b fun p => (∃ id, rm = .register id ∧ p = .general id) ∨
        ∃ x, a.address? next rm = some x ∧ ∃ k, p = .byte k ∧ a.bytesAt x (4 * 1) k) := by
  simp only [execute]
  rcases operand_cases a next rm with ⟨id, rfl⟩ | ⟨x, ha⟩
  · refine .ok ⟨keeps_setGeneral64 id _, fun p hp => ?_⟩
    obtain ⟨j, e, rfl⟩ | ⟨y, e, -⟩ := hp
    · cases e
      exact same_setGeneral64 id _
    · cases e
  · have hb := address ▸ ha
    rw [write32_memory ha, write32_memory hb]
    have written : Follows (a.writeBytes x (bytesOfWord (immediateWord immediate)))
        (b.writeBytes x (bytesOfWord (immediateWord immediate))) (a.Stores b (fun _ => True) 1 x) :=
      follows_writeWord h fun _ => rfl
    refine written.mono fun a' b' stores => ?_
    have results := stores.results fun _ _ => trivial
    refine ⟨results.keeps, fun p hp => results.gives p ?_⟩
    obtain ⟨j, rfl, -⟩ | ⟨y, hy, bytes⟩ := hp
    · cases ha
    · obtain rfl : x = y := Option.some.inj (ha.symm.trans hy)
      exact bytes

/-! ## Reloading registers -/

/-- A word of some bytes. -/
theorem wordOfBytes_congr {xs ys : List UInt8} {k : Nat}
    (same : ∀ i < 4, xs[4 * k + i]? = ys[4 * k + i]?) :
    wordOfBytes (xs.drop (4 * k)) = wordOfBytes (ys.drop (4 * k)) := by
  have : (xs.drop (4 * k)).take 4 = (ys.drop (4 * k)).take 4 := by
    refine List.ext_getElem? fun i => ?_
    simp only [List.getElem?_take, List.getElem?_drop]
    split
    · next h => exact same i h
    · rfl
  rw [wordOfBytes, wordOfBytes, this]

theorem get_ofBytes (xs : List UInt8) {k : Nat} (hk : k < 4) :
    (Lanes.ofBytes xs).get k = wordOfBytes (xs.drop (4 * k)) := by
  have : k = 0 ∨ k = 1 ∨ k = 2 ∨ k = 3 := by omega
  rcases this with rfl | rfl | rfl | rfl <;> rfl

/-- **Loading a register on twin machines**, from the same address: the
words of which all bytes are the same are the same afterwards, and other
registers are not touched. -/
theorem follows_reload {i : Instruction Nat} {c : RegisterClass}
    (load : (i.opcode = .movLoad ∧ c = .general ∧ n = 1) ∨ (i.opcode = .movupsLoad ∧ c = .simd ∧ n = 4))
    (h : a.Aligned b) {x : Nat} (ha : a.address? next i.rm = some x)
    (hb : b.address? next i.rm = some x) :
    Follows (a.execute rsqrt next i) (b.execute rsqrt next i) fun a' b' =>
      (∀ p, (∀ id k, p = c.part id k → id % 8 ≠ i.reg % 8) → a.Same b p → a'.Same b' p) ∧
      ∀ k < n, (∀ j, a.bytesAt (x + 4 * k) 4 j → a.Same b (.byte j)) → a'.Same b' (c.part i.reg k) := by
  obtain ⟨o, reg, rm, immediate⟩ := i
  -- Both machines read inside the block, so what they read is the same wherever the
  -- bytes are.
  have words (count : Nat) (spans : a.Spans x count) {k : Nat} (inside : 4 * k + 4 ≤ count)
      (same : ∀ j, a.bytesAt (x + 4 * k) 4 j → a.Same b (.byte j)) :
      wordOfBytes ((a.block.getBytes (x - a.base) count).drop (4 * k)) =
        wordOfBytes ((b.block.getBytes (x - b.base) count).drop (4 * k)) := by
    have low := spans.1
    refine wordOfBytes_congr fun i hi => ?_
    rw [Block.getElem?_getBytes (by omega), Block.getElem?_getBytes (by omega), ← h.base]
    exact congrArg some (same _ ⟨by omega, by omega⟩)
  have follow {count : Nat} (spans : a.Spans x count) : b.Spans x count := by
    simpa only [Spans, h.base, h.size] using spans
  rcases load with ⟨rfl, rfl, rfl⟩ | ⟨rfl, rfl, rfl⟩
  · intro a' run
    simp only [execute, read32_memory ha, read32_memory hb, except_bind_eq_ok, except_map_eq_ok,
      readBytes_eq_ok] at run ⊢
    obtain ⟨_, ⟨_, ⟨spans, rfl⟩, rfl⟩, run⟩ := run
    cases run
    refine ⟨_, ⟨_, ⟨_, ⟨follow spans, rfl⟩, rfl⟩, rfl⟩, fun p other same => ?_, fun k hk same => ?_⟩
    · cases p with
      | general j =>
        have := other j 0 rfl
        simp only [Same, setGeneral32, general64_set, if_neg this] at same ⊢
        exact same
      | _ => exact same
    · obtain rfl : k = 0 := by omega
      have word := words 4 spans (k := 0) (by omega) same
      simp only [Nat.mul_zero, List.drop_zero] at word
      simp only [RegisterClass.part, Same, setGeneral32, general64_set, if_true, word]
  · intro a' run
    simp only [execute, readPacked_memory ha, readPacked_memory hb, except_bind_eq_ok, except_map_eq_ok,
      readBytes_eq_ok] at run ⊢
    obtain ⟨_, ⟨_, ⟨spans, rfl⟩, rfl⟩, run⟩ := run
    cases run
    refine ⟨_, ⟨_, ⟨_, ⟨follow spans, rfl⟩, rfl⟩, rfl⟩, fun p other same => ?_, fun k hk same => ?_⟩
    · cases p with
      | lane j k =>
        have := other j k rfl
        simp only [Same, simd_set, if_neg this] at same ⊢
        exact same
      | _ => exact same
    · simp only [RegisterClass.part, Same, simd_set, if_true, get_ofBytes _ hk]
      exact words 16 spans (by omega) same

/-! ## Divisions -/

/-- **Dividing on twin machines.** -/
theorem follows_idiv {reg : Nat} {immediate : List UInt8} (h : a.Aligned b)
    (low : a.Same b (.general 0)) (high : a.Same b (.general 2))
    (operand : a.SameOperand b next .general 1 rm) :
    Follows (a.execute rsqrt next ⟨.idiv, reg, rm, immediate⟩)
      (b.execute rsqrt next ⟨.idiv, reg, rm, immediate⟩)
      (a.Results b fun p => p = .general 0 ∨ p = .general 2) := by
  have low : a.general64 0 = b.general64 0 := low
  have high : a.general64 2 = b.general64 2 := high
  intro a' run
  obtain ⟨w, q, r, read, quotient, rfl⟩ := execute_idiv run
  obtain ⟨w', read', rfl⟩ := follows_read32 h operand w read
  refine ⟨((b.setGeneral32 0 q).setGeneral32 2 r).setFlags .ofDivision, ?_, ?_, ?_⟩
  · rw [general32, general32, low, high] at quotient
    change divide? (b.general32 2) (b.general32 0) w = _ at quotient
    unfold execute
    dsimp only
    refine except_bind_eq_ok.2 ⟨w, read', ?_⟩
    simp only [quotient]
    rfl
  · exact ((keeps_setGeneral64 0 _).trans (keeps_setGeneral64 2 _)).trans (keeps_setFlags _)
  · rintro p (rfl | rfl)
    · exact keeps_setFlags _ _ (keeps_setGeneral64 2 _ _ (same_setGeneral64 0 _))
    · exact keeps_setFlags _ _ (same_setGeneral64 2 _)

end Machine

end Shading
