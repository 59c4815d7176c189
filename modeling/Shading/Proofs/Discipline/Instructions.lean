import Shading.Proofs.Discipline.Operands

/-!
# What each instruction knows

One lemma for each way in which the opcodes compute: from which known
operands an instruction is emitted, and what is known behind it
(`Regime.Emits`).
-/

namespace Shading

open LoweringState

namespace Regime

/-- **What an operation comes to** that changes some general registers. -/
structure Does (R : Regime) (K : Nat → Prop) (s t : LoweringState) (writes : Nat → Prop)
    (gained : Part → Prop) : Prop where
  course : R.Course K s t [] []
  gains : ∀ p, gained p → R.Known t p
  exact : ∀ r, r < 8 → ¬ writes r → R.Shows s (R.Exact r) → R.Shows t (R.Exact r)

/-- **What emitting an instruction comes to** that writes some general
registers: nothing is lost. -/
structure Emits (R : Regime) (K : Nat → Prop) (s t : LoweringState) (writes : Nat → Prop)
    (gained : Part → Prop) : Prop extends R.Does K s t writes gained where
  all : ∀ p, R.Known s p → R.Known t p

variable {R : Regime} {K : Nat → Prop} {s t : LoweringState} {i : Instruction Nat} {n : Nat}
  {c : RegisterClass} {l : Location} {writes writes' : Nat → Prop} {gained gained' lost : Part → Prop}

theorem Does.mono (h : R.Does K s t writes gained) (sub : ∀ r, writes r → writes' r)
    (less : ∀ p, gained' p → gained p) : R.Does K s t writes' gained' where
  course := h.course
  gains := fun p hp => h.gains p (less p hp)
  exact := fun r small other => h.exact r small fun w => other (sub r w)

theorem Emits.mono (h : R.Emits K s t writes gained) (sub : ∀ r, writes r → writes' r)
    (less : ∀ p, gained' p → gained p) : R.Emits K s t writes' gained' :=
  ⟨h.toDoes.mono sub less, h.all⟩

theorem Admits.emits (admits : R.Admits K s i lost gained) (ready : R.Ready K s) (text : String)
    (none : ∀ p, ¬ lost p) :
    R.Emits K s (Lower.wrote s i text) (Machine.writesGeneral i) gained where
  course := admits.course ready text fun p out => absurd out (none p)
  gains := fun _ h => admits.gains ready.fine text h
  exact := fun _ small other => admits.exact ready.fine text small other
  all := fun p known => admits.keeps ready.fine text (none p) known

/-- Words at a register are its first parts. -/
theorem parts_location (c : RegisterClass) (id : Nat) : R.parts s n (c.location id) = c.parts id n := by
  cases c <;> rfl

theorem form_of_shape {o : Opcode} {shape : Opcode.Shape} (known : o.shape? = some shape) :
    o.form.immediate = 0 ∧ o.writesOperand = false ∧ o.onRegister = false ∧
      o.reach = 4 * shape.reads ∧ 0 < shape.reads ∧ (o.isAligned = true → shape.reads = 4) := by
  cases o <;> simp only [Opcode.shape?, Option.some.injEq, reduceCtorEq] at known <;>
    subst known <;> decide

theorem writes_of_shape {o : Opcode} {shape : Opcode.Shape} (known : o.shape? = some shape) {reg r : Nat}
    {rm : Operand Nat} {immediate : List UInt8}
    (h : Machine.writesGeneral ⟨o, reg, rm, immediate⟩ r) : shape.reg = .general ∧ r = reg := by
  cases o <;> simp only [Opcode.shape?, Option.some.injEq, reduceCtorEq] at known <;>
    subst known <;> simp_all [Machine.writesGeneral]

end Regime

open Regime

namespace Lower

variable {R : Regime} {K : Nat → Prop} {s t : LoweringState} {n : Nat} {c : RegisterClass} {l : Location}

/-! ## Computing into a register -/

/-- An instruction that reads an operand which both machines read alike. -/
theorem admits_source (fine : R.Fine s) {o : Opcode} {reg : Nat} {p : Operand Nat}
    {immediate : List UInt8} {gained : Part → Prop} (source : R.Source s c n l)
    (operand : operandOf l = .ok p) (small : reg < 8) (length : immediate.length = o.form.immediate)
    (reads : o.writesOperand = false) (onRegister : o.onRegister = false) (reach : o.reach = 4 * n)
    (words : 0 < n) (wide : o.isAligned = true → n = 4) (exact : o.isAligned = true → R.ExactAt s l)
    (spares : ¬ Machine.writesGeneral ⟨o, reg, p, immediate⟩ localBaseRegister)
    (narrow : ∀ r, K r → Machine.writesGeneral ⟨o, reg, p, immediate⟩ r → o.form.wide = false)
    (follows : R.Contained → R.Covers s → ∀ a b, R.Reaches s (.running a b) → R.Both a b →
      a.SameOperand b (Instruction.anchor ⟨o, reg, p, immediate⟩) c n (p.map fun _ => 0) →
      (∀ x, a.operandAddress? ⟨o, reg, p, immediate⟩ = some x → a.Spans x (4 * n)) →
      Follows (a.perform R.rsqrt ⟨o, reg, p, immediate⟩) (b.perform R.rsqrt ⟨o, reg, p, immediate⟩)
        (a.Results b gained)) :
    R.Admits K s ⟨o, reg, p, immediate⟩ (fun _ => False) gained := by
  have allowed : Instruction.Allowed s.Uses R.assigned s.layout ⟨o, reg, p, immediate⟩ := by
    rcases source.place with ⟨id, pool, rfl⟩ | place
    · rw [operandOf_location] at operand
      cases operand
      exact allowed_register small (pool_lt pool) length spares
    · exact allowed_place small length (reads ▸ place) operand (Nat.le_of_eq reach) onRegister spares wide
  refine
    { allowed := allowed
      located := fun r h => ?_
      carries := carries_of fine allowed
        (fun h r rm => exact h r (eq_of_operandOf_indirect ((show p = _ from rm) ▸ operand)))
        fun contained covers a b reaches both permits spans => ?_
      narrow := narrow
      other := fun x avoid taken => ?_ }
  · have := eq_of_operandOf_indirect ((show p = _ from h) ▸ operand)
    subst this
    exact source.known _ (.inl rfl)
  · have spans (x : Nat) (address : a.operandAddress? ⟨o, reg, p, immediate⟩ = some x) :
        a.Spans x o.reach := spans x address (by simp only [reach]; omega)
    have same := source.same fine contained (i := ⟨o, reg, p, immediate⟩) operand covers reaches both
      permits reach words spans
    exact (follows contained covers a b reaches both same (reach ▸ spans)).mono
      fun a' b' results => ⟨fun q _ same => results.keeps q same, results.gives⟩
  · rcases source.place with ⟨id, -, rfl⟩ | place
    · rw [operandOf_location] at operand
      cases operand
      exact Lease.reload?_ne_of_rm (by rintro _ ⟨⟩)
    · exact place.other fine operand words taken

/-- **An opcode that computes into its register** from a known operand. -/
theorem computes_results (ready : R.Ready K s) {o : Opcode} {shape : Opcode.Shape}
    (known : o.shape? = some shape) {id : Nat} (pool : id ∈ shape.reg.pool)
    (register : R.Knows s shape.uses (shape.reg.location id))
    (source : R.Source s shape.rm shape.reads l) (exact : o.isAligned = true → R.ExactAt s l)
    (narrow : o.form.wide = true → shape.reg = .general → ¬ K id) :
    Results (emit o (shape.reg.location id) l) s fun _ t =>
      R.Emits K s t (fun r => shape.reg = .general ∧ r = id) (shape.reg.parts id shape.gives) := by
  obtain ⟨p, operand⟩ := source.operand
  obtain ⟨text, run⟩ := emit_eq (s := s) o (registerField_location shape.reg id) operand []
  obtain ⟨immediate, reads, onRegister, reach, words, aligned⟩ := form_of_shape known
  have admits : R.Admits K s ⟨o, id, p, []⟩ (fun _ => False) (shape.reg.parts id shape.gives) := by
    refine admits_source ready.fine source operand (pool_lt pool) immediate.symm reads onRegister reach
      words aligned exact (fun h => ?_) (fun r held h => ?_) fun contained covers a b reaches both same _ =>
        Machine.follows_computes (i := Instruction.anchored ⟨o, id, p, []⟩) known both.aligned
          (fun q hq => register q (by rw [parts_location]; exact hq) covers a b reaches) same
    · obtain ⟨general, same⟩ := writes_of_shape known h
      rw [general] at pool
      exact general_ne_base pool same.symm
    · obtain ⟨general, rfl⟩ := writes_of_shape known h
      cases wide : o.form.wide with
      | false => rfl
      | true => exact absurd held (narrow wide general)
  exact .intro run ((admits.emits ready text (by simp)).mono
    (fun r h => writes_of_shape known h) fun _ h => h)

/-! ## Storing a register -/

theorem writes_of_stored {o : Opcode} (stored : o.stored? = some (c, n)) {reg r : Nat} {p : Operand Nat}
    {immediate : List UInt8} (memory : ∀ id, p ≠ .register id)
    (h : Machine.writesGeneral ⟨o, reg, p, immediate⟩ r) : False := by
  cases o <;> simp only [Opcode.stored?, Option.some.injEq, reduceCtorEq] at stored <;>
    simp_all [Machine.writesGeneral]

theorem form_of_stored {o : Opcode} (stored : o.stored? = some (c, n)) :
    o.form.immediate = 0 ∧ o.writesOperand = true ∧ o.onRegister = false ∧ o.reach = 4 * n ∧ 0 < n ∧
      o.isAligned = false := by
  cases o <;> simp only [Opcode.stored?, Option.some.injEq, Prod.mk.injEq, reduceCtorEq] at stored <;>
    obtain ⟨rfl, rfl⟩ := stored <;> decide

theorem load_of_stored {o : Opcode} (stored : o.stored? = some (c, n)) (c' : RegisterClass) :
    o ≠ (spillWidth c').load := by
  rintro rfl
  cases c' <;> cases stored

/-- **An opcode that stores a register** in memory: what was known of each
word is known of the word that is stored. -/
theorem admits_store (fine : R.Fine s) {o : Opcode} (stored : o.stored? = some (c, n)) {id : Nat}
    (pool : id ∈ c.pool) {saves : Bool} (target : R.Room s saves true n l) {p : Operand Nat}
    (operand : operandOf l = .ok p)
    (located : ∀ r, l = .indirectRegister r → R.Known s (.general r)) :
    R.Admits K s ⟨o, id, p, []⟩
      (fun q => (∃ j < n, ¬ R.Known s (c.part id j)) ∧ R.parts s n l q)
      (fun q => (∀ r, l ≠ .indirectRegister r) ∧
        ∃ j < n, R.Known s (c.part id j) ∧ R.parts s 1 (l.offsetBy (4 * j)) q) := by
  obtain ⟨immediate, writes, onRegister, reach, words, packed⟩ := form_of_stored stored
  have memory := target.not_register operand
  have located' : ∀ r, p = .indirect r → R.Known s (.general r) := fun r h =>
    located r (eq_of_operandOf_indirect (h ▸ operand))
  have allowed : Instruction.Allowed s.Uses R.assigned s.layout ⟨o, id, p, []⟩ :=
    allowed_place (pool_lt pool) immediate.symm (writes ▸ target) operand (Nat.le_of_eq reach) onRegister
      (fun h => writes_of_stored stored memory h) fun h => by
        rw [packed] at h
        cases h
  refine
    { allowed := allowed
      located := located'
      carries := carries_of fine allowed (fun h => by
          rw [packed] at h
          cases h)
        fun contained covers a b reaches both permits spans => ?_
      narrow := fun r _ h => (writes_of_stored stored memory h).elim
      other := fun _ _ _ => Lease.reload?_ne_of_opcode (load_of_stored stored) }
  -- Both machines write to the same address: an address in a register is known, and any
  -- other one is a known offset in the block.
  obtain ⟨x, address⟩ := Machine.address?_of_memory a (Instruction.anchor ⟨o, id, p, []⟩)
    (show ∀ r, (p.map fun _ => 0) ≠ .register r from fun r h => by cases p <;> simp_all [Operand.map])
  have address : a.operandAddress? ⟨o, id, p, []⟩ = some x := address
  have address' : b.operandAddress? ⟨o, id, p, []⟩ = some x := by
    rw [← address_congr target (i := ⟨o, id, p, []⟩) operand located' covers reaches both]
    exact address
  have span := spans x address (by simp only [reach]; omega)
  have bytes {k : Nat} (at_ : a.bytesAt x (4 * n) k) : R.parts s n l (.byte k) :=
    parts_of_address fine contained covers both target (i := ⟨o, id, p, []⟩) operand permits reach words
      address span at_
  refine (Machine.follows_stores (i := Instruction.anchored ⟨o, id, p, []⟩) stored both.aligned address
    address').mono fun a' b' stores => ⟨fun q kept same => ?_, fun q gained => ?_⟩
  -- If all that is stored is known, what is known stays so wherever the store goes;
  -- otherwise the bytes it takes are given up.
  · by_cases all : ∀ j < n, R.Known s (c.part id j)
    · exact (stores.results fun j hj => all j hj covers a b reaches).keeps q same
    · refine stores.others q (fun k h at_ => kept ⟨by simpa using all, ?_⟩) same
      rw [h]
      exact bytes at_
  · obtain ⟨direct, j, hj, known, part⟩ := gained
    cases target with
    | indirect => exact absurd rfl (direct _)
    | @direct _ r offset use slot place uses holds size writable aligned =>
      have place' : (l.offsetBy (4 * j)).place? = some (r, offset + 4 * j) := by
        cases l <;> simp_all [Location.place?, Location.offsetBy]
      obtain ⟨k, rfl, low, high⟩ := (parts_direct place').1 part
      have stop := Nat.le_trans holds.2.2 (Nat.le_trans size (covers.sizeOf_le _))
      have at_ := operandAddress_eq fine.regime.behind covers.fits both.1 (i := ⟨o, id, p, []⟩)
        (operandOf_place place operand) stop (by omega) address (reach ▸ span)
      refine stores.stored j hj (known covers a b reaches) k ?_
      have base := both.1.base
      unfold Machine.bytesAt
      cases r <;> simp only [offsetOf] at low high at_ <;> omega

/-- The first words of a place are among all of them. -/
theorem exists_word {r : Region} {o : Nat} (place : l.place? = some (r, o)) {q : Part}
    (h : R.parts s n l q) : ∃ j < n, R.parts s 1 (l.offsetBy (4 * j)) q := by
  obtain ⟨k, rfl, low, high⟩ := (parts_direct place).1 h
  refine ⟨(k - R.offsetOf r o) / 4, by omega, ?_⟩
  have place' : (l.offsetBy (4 * ((k - R.offsetOf r o) / 4))).place? =
      some (r, o + 4 * ((k - R.offsetOf r o) / 4)) := by
    cases l <;> simp_all [Location.place?, Location.offsetBy]
  refine (parts_direct place').2 ⟨k, rfl, ?_, ?_⟩ <;> cases r <;> simp only [offsetOf] at * <;> omega

/-- **Storing a known register** in a place that may be written. A store by
an address that succeeds shows that it is one of the block. -/
theorem stores_results (ready : R.Ready K s) {o : Opcode} (stored : o.stored? = some (c, n)) {id : Nat}
    (pool : id ∈ c.pool) (register : R.Knows s n (c.location id)) (target : R.Place s true n l)
    (located : ∀ r, l = .indirectRegister r → R.Known s (.general r)) :
    Results (emitStore o l (c.location id)) s fun _ t =>
      R.Emits K s t (fun _ => False) (fun q => (∀ r, l ≠ .indirectRegister r) ∧ R.parts s n l q) ∧
      ∀ r, l = .indirectRegister r → R.Shows s (R.Soft r) → R.Shows t (R.Exact r) := by
  obtain ⟨p, operand⟩ := target.operand
  obtain ⟨text, run⟩ := emitStore_eq (s := s) o operand (registerField_location c id)
  obtain ⟨-, -, -, reach, words, -⟩ := form_of_stored stored
  have admits := admits_store (K := K) ready.fine stored pool target operand located
  have memory := target.not_register operand
  have known : ∀ j < n, R.Known s (c.part id j) := fun j hj =>
    register _ (by rw [parts_location]; exact ⟨j, hj, rfl⟩)
  refine .intro run ⟨(admits.emits ready text ?_).mono (fun r h => writes_of_stored stored memory h) ?_, ?_⟩
  · rintro q ⟨⟨j, hj, unknown⟩, -⟩
    exact absurd (known j hj) unknown
  · rintro q ⟨direct, part⟩
    cases target with
    | indirect => exact absurd rfl (direct _)
    | direct place =>
      obtain ⟨j, hj, word⟩ := exists_word place part
      exact ⟨direct, j, hj, known j hj, word⟩
  · rintro r rfl soft covers a' b' reaches high
    have covers := covers.back (leads_wrote ready.fine.ok _ text)
    obtain ⟨a, b, reaches, both, -, ha, -⟩ := admits.running ready.fine covers reaches
    have rm := operandOf_indirect operand
    have address : a.operandAddress? ⟨o, id, p, []⟩ = some (a.general64 r).toNat :=
      Machine.operandAddress?_indirect rm
    have span := Machine.execute_spans ha address (by
      change o.reach ≠ 0
      omega)
    have low := span.1
    rw [both.1.base] at low
    have small : r < 8 := by
      cases target with
      | indirect pool => exact pool_lt pool
      | direct place => cases place
    rcases Carried.spared admits.allowed small ha with same | ⟨writes, -⟩
    · rw [same]
      rcases soft covers a b reaches high with exact | short
      · exact exact
      · omega
    · exact (writes_of_stored stored memory writes).elim

/-! ## Operations on registers -/

/-- An instruction on registers of which both machines make the same. -/
theorem admits_registers (fine : R.Fine s) {o : Opcode} {reg id : Nat} {immediate : List UInt8}
    {gained : Part → Prop} (small : reg < 8) (small' : id < 8)
    (length : immediate.length = o.form.immediate)
    (spares : ¬ Machine.writesGeneral ⟨o, reg, .register id, immediate⟩ localBaseRegister)
    (narrow : ∀ r, K r → Machine.writesGeneral ⟨o, reg, .register id, immediate⟩ r →
      o.form.wide = false)
    (follows : R.Contained → R.Covers s → ∀ a b, R.Reaches s (.running a b) → a.Aligned b →
      Follows (a.execute R.rsqrt 0 ⟨o, reg, .register id, immediate⟩)
        (b.execute R.rsqrt 0 ⟨o, reg, .register id, immediate⟩) (a.Results b gained)) :
    R.Admits K s ⟨o, reg, .register id, immediate⟩ (fun _ => False) gained :=
  have allowed := allowed_register small small' length spares
  { allowed := allowed
    located := fun r h => by cases h
    carries := carries_of fine allowed (fun _ r h => by cases h)
      fun contained covers a b reaches both _ _ =>
        (follows contained covers a b reaches both.aligned).mono fun a' b' results =>
          ⟨fun q _ same => results.keeps q same, results.gives⟩
    narrow := narrow
    other := fun _ _ _ => Lease.reload?_ne_of_rm (by rintro _ ⟨⟩) }

/-- **Negating or inverting a register**, or moving an address on. -/
theorem inPlace_results (ready : R.Ready K s) {o : Opcode}
    (inPlace : o = .neg ∨ o = .xorImm8 ∨ o = .addImm64) {id : Nat}
    (pool : id ∈ RegisterClass.general.pool) {immediate : List UInt8}
    (length : immediate.length = o.form.immediate) (known : R.Known s (.general id))
    (narrow : o = .addImm64 → ¬ K id) :
    Results (emitUnary o (.register id) immediate) s fun _ t =>
      R.Emits K s t (· = id) (· = .general id) := by
  obtain ⟨text, run⟩ := emitUnary_eq (s := s) o (m := .register id) rfl immediate
  have writes {r : Nat} (h : Machine.writesGeneral ⟨o, 0, .register id, immediate⟩ r) : r = id := by
    rcases inPlace with rfl | rfl | rfl <;> cases h <;> rfl
  have admits : R.Admits K s ⟨o, 0, .register id, immediate⟩ (fun _ => False)
      (RegisterClass.general.parts id 1) := by
    refine admits_registers ready.fine (by decide) (pool_lt pool) length
      (fun h => general_ne_base pool (writes h).symm) (fun r held h => ?_)
      fun _ covers a b reaches _ => Machine.follows_inPlace inPlace (known covers a b reaches)
    obtain rfl := writes h
    rcases inPlace with rfl | rfl | rfl
    · rfl
    · rfl
    · exact absurd held (narrow rfl)
  exact .intro run ((admits.emits ready text (by simp)).mono (fun r h => writes h)
    fun q h => ⟨0, by decide, h⟩)

/-- Scaling an index. -/
theorem imulImm64_results (ready : R.Ready K s) {id : Nat} (pool : id ∈ RegisterClass.general.pool)
    (stride : Nat) (known : R.Known s (.general id)) (free : ¬ K id) :
    Results (emit .imulImm64 (.register id) (.register id) (wordBytes stride)) s fun _ t =>
      R.Emits K s t (· = id) (· = .general id) := by
  obtain ⟨text, run⟩ := emit_eq (s := s) .imulImm64 (r := .register id) (m := .register id) rfl rfl
    (wordBytes stride)
  have admits : R.Admits K s ⟨.imulImm64, id, .register id, wordBytes stride⟩ (fun _ => False)
      (RegisterClass.general.parts id 1) :=
    admits_registers ready.fine (pool_lt pool) (pool_lt pool) (length_littleEndian 4 stride)
      (fun h => general_ne_base pool h) (fun r held h => absurd ((show id = r from h) ▸ held) free)
      fun _ covers a b reaches _ => Machine.follows_imulImm64 (known covers a b reaches)
  exact .intro run ((admits.emits ready text (by simp)).mono (fun r h => h.symm)
    fun q h => ⟨0, by decide, h⟩)

/-- Adding an address. -/
theorem add64_results (ready : R.Ready K s) {id base : Nat} (pool : id ∈ RegisterClass.general.pool)
    (pool' : base ∈ RegisterClass.general.pool) (known : R.Known s (.general id))
    (address : R.Known s (.general base)) (free : ¬ K id) :
    Results (emit .add64 (.register id) (.register base)) s fun _ t =>
      R.Emits K s t (· = id) (· = .general id) := by
  obtain ⟨text, run⟩ := emit_eq (s := s) .add64 (r := .register id) (m := .register base) rfl rfl []
  have admits : R.Admits K s ⟨.add64, id, .register base, []⟩ (fun _ => False)
      (RegisterClass.general.parts id 1) :=
    admits_registers ready.fine (pool_lt pool) (pool_lt pool') rfl
      (fun h => general_ne_base pool h) (fun r held h => absurd ((show id = r from h) ▸ held) free)
      fun _ covers a b reaches _ => Machine.follows_add64 (known covers a b reaches)
        (address covers a b reaches)
  exact .intro run ((admits.emits ready text (by simp)).mono (fun r h => h.symm)
    fun q h => ⟨0, by decide, h⟩)

/-- Moving the bytes of an SSE register. -/
theorem shift_results (ready : R.Ready K s) {o : Opcode} (shift : o.isShift = true) {id : Nat}
    (pool : id ∈ RegisterClass.simd.pool) (amount : UInt8) (known : R.Knows s 4 (.simdRegister id)) :
    Results (emitUnary o (.simdRegister id) [amount]) s fun _ t =>
      R.Emits K s t (fun _ => False) (RegisterClass.simd.parts id 4) := by
  obtain ⟨text, run⟩ := emitUnary_eq (s := s) o (m := .simdRegister id) rfl [amount]
  have none {r : Nat} (h : Machine.writesGeneral ⟨o, 0, .register id, [amount]⟩ r) : False := by
    cases o <;> simp_all [Opcode.isShift, Machine.writesGeneral]
  have admits : R.Admits K s ⟨o, 0, .register id, [amount]⟩ (fun _ => False)
      (RegisterClass.simd.parts id 4) :=
    admits_registers ready.fine (by decide) (pool_lt pool) (by
        cases o <;> simp_all [Opcode.isShift] <;> rfl)
      none (fun r _ h => (none h).elim)
      fun _ covers a b reaches _ => Machine.follows_shift shift fun q hq => known q hq covers a b reaches
  exact .intro run ((admits.emits ready text (by simp)).mono (fun r h => none h) fun _ h => h)

/-- Copying the first lane of an SSE register to all of them. -/
theorem splat_results (ready : R.Ready K s) {id : Nat} (pool : id ∈ RegisterClass.simd.pool)
    (known : R.Known s (.lane id 0)) :
    Results (emit .shufps (.simdRegister id) (.simdRegister id) [0]) s fun _ t =>
      R.Emits K s t (fun _ => False) (RegisterClass.simd.parts id 4) := by
  obtain ⟨text, run⟩ := emit_eq (s := s) .shufps (r := .simdRegister id) (m := .simdRegister id) rfl
    rfl [0]
  have admits : R.Admits K s ⟨.shufps, id, .register id, [0]⟩ (fun _ => False)
      (RegisterClass.simd.parts id 4) :=
    admits_registers ready.fine (pool_lt pool) (pool_lt pool) rfl (fun h => h) (fun r _ h => h.elim)
      fun _ covers a b reaches _ => Machine.follows_splat (known covers a b reaches)
  exact .intro run ((admits.emits ready text (by simp)).mono (fun r h => h) fun _ h => h)

/-- Clearing an SSE register. -/
theorem clear_results (ready : R.Ready K s) {id : Nat} (pool : id ∈ RegisterClass.simd.pool) :
    Results (emit .xorps (.simdRegister id) (.simdRegister id)) s fun _ t =>
      R.Emits K s t (fun _ => False) (RegisterClass.simd.parts id 4) := by
  obtain ⟨text, run⟩ := emit_eq (s := s) .xorps (r := .simdRegister id) (m := .simdRegister id) rfl
    rfl []
  have admits : R.Admits K s ⟨.xorps, id, .register id, []⟩ (fun _ => False)
      (RegisterClass.simd.parts id 4) :=
    admits_registers ready.fine (pool_lt pool) (pool_lt pool) rfl (fun h => h) (fun r _ h => h.elim)
      fun _ _ a b _ _ => Machine.follows_clear
  exact .intro run ((admits.emits ready text (by simp)).mono (fun r h => h) fun _ h => h)

/-! ## Comparisons and divisions -/

/-- **Comparing** what is known decides the flags. -/
theorem cmpLoad_results (ready : R.Ready K s) {id : Nat} (pool : id ∈ RegisterClass.general.pool)
    (known : R.Known s (.general id)) (source : R.Source s .general 1 l) :
    Results (emit .cmpLoad (.register id) l) s fun _ t =>
      R.Emits K s t (fun _ => False) (· = .flags) := by
  obtain ⟨p, operand⟩ := source.operand
  obtain ⟨text, run⟩ := emit_eq (s := s) .cmpLoad (r := .register id) rfl operand []
  have admits : R.Admits K s ⟨.cmpLoad, id, p, []⟩ (fun _ => False) (· = .flags) :=
    admits_source ready.fine source operand (pool_lt pool) rfl rfl rfl rfl (by decide) nofun
      nofun (fun h => h) (fun r _ h => h.elim) fun _ covers a b reaches both same _ =>
        Machine.follows_compareInts both.aligned (.inl rfl) (known covers a b reaches) same
  exact .intro run ((admits.emits ready text (by simp)).mono (fun r h => h) fun _ h => h)

theorem cmpStore_results (ready : R.Ready K s) {id : Nat} (pool : id ∈ RegisterClass.general.pool)
    (known : R.Known s (.general id)) (source : R.Source s .general 1 l) :
    Results (emitStore .cmpStore l (.register id)) s fun _ t =>
      R.Emits K s t (fun _ => False) (· = .flags) := by
  obtain ⟨p, operand⟩ := source.operand
  obtain ⟨text, run⟩ := emitStore_eq (s := s) .cmpStore (r := .register id) operand rfl
  have admits : R.Admits K s ⟨.cmpStore, id, p, []⟩ (fun _ => False) (· = .flags) :=
    admits_source ready.fine source operand (pool_lt pool) rfl rfl rfl rfl (by decide) nofun
      nofun (fun h => h) (fun r _ h => h.elim) fun _ covers a b reaches both same _ =>
        Machine.follows_compareInts both.aligned (.inr rfl) (known covers a b reaches) same
  exact .intro run ((admits.emits ready text (by simp)).mono (fun r h => h) fun _ h => h)

theorem cmpImm8_results (ready : R.Ready K s) (byte : UInt8) (source : R.Source s .general 1 l) :
    Results (emitUnary .cmpImm8 l [byte]) s fun _ t =>
      R.Emits K s t (fun _ => False) (· = .flags) := by
  obtain ⟨p, operand⟩ := source.operand
  obtain ⟨text, run⟩ := emitUnary_eq (s := s) .cmpImm8 operand [byte]
  have admits : R.Admits K s ⟨.cmpImm8, 0, p, [byte]⟩ (fun _ => False) (· = .flags) :=
    admits_source ready.fine source operand (by decide) rfl rfl rfl rfl (by decide) nofun
      nofun (fun h => h) (fun r _ h => h.elim) fun _ _ a b _ both same _ =>
        Machine.follows_cmpImm8 both.aligned same
  exact .intro run ((admits.emits ready text (by simp)).mono (fun r h => h) fun _ h => h)

theorem comiss_results (ready : R.Ready K s) {id : Nat} (pool : id ∈ RegisterClass.simd.pool)
    (known : R.Known s (.lane id 0)) (source : R.Source s .simd 1 l) :
    Results (emit .comiss (.simdRegister id) l) s fun _ t =>
      R.Emits K s t (fun _ => False) (· = .flags) := by
  obtain ⟨p, operand⟩ := source.operand
  obtain ⟨text, run⟩ := emit_eq (s := s) .comiss (r := .simdRegister id) rfl operand []
  have admits : R.Admits K s ⟨.comiss, id, p, []⟩ (fun _ => False) (· = .flags) :=
    admits_source ready.fine source operand (pool_lt pool) rfl rfl rfl rfl (by decide) nofun
      nofun (fun h => h) (fun r _ h => h.elim) fun _ covers a b reaches both same _ =>
        Machine.follows_comiss both.aligned (known covers a b reaches) same
  exact .intro run ((admits.emits ready text (by simp)).mono (fun r h => h) fun _ h => h)

/-- **Dividing** by a known divisor. -/
theorem idiv_results (ready : R.Ready K s) (low : R.Known s (.general 0))
    (high : R.Known s (.general 2)) (source : R.Source s .general 1 l) :
    Results (emitUnary .idiv l) s fun _ t =>
      R.Emits K s t (fun r => r = 0 ∨ r = 2) (fun q => q = .general 0 ∨ q = .general 2) := by
  obtain ⟨p, operand⟩ := source.operand
  obtain ⟨text, run⟩ := emitUnary_eq (s := s) .idiv operand []
  have admits : R.Admits K s ⟨.idiv, 0, p, []⟩ (fun _ => False)
      (fun q => q = .general 0 ∨ q = .general 2) :=
    admits_source ready.fine source operand (by decide) rfl rfl rfl rfl (by decide) nofun
      nofun (fun h => by rcases (show localBaseRegister = 0 ∨ localBaseRegister = 2 from h) with h | h <;> cases h)
      (fun r _ _ => rfl)
      fun _ covers a b reaches both same _ =>
        Machine.follows_idiv both.aligned (low covers a b reaches) (high covers a b reaches) same
  exact .intro run ((admits.emits ready text (by simp)).mono (fun r h => h) fun _ h => h)

/-! ## Constants -/

/-- **Setting a place to a constant.** -/
theorem movImm_results (ready : R.Ready K s) {value : Nat}
    (place : (∃ id ∈ RegisterClass.general.pool, l = .register id) ∨
      (R.Place s true 1 l ∧ ∀ r, l ≠ .indirectRegister r)) :
    Results (emitUnary .movImm l (wordBytes value)) s fun _ t =>
      R.Emits K s t (fun r => l = .register r) (R.parts s 1 l) := by
  -- The same bytes go to a register or to memory; on both machines the word is known
  -- from then on.
  rcases place with ⟨id, pool, rfl⟩ | ⟨place, direct⟩
  · obtain ⟨text, run⟩ := emitUnary_eq (s := s) .movImm (m := .register id) rfl (wordBytes value)
    have admits : R.Admits K s ⟨.movImm, 0, .register id, wordBytes value⟩ (fun _ => False)
        (RegisterClass.general.parts id 1) :=
      admits_registers ready.fine (by decide) (pool_lt pool) (length_littleEndian 4 value)
        (fun h => by cases h; exact general_ne_base pool rfl) (fun r _ _ => rfl)
        fun _ _ a b _ aligned => (Machine.follows_movImm aligned (by rw [Machine.address?, Machine.address?])).mono fun a' b' results =>
          ⟨results.keeps, fun q hq => results.gives q (.inl ⟨id, rfl, by
            obtain ⟨k, -, rfl⟩ := hq
            rfl⟩)⟩
    exact .intro run ((admits.emits ready text (by simp)).mono
      (fun r h => by cases h; rfl) fun _ h => h)
  · obtain ⟨p, operand⟩ := place.operand
    obtain ⟨text, run⟩ := emitUnary_eq (s := s) .movImm operand (wordBytes value)
    have memory := place.not_register operand
    cases place with
    | indirect => exact absurd rfl (direct _)
    | @direct _ r o use slot location uses holds size writable aligned plain =>
      have at_ := operandOf_place location operand
      have none {r : Nat} (h : Machine.writesGeneral ⟨.movImm, 0, p, wordBytes value⟩ r) : False :=
        memory r h
      have allowed : Instruction.Allowed s.Uses R.assigned s.layout ⟨.movImm, 0, p, wordBytes value⟩ :=
        allowed_place (by decide) (length_littleEndian 4 value)
          (.direct location uses holds size writable aligned plain) operand (by decide) rfl
          (fun h => none h) (by decide)
      have admits : R.Admits K s ⟨.movImm, 0, p, wordBytes value⟩ (fun _ => False) (R.parts s 1 l) :=
        { allowed := allowed
          located := fun r h => absurd (eq_of_operandOf_indirect ((show p = _ from h) ▸ operand)) (direct r)
          carries := carries_of ready.fine allowed (by rintro ⟨⟩)
            fun contained covers a b reaches both permits spans => by
              have same := operandAddress_congr both.1 both.2.1
                (i := ⟨.movImm, 0, p, wordBytes value⟩) at_
              refine (Machine.follows_movImm both.aligned same).mono fun a' b' results =>
                ⟨fun q _ h => results.keeps q h, fun q hq => results.gives q (.inr ?_)⟩
              obtain ⟨k, rfl, low, high⟩ := (parts_direct location).1 hq
              have notRegister : ∀ id, (p.map fun _ => 0) ≠ .register id := fun id h => by
                cases p <;> simp_all [Operand.map]
              obtain ⟨x, address⟩ := Machine.address?_of_memory a
                (Instruction.anchor ⟨.movImm, 0, p, wordBytes value⟩) notRegister
              have stop := Nat.le_trans holds.2.2 (Nat.le_trans size (covers.sizeOf_le _))
              have eq := operandAddress_eq ready.fine.regime.behind covers.fits both.1
                (i := ⟨.movImm, 0, p, wordBytes value⟩) at_ stop (by decide) address
                (spans x address (by rintro ⟨⟩))
              refine ⟨x, address, k, rfl, ?_⟩
              have base := both.1.base
              unfold Machine.bytesAt
              omega
          narrow := fun r _ h => (none h).elim
          other := fun _ _ _ => Lease.reload?_ne_of_opcode (by rintro (_ | _) ⟨⟩) }
      exact .intro run ((admits.emits ready text (by simp)).mono (fun r h => (none h).elim) fun _ h => h)

/-- **A pooled constant can be read.** -/
theorem source_constant (fine : R.Fine s) {k : Constant} {offset : Nat}
    (pooled : (k, offset) ∈ s.constants.slots) {c : RegisterClass} {n : Nat} (size : k.size = 4 * n) :
    R.Source s c n (.globalMemory offset) where
  place := .inr (.direct rfl (.constant pooled) ⟨rfl, Nat.le_refl _, by simp only [Slot.stop, size]; omega⟩
    (Nat.le_trans (fine.ok.pooled _ pooled).1 fine.ok.layout.globalTop) (by simp) (fun four => by
      have := (fine.ok.pooled _ pooled).2
      simpa [size, four, BumpAllocator.alignmentOf] using this) (by rintro ⟨⟩))
  known := by
    rcases fine.regime.kind with identical | contained
    · exact fun q _ => identical.known q
    · rintro _ ⟨j, rfl, low, high⟩ covers a b reaches
      obtain ⟨holdsA, holdsB⟩ := (fine.grounded covers a b (.inl reaches)).2.2 contained
      have mem := covers.constants _ pooled
      have ha := holdsA _ mem (j - offset) (by simp only [size]; omega)
      have hb := holdsB _ mem (j - offset) (by simp only [size]; omega)
      have here : offset + (j - offset) = j := by omega
      simp only [here] at ha hb
      exact ha.trans hb.symm

/-- Keeping the first lane of an SSE register, by a mask. -/
theorem keepFirst_results (ready : R.Ready K s) {id : Nat} (pool : id ∈ RegisterClass.simd.pool)
    (known : R.Known s (.lane id 0)) {offset : Nat} {mask : Lanes}
    (pooled : (.vector mask, offset) ∈ s.constants.slots) (rest : mask.y = 0 ∧ mask.z = 0 ∧ mask.w = 0) :
    Results (emit .andps (.simdRegister id) (.globalMemory offset)) s fun _ t =>
      R.Emits K s t (fun _ => False) (RegisterClass.simd.parts id 4) := by
  have source := source_constant (c := .simd) (n := 4) ready.fine pooled rfl
  obtain ⟨text, run⟩ := emit_eq (s := s) .andps (r := .simdRegister id) (m := .globalMemory offset)
    rfl rfl []
  have admits : R.Admits K s ⟨.andps, id, .globalAt offset, []⟩ (fun _ => False)
      (RegisterClass.simd.parts id 4) := by
    refine admits_source ready.fine source rfl (pool_lt pool) rfl rfl rfl rfl (by decide) (fun _ => rfl)
      (fun _ r h => by cases h) (fun h => h) (fun r _ h => h.elim)
      fun contained covers a b reaches both same spans =>
        Machine.follows_keepFirst both.aligned (known covers a b reaches) same fun v aligned => ?_
    obtain ⟨x, address⟩ : ∃ x, a.operandAddress? ⟨.andps, id, .globalAt offset, []⟩ = some x :=
      ⟨_, Machine.operandAddress?_globalAt rfl⟩
    have read : a.readPacked (Instruction.anchor ⟨.andps, id, .globalAt offset, []⟩)
        (Instruction.anchored ⟨.andps, id, .globalAt offset, []⟩).rm = .ok v :=
      (Machine.readAligned_eq_ok.1 aligned).2
    rw [Machine.readPacked_memory address, except_map_eq_ok] at read
    obtain ⟨bytes, bytesRead, rfl⟩ := read
    obtain ⟨span, rfl⟩ := Machine.readBytes_eq_ok.1 bytesRead
    have inside := ready.fine.regime.pooled _ (covers.constants _ pooled)
    obtain rfl := operandAddress_eq ready.fine.regime.behind covers.fits both.1 (i := ⟨.andps, id, .globalAt offset, []⟩)
      rfl inside.1 (Nat.succ_pos 15) address span
    have holds := ((both.2.2 contained).1) _ (covers.constants _ pooled)
    have bytes : a.block.getBytes (R.base + R.offsetOf .global offset - a.base) 16 = mask.bytes := by
      have length : mask.bytes.length = 16 := Constant.length_bytes (.vector mask)
      rw [both.1.base, Nat.add_sub_cancel_left]
      refine List.ext_getElem? fun k => ?_
      by_cases small : k < 16
      · have byte : a.block.get (offset + k) = mask.bytes.getD k 0 := holds k small
        rw [Block.getElem?_getBytes small, List.getElem?_eq_getElem (length ▸ small)]
        exact congrArg some (byte.trans (by simp [length, small]))
      · rw [List.getElem?_eq_none (by simpa using small), List.getElem?_eq_none (by omega)]
    rw [bytes]
    have := Lanes.ofBytes_bytes mask []
    rw [List.append_nil] at this
    rw [this]
    exact rest
  exact .intro run ((admits.emits ready text (by simp)).mono (fun r h => h) fun _ h => h)

/-- Inverting the sign of the first lane of an SSE register, by a mask. -/
theorem flip_results (ready : R.Ready K s) {id : Nat} (pool : id ∈ RegisterClass.simd.pool)
    (known : R.Known s (.lane id 0)) {offset : Nat} {mask : Lanes}
    (pooled : (.vector mask, offset) ∈ s.constants.slots) :
    Results (emit .xorps (.simdRegister id) (.globalMemory offset)) s fun _ t =>
      R.Emits K s t (fun _ => False) (RegisterClass.simd.parts id 1) := by
  have source := source_constant (c := .simd) (n := 4) ready.fine pooled rfl
  obtain ⟨text, run⟩ := emit_eq (s := s) .xorps (r := .simdRegister id) (m := .globalMemory offset)
    rfl rfl []
  have admits : R.Admits K s ⟨.xorps, id, .globalAt offset, []⟩ (fun _ => False)
      (RegisterClass.simd.parts id 1) :=
    admits_source ready.fine source rfl (pool_lt pool) rfl rfl rfl rfl (by decide) (fun _ => rfl)
      (fun _ r h => by cases h) (fun h => h) (fun r _ h => h.elim)
      fun contained covers a b reaches both same spans =>
        Machine.follows_flip both.aligned (known covers a b reaches) same
  exact .intro run ((admits.emits ready text (by simp)).mono (fun r h => h) fun _ h => h)

/-! ## Addresses -/

/-- **Taking the address of a place** at a known offset: it is known, it
points into the slot there, and it is aligned if the offset is. -/
theorem lea_results (ready : R.Ready K s) {id : Nat} (pool : id ∈ RegisterClass.general.pool)
    {r : Region} {o : Nat} (place : l.place? = some (r, o)) {n : Nat} (memory : R.Place s false n l)
    (free : ¬ K id) :
    Results (emit .lea (.register id) l) s fun _ t =>
      R.Emits K s t (· = id) (· = .general id) ∧
      Transcript.origin? R.globals t.transcript id =
        Slot.at? (Transcript.live s.transcript ++ R.globals) r o ∧
      (o % 16 = 0 → R.Shows t (R.Exact id)) := by
  obtain ⟨p, operand⟩ := memory.operand
  obtain ⟨text, run⟩ := emit_eq (s := s) .lea (r := .register id) rfl operand []
  have at_ := operandOf_place place operand
  have allowed : Instruction.Allowed s.Uses R.assigned s.layout ⟨.lea, id, p, []⟩ :=
    allowed_place (pool_lt pool) rfl memory operand (Nat.zero_le _) rfl
      (fun h => general_ne_base pool h) nofun
  have admits : R.Admits K s ⟨.lea, id, p, []⟩ (fun _ => False) (RegisterClass.general.parts id 1) :=
    { allowed := allowed
      located := fun j h => by
        have := (show p = _ from h) ▸ at_
        cases this
      carries := carries_of ready.fine allowed nofun
        fun contained covers a b reaches both permits spans => by
          have same := operandAddress_congr both.1 both.2.1 (i := ⟨.lea, id, p, []⟩) at_
          exact (Machine.follows_lea same).mono fun a' b' results =>
            ⟨fun q _ h => results.keeps q h, results.gives⟩
      narrow := fun j held h => absurd ((show id = j from h) ▸ held) free
      other := fun _ _ _ => Lease.reload?_ne_of_opcode (by rintro (_ | _) ⟨⟩) }
  refine .intro run ⟨(admits.emits ready text (by simp)).mono (fun j h => h.symm)
    fun q h => ⟨0, by decide, h⟩, ?_, fun aligned covers a' b' reaches high => ?_⟩
  · change Transcript.origin? R.globals (.emitted ⟨.lea, id, p, []⟩ s.layout :: s.transcript) id = _
    rw [Transcript.origin?, if_pos rfl]
    simp only [at_, Option.bind_some]
  · have covers := covers.back (leads_wrote ready.fine.ok _ text)
    obtain ⟨a, b, reaches, both, -, ha, -⟩ := admits.running ready.fine covers reaches
    have eq : a' = a.setGeneral64 id
        (UInt64.ofNat ((a.operandAddress? ⟨.lea, id, p, []⟩).getD 0)) := (Except.ok.inj ha).symm
    subst eq
    rw [Machine.general64_set, if_pos rfl]
    cases address : a.operandAddress? ⟨.lea, id, p, []⟩ with
    | none => simp
    | some x =>
      have := aligned_of_place ready.fine.regime both.1 (i := ⟨.lea, id, p, []⟩) at_ aligned address
      simp only [Option.getD_some, UInt64.toNat_ofNat']
      omega

/-- An index of rows is scaled to a multiple of sixteen. -/
theorem imulImm64_exact (ready : R.Ready K s) {id : Nat} (pool : id ∈ RegisterClass.general.pool)
    (known : R.Known s (.general id)) (free : ¬ K id) :
    Results (emit .imulImm64 (.register id) (.register id) (wordBytes 16)) s fun _ t =>
      R.Shows t (R.Exact id) := by
  obtain ⟨text, run⟩ := emit_eq (s := s) .imulImm64 (r := .register id) (m := .register id) rfl rfl
    (wordBytes 16)
  have admits : R.Admits K s ⟨.imulImm64, id, .register id, wordBytes 16⟩ (fun _ => False)
      (RegisterClass.general.parts id 1) :=
    admits_registers ready.fine (pool_lt pool) (pool_lt pool) (length_littleEndian 4 16)
      (fun h => general_ne_base pool h) (fun r held h => absurd ((show id = r from h) ▸ held) free)
      fun _ covers a b reaches _ => Machine.follows_imulImm64 (known covers a b reaches)
  refine .intro run fun covers a' b' reaches high => ?_
  have covers := covers.back (leads_wrote ready.fine.ok _ text)
  obtain ⟨a, b, -, -, -, ha, -⟩ := admits.running ready.fine covers reaches
  have eq : a'.general64 id =
      (a.setGeneral64 id (a.general64 id * signExtend (immediateWord (wordBytes 16)))).general64 id :=
    (congrArg (Machine.general64 · id) (Except.ok.inj ha).symm :)
  have sixteen : signExtend (immediateWord (wordBytes 16)) = 16 := by decide
  rw [eq, Machine.general64_set, if_pos rfl, sixteen, UInt64.toNat_mul]
  have : (16 : UInt64).toNat = 16 := rfl
  rw [this]
  omega

/-- The sum of aligned addresses is aligned. -/
theorem add64_exact (ready : R.Ready K s) {id base : Nat} (pool : id ∈ RegisterClass.general.pool)
    (pool' : base ∈ RegisterClass.general.pool) (known : R.Known s (.general id))
    (address : R.Known s (.general base)) (free : ¬ K id) (exact : R.Shows s (R.Exact id))
    (exact' : R.Shows s (R.Exact base)) :
    Results (emit .add64 (.register id) (.register base)) s fun _ t => R.Shows t (R.Exact id) := by
  obtain ⟨text, run⟩ := emit_eq (s := s) .add64 (r := .register id) (m := .register base) rfl rfl []
  have admits : R.Admits K s ⟨.add64, id, .register base, []⟩ (fun _ => False)
      (RegisterClass.general.parts id 1) :=
    admits_registers ready.fine (pool_lt pool) (pool_lt pool') rfl
      (fun h => general_ne_base pool h) (fun r held h => absurd ((show id = r from h) ▸ held) free)
      fun _ covers a b reaches _ => Machine.follows_add64 (known covers a b reaches)
        (address covers a b reaches)
  refine .intro run fun covers a' b' reaches high => ?_
  have covers := covers.back (leads_wrote ready.fine.ok _ text)
  obtain ⟨a, b, reaches, -, -, ha, -⟩ := admits.running ready.fine covers reaches
  have eq : a'.general64 id = (a.setGeneral64 id (a.general64 id + a.general64 base)).general64 id :=
    (congrArg (Machine.general64 · id) (Except.ok.inj ha).symm :)
  have one := exact covers a b reaches high
  have other := exact' covers a b reaches high
  rw [eq, Machine.general64_set, if_pos rfl, UInt64.toNat_add]
  omega

end Lower

end Shading
