import Shading.Proofs.Machine.Fetch

/-!
# Straight code

Code without jumps is carried out from its first entry to its last. What it
does is said of the instructions before they have a place
(`Machine.Straight`), and where linked code stands in a block, and does not
write over itself, a run of the machine does just that
(`Machine.Straight.run`).
-/

namespace Shading.Machine

variable {m m' m₁ m₂ : Machine} {rsqrt : Word → Word} {X : Nat → Prop} {es es' : List CodeEntry}

/-! ## Where a machine stands -/

/-- The machine with its next instruction at an offset. -/
def standing (m : Machine) (offset : Nat) : Machine := { m with ip := offset }

@[simp] theorem standing_ip (m : Machine) : m.standing m.ip = m := rfl

@[simp] theorem standing_standing (m : Machine) (p q : Nat) : (m.standing p).standing q = m.standing q := rfl

section Standing

variable {next : Nat} {rm : Operand Nat} (p : Nat)

@[simp] theorem general64_standing (id : Nat) : (m.standing p).general64 id = m.general64 id := rfl

@[simp] theorem general32_standing (id : Nat) : (m.standing p).general32 id = m.general32 id := rfl

@[simp] theorem simd_standing (id : Nat) : (m.standing p).simd id = m.simd id := rfl

@[simp] theorem setGeneral64_standing (id : Nat) (v : UInt64) :
    (m.standing p).setGeneral64 id v = (m.setGeneral64 id v).standing p := rfl

@[simp] theorem setGeneral32_standing (id : Nat) (w : Word) :
    (m.standing p).setGeneral32 id w = (m.setGeneral32 id w).standing p := rfl

@[simp] theorem setSimd_standing (id : Nat) (v : Lanes) :
    (m.standing p).setSimd id v = (m.setSimd id v).standing p := rfl

@[simp] theorem setScalar_standing (id : Nat) (w : Word) :
    (m.standing p).setScalar id w = (m.setScalar id w).standing p := rfl

@[simp] theorem setFlags_standing (flags : Flags) :
    (m.standing p).setFlags flags = (m.setFlags flags).standing p := rfl

@[simp] theorem address?_standing : (m.standing p).address? next rm = m.address? next rm := by
  cases rm <;> rfl

@[simp] theorem read32_standing : (m.standing p).read32 next rm = m.read32 next rm := by
  simp only [read32, address?_standing]
  rfl

@[simp] theorem read64_standing : (m.standing p).read64 next rm = m.read64 next rm := by
  simp only [read64, address?_standing]
  rfl

@[simp] theorem readScalar_standing : (m.standing p).readScalar next rm = m.readScalar next rm := by
  simp only [readScalar, address?_standing]
  rfl

@[simp] theorem readPacked_standing : (m.standing p).readPacked next rm = m.readPacked next rm := by
  simp only [readPacked, address?_standing]
  rfl

@[simp] theorem readAligned_standing : (m.standing p).readAligned next rm = m.readAligned next rm := by
  simp only [readAligned, address?_standing, readPacked_standing]

theorem writeBytes_standing {a : Nat} {bytes : List UInt8} (h : m.writeBytes a bytes = .ok m') :
    (m.standing p).writeBytes a bytes = .ok (m'.standing p) := by
  obtain ⟨spans, rfl⟩ := writeBytes_eq_ok.1 h
  exact writeBytes_eq_ok.2 ⟨spans, rfl⟩

theorem write32_standing {w : Word} (h : m.write32 next rm w = .ok m') :
    (m.standing p).write32 next rm w = .ok (m'.standing p) := by
  rcases operand_cases m next rm with ⟨id, rfl⟩ | ⟨a, ha⟩
  · cases h
    rfl
  · rw [write32_memory ha] at h
    rw [write32_memory ((address?_standing p).trans ha)]
    exact writeBytes_standing p h

theorem write64_standing {w : UInt64} (h : m.write64 next rm w = .ok m') :
    (m.standing p).write64 next rm w = .ok (m'.standing p) := by
  rcases operand_cases m next rm with ⟨id, rfl⟩ | ⟨a, ha⟩
  · cases h
    rfl
  · rw [write64_memory ha] at h
    rw [write64_memory ((address?_standing p).trans ha)]
    exact writeBytes_standing p h

end Standing

/-- **An instruction with operands does not look where it stands.** -/
theorem execute_standing {next : Nat} {i : Instruction Nat} (p : Nat) (run : m.execute rsqrt next i = .ok m') :
    (m.standing p).execute rsqrt next i = .ok (m'.standing p) := by
  obtain ⟨o, reg, rm, immediate⟩ := i
  -- No instruction reads or writes the instruction pointer, since the address behind it
  -- is handed over.
  cases o
  case idiv =>
    obtain ⟨w, q, r, read, quotient, rfl⟩ := execute_idiv run
    have read' : (m.standing p).read32 next rm = .ok w := (read32_standing p).trans read
    exact execute_idiv_of_quotient read' quotient
  all_goals
    simp only [execute, arithmetic, scalar, packed, except_bind_eq_ok, pure, Except.pure, Except.ok.injEq,
      read32_standing, read64_standing, readScalar_standing, readPacked_standing, readAligned_standing,
      address?_standing, general32_standing, general64_standing, simd_standing, setGeneral32_standing,
      setGeneral64_standing, setSimd_standing, setScalar_standing, setFlags_standing] at run ⊢
  case movStore | movImm => exact write32_standing p run
  case neg | xorImm8 =>
    obtain ⟨a, read, m₁, write, rfl⟩ := run
    exact ⟨a, read, _, write32_standing p write, rfl⟩
  case addImm64 =>
    obtain ⟨a, read, m₁, write, rfl⟩ := run
    exact ⟨a, read, _, write64_standing p write, rfl⟩
  case lea => rw [run]
  case movssStore =>
    cases rm with
    | register id =>
      cases run
      rfl
    | _ => exact write32_standing p run
  case movupsStore =>
    rcases operand_cases m next rm with ⟨id, rfl⟩ | ⟨a, ha⟩
    · cases run
      rfl
    · simp only [ha] at run ⊢
      exact writeBytes_standing p run
  case movssLoad =>
    obtain ⟨v, read, run⟩ := run
    refine ⟨v, read, ?_⟩
    cases rm <;> cases run <;> rfl
  case psrldq | pslldq =>
    cases rm with
    | register id =>
      cases run
      rfl
    | _ => cases run
  all_goals
    obtain ⟨v, read, rfl⟩ := run
    exact ⟨v, read, rfl⟩

theorem perform_standing {i : Instruction Nat} (p : Nat) (run : m.perform rsqrt i = .ok m') :
    (m.standing p).perform rsqrt i = .ok (m'.standing p) := execute_standing p run

/-! ## Runs -/

/-- **Straight code is carried out**, and changes no bytes but those of a
set. -/
inductive Straight (rsqrt : Word → Word) (X : Nat → Prop) : Machine → List CodeEntry → Machine → Prop where
  | nil (m : Machine) : Straight rsqrt X m [] m
  | instruction {m m₁ m₂ : Machine} {i : Instruction Nat} {text : String} {es : List CodeEntry}
      (run : m.perform rsqrt i = .ok m₁) (within : ∀ k, ¬ X k → m₁.block.get k = m.block.get k)
      (rest : Straight rsqrt X m₁ es m₂) : Straight rsqrt X m (.instruction i text :: es) m₂
  | cdq {m m₂ : Machine} {es : List CodeEntry} (rest : Straight rsqrt X m.extendSign es m₂) :
      Straight rsqrt X m (.cdq :: es) m₂

namespace Straight

theorem append (h : Straight rsqrt X m es m₁) (h' : Straight rsqrt X m₁ es' m₂) :
    Straight rsqrt X m (es ++ es') m₂ := by
  induction h with
  | nil m => exact h'
  | instruction run within _ ih => exact .instruction run within (ih h')
  | cdq _ ih => exact .cdq (ih h')

/-- One instruction. -/
theorem single {i : Instruction Nat} (text : String) (run : m.perform rsqrt i = .ok m')
    (within : ∀ k, ¬ X k → m'.block.get k = m.block.get k) :
    Straight rsqrt X m [.instruction i text] m' := .instruction run within (.nil m')

end Straight

/-- A machine runs on where its next step leads. -/
theorem run_step (steps : Nat) (step : m.step rsqrt = .ok (.running m')) :
    m.run rsqrt (steps + 1) = m'.run rsqrt steps := by
  rw [run, step]

/-- **Straight code runs where it stands**, as many steps as it has entries,
if it does not write over itself. -/
theorem Straight.run (h : Straight rsqrt X m es m') {start : Nat} (readable : ∀ e ∈ es, e.Readable)
    (holds : m.block.Holds start (Assembly.linkedCode start es)) (reaching : Assembly.Reaching start es)
    (apart : ∀ k, X k → k < start ∨ start + Assembly.sizeOf es ≤ k) (steps : Nat) :
    (m.standing start).run rsqrt (es.length + steps) = (m'.standing (start + Assembly.sizeOf es)).run rsqrt steps := by
  induction h generalizing start with
  | nil m => simp
  | @instruction m m₁ m₂ i text es run within rest ih =>
    rw [Assembly.sizeOf_cons] at apart ⊢
    rw [Assembly.linkedCode, Block.holds_append, CodeEntry.length_linkedBytes] at holds
    obtain ⟨here, later⟩ := holds
    have size := (execute_frames run).size
    have encodable : i.Encodable = true := readable (.instruction i text) List.mem_cons_self
    have near := fun target => reaching.1 i text target rfl
    have step : (m.standing start).step rsqrt =
        .ok (.running (m₁.standing (start + (CodeEntry.instruction i text).size))) := by
      rw [step_instruction (m := m.standing start) rfl encodable here near, perform_standing start run]
      rfl
    rw [List.length_cons, Nat.add_right_comm, run_step _ step, ← Nat.add_assoc]
    refine ih (fun e he => readable e (List.mem_cons_of_mem _ he)) (later.of_same size ?_) reaching.2 ?_
    · intro k low high
      rw [Assembly.length_linkedCode] at high
      refine within k fun written => ?_
      have := apart k written
      omega
    · intro k written
      have := apart k written
      omega
  | @cdq m m₂ es rest ih =>
    rw [Assembly.sizeOf_cons] at apart ⊢
    rw [Assembly.linkedCode, Block.holds_append, CodeEntry.length_linkedBytes] at holds
    obtain ⟨here, later⟩ := holds
    have step : (m.standing start).step rsqrt = .ok (.running (m.extendSign.standing (start + CodeEntry.cdq.size))) :=
      step_cdq rfl here
    rw [List.length_cons, Nat.add_right_comm, run_step _ step, ← Nat.add_assoc]
    refine ih (fun e he => readable e (List.mem_cons_of_mem _ he)) later reaching.2 fun k written => ?_
    have := apart k written
    omega

end Shading.Machine
