import Shading.Proofs.Lowering.FirstUse
import Shading.Proofs.Machine.Access

/-!
# What the code reads

Some operands are offered to an operation where they are in global memory, as
float literals are. Every operation then reads them there, by an instruction
that loads from that place: into the accumulator, as its other operand, or on
the way to where it is stored (`Lower.binary_reads`, `Lower.store_reads` and
so on). The order of the instructions is that of the operands.
-/

namespace Shading

/-- **Whether an opcode loads from its operand**, which it leaves as it is. An
address is computed without any access. -/
def Opcode.loadsOperand : Opcode → Bool
  | lea => false
  | o => !o.writesOperand

/-- The offset in global memory that an instruction loads from. -/
def Instruction.globalRead? (i : Instruction Nat) : Option Nat :=
  match i.rm with
  | .globalAt offset => if i.opcode.loadsOperand then some offset else none
  | _ => none

/-- **The offsets in global memory that some code loads from**, in order. -/
def globalReads (es : List CodeEntry) : List Nat :=
  es.filterMap fun e => e.instruction?.bind Instruction.globalRead?

theorem globalReads_append (es es' : List CodeEntry) : globalReads (es ++ es') = globalReads es ++ globalReads es' :=
  List.filterMap_append

/-- The places do not depend on distances. -/
theorem globalReads_map {f : CodeEntry → CodeEntry} (same : ∀ e, (f e).instruction? = e.instruction?) (es : List CodeEntry) :
    globalReads (es.map f) = globalReads es := by
  rw [globalReads, List.filterMap_map]
  exact congrArg (List.filterMap · es) (funext fun e => congrArg (Option.bind · _) (same e))

/-- **What there is to read at a location**: nothing, or what is at a place in
global memory. -/
def Location.Offers (l : Location) (os : List Nat) : Prop := os = [] ∨ ∃ offset, os = [offset] ∧ l = .globalMemory offset

/-- What there is to read of a value: nothing, or a float in global memory. -/
def Value.Offers (v : Value) (os : List Nat) : Prop :=
  os = [] ∨ ∃ offset, os = [offset] ∧ v.location = .globalMemory offset ∧ v.ty = .float

theorem Value.Offers.location {v : Value} {os : List Nat} (h : v.Offers os) : v.location.Offers os :=
  h.imp_right fun ⟨offset, eq, place, _⟩ => ⟨offset, eq, place⟩

/-- Only floats are offered. -/
theorem Value.Offers.eq_nil {v : Value} {os : List Nat} (h : v.Offers os) (other : v.ty ≠ .float) : os = [] := by
  rcases h with none | ⟨_, -, -, float⟩
  · exact none
  · exact absurd float other

/-- Nothing is to be read in a register. -/
theorem Location.Offers.eq_nil {l : Location} {os : List Nat} (h : l.Offers os) (register : l.isRegister = true) : os = [] := by
  rcases h with none | ⟨_, -, rfl⟩
  · exact none
  · cases register

namespace Lower

variable {α β : Type} {os os' : List Nat} {s t u : LoweringState}

/-- **The code that is written from one state to another reads some places** in
global memory, in order. -/
def Reads (os : List Nat) (s t : LoweringState) : Prop :=
  ∃ new, globalReads t.assembly.entries = globalReads s.assembly.entries ++ new ∧ os.Sublist new

theorem Reads.chain {w : List Nat} (h : Reads w s t) (h' : Reads os t u) : Reads (w ++ os) s u := by
  obtain ⟨new, eq, sub⟩ := h
  obtain ⟨new', eq', sub'⟩ := h'
  exact ⟨new ++ new', by rw [eq', eq, List.append_assoc], sub.append sub'⟩

/-- An entry behind the code. -/
theorem reads_passed (s : LoweringState) (e : CodeEntry) (labels : Nat) :
    Reads (globalReads [e]) s (Regime.passed s e labels) :=
  ⟨globalReads [e], globalReads_append _ _, List.Sublist.refl _⟩

/-- What is read may be left out. -/
theorem Reads.drop (h : Reads os s t) : Reads [] s t := by
  obtain ⟨new, eq, -⟩ := h
  exact ⟨new, eq, List.nil_sublist _⟩

theorem closed_reads : Closed (Reads []) :=
  .ofSteps
    { refl := fun _ => ⟨[], by simp, List.Sublist.refl _⟩
      trans := Reads.chain
      storage := fun assembly _ _ => ⟨[], by simp [assembly], List.Sublist.refl _⟩
      entry := fun s e labels _ => (reads_passed s e labels).drop
      bind := fun s l a run => by
        rcases Assembly.entries_of_bind run with rfl | ⟨d, entries⟩
        · exact ⟨[], by simp, List.Sublist.refl _⟩
        · refine ⟨[], ?_, List.Sublist.refl _⟩
          rw [show ({ s with assembly := a } : LoweringState).assembly.entries = _ from entries, globalReads_append,
            globalReads_map fun e => (Assembly.instruction?_setDistance l d e).1]
          rfl }
    (fun _ _ _ _ => ⟨[], by simp, List.Sublist.refl _⟩)
    fun s i text _ _ => (reads_passed s (.instruction i text) _).drop

/-! ## Sequences -/

theorem Reads.seq {x : Lower α} {k : α → Lower β} (hx : Respects (Reads os) x) (hk : ∀ a, Respects (Reads os') (k a)) :
    Respects (Reads (os ++ os')) (x >>= k) := fun s =>
  (hx s).bind fun a t h => (hk a t).mono fun _ _ h' => h.chain h'

/-- What comes first reads nothing that is asked for. -/
theorem Reads.before {x : Lower α} {k : α → Lower β} (hx : Respects (Reads []) x) (hk : ∀ a, Respects (Reads os) (k a)) :
    Respects (Reads os) (x >>= k) := Reads.seq hx hk

theorem Reads.behind {x : Lower α} {k : α → Lower β} (hx : Respects (Reads os) x) (hk : ∀ a, Respects (Reads []) (k a)) :
    Respects (Reads os) (x >>= k) := List.append_nil os ▸ Reads.seq hx hk

/-- What comes first gives something that the rest relies on. -/
theorem Reads.given {P : α → Prop} {x : Lower α} {k : α → Lower β} (quiet : Respects (Reads []) x)
    (gives : ∀ s, Results x s fun a _ => P a) (hk : ∀ a, P a → Respects (Reads os) (k a)) : Respects (Reads os) (x >>= k) :=
  fun s => ((quiet s).and (gives s)).bind fun a t h => (hk a h.2 t).mono fun _ _ h' => h.1.chain h'

/-! ## Emission -/

/-- **An instruction that is emitted** reads the place that it loads from. -/
theorem reads_wrote (s : LoweringState) (i : Instruction Nat) (text : String) :
    Reads i.globalRead?.toList s (wrote s i text) := by
  have entries : globalReads [.instruction i text] = i.globalRead?.toList := by
    cases read : i.globalRead? <;> simp [globalReads, CodeEntry.instruction?, read]
  obtain ⟨new, eq, sub⟩ := reads_passed s (.instruction i text) s.assembly.labels
  exact ⟨new, eq, entries ▸ sub⟩

/-- An operand that is offered is the one that is loaded from. -/
theorem offers_globalRead {o : Opcode} {l : Location} {id : Nat} {p : Operand Nat} {immediate : List UInt8}
    (loads : o.loadsOperand = true) (offers : l.Offers os) (operand : operandOf l = .ok p)
    (h : Reads (Instruction.globalRead? ⟨o, id, p, immediate⟩).toList s t) : Reads os s t := by
  rcases offers with rfl | ⟨offset, rfl, rfl⟩
  · exact h.drop
  · cases operand
    simpa [Instruction.globalRead?, loads] using h

theorem emit_reads {o : Opcode} {rm : Location} (loads : o.loadsOperand = true) (offers : rm.Offers os) (reg : Location)
    (immediate : List UInt8) : Respects (Reads os) (emit o reg rm immediate) := fun s => by
  refine (emit_results o reg rm immediate).mono ?_
  rintro _ _ ⟨id, p, text, -, operand, rfl⟩
  exact offers_globalRead loads offers operand (reads_wrote s ⟨o, id, p, immediate⟩ text)

theorem emitUnary_reads {o : Opcode} {rm : Location} (loads : o.loadsOperand = true) (offers : rm.Offers os)
    (immediate : List UInt8) : Respects (Reads os) (emitUnary o rm immediate) := fun s => by
  refine (emitUnary_results o rm immediate).mono ?_
  rintro _ _ ⟨p, text, operand, rfl⟩
  exact offers_globalRead loads offers operand (reads_wrote s ⟨o, 0, p, immediate⟩ text)

/-- Any instruction may come between. -/
theorem emit_quiet (o : Opcode) (reg rm : Location) (immediate : List UInt8) : Respects (Reads []) (emit o reg rm immediate) :=
  fun s => (emit_results o reg rm immediate).mono fun _ _ ⟨_, _, text, _, _, wrote⟩ => wrote ▸ (reads_wrote s _ text).drop

theorem constant_quiet (c : Constant) : Respects (Reads []) (constant c) := by
  intro s l t run
  obtain ⟨_, -, assembly, -⟩ := constant_eq_ok run
  exact ⟨[], by simp [assembly], List.Sublist.refl _⟩

theorem loadsOperand_load (w : Width) : w.load.loadsOperand = true := by cases w <;> rfl

/-! ## Moves -/

theorem acquire_register (c : RegisterClass) (avoid : List Location) (s : LoweringState) :
    Results (acquire c avoid) s fun x _ => x.location.isRegister = true := by
  refine (acquire_avoids c avoid).mono ?_
  rintro x _ ⟨id, location, -⟩
  rw [location, RegisterClass.isRegister_location]

theorem accumulator_register (out : Location) (c : RegisterClass) (avoid : List Location) (s : LoweringState) :
    Results (accumulator out c avoid) s fun r _ => r.1.isRegister = true := by
  unfold accumulator
  split
  · next register => exact .pure (Bool.and_eq_true_iff.1 register).1
  · exact (acquire_register c avoid s).bind fun x _ register => .pure register

/-- A register is no place in global memory. -/
theorem ne_of_register {l : Location} (register : l.isRegister = true) (offset : Nat) : l ≠ .globalMemory offset := by
  rintro rfl
  cases register

/-- A transfer to another place reads where it comes from. -/
theorem transfer_reads (w : Width) {dest src : Location} (offers : src.Offers os) (apart : os ≠ [] → dest ≠ src) :
    Respects (Reads os) (transfer w dest src) := by
  rcases id offers with rfl | ⟨offset, rfl, rfl⟩
  · exact closed_reads.transfer w dest src
  · unfold transfer
    rw [if_neg (apart (by simp))]
    have load (reg : Location) := emit_reads (loadsOperand_load w) offers reg []
    refine Plain.ite (load dest) ?_
    rw [if_neg (show ¬ (Location.globalMemory offset).isRegister = true from Bool.false_ne_true)]
    exact Reads.before (closed_reads.acquire _ _) fun x => Reads.behind (load x.location) fun _ =>
      closed_reads.step (closed_reads.emitStore _ _ (isBitwise_store w)) fun _ => closed_reads.release x

/-- A transfer to a register. -/
theorem load_reads (w : Width) {dest src : Location} (offers : src.Offers os) (register : dest.isRegister = true) :
    Respects (Reads os) (transfer w dest src) := by
  refine transfer_reads w offers fun some same => ?_
  rcases offers with none | ⟨offset, -, rfl⟩
  · exact some none
  · exact ne_of_register register offset same

variable {v l r : Value}

theorem storeWhole_reads {dest : Location} {ty : Ty} (offers : v.Offers os) (apart : os ≠ [] → dest ≠ v.location)
    (flat : os ≠ [] → ty.isMatrix = false) : Respects (Reads os) (storeWhole dest ty v) := by
  rcases id offers with rfl | ⟨offset, rfl, -, float⟩
  · exact closed_reads.storeWhole dest ty v
  · have flat := flat (by simp)
    unfold storeWhole
    rw [float]
    cases ty with
    | int =>
      exact Reads.before (closed_reads.accumulator _ _ _) fun r =>
        Reads.behind (emit_reads rfl offers.location r.1 []) fun _ => closed_reads.settle _ _ _ _
    | mat3x3 => cases flat
    | mat4x4 => cases flat
    | _ => exact transfer_reads _ offers.location apart

/-- A float is stored in a register. -/
theorem storeFloat_reads {dest : Location} (offers : v.Offers os) (register : dest.isRegister = true) :
    Respects (Reads os) (storeWhole dest .float v) := by
  refine storeWhole_reads offers (fun some same => ?_) fun _ => rfl
  rcases offers with none | ⟨offset, -, place, -⟩
  · exact some none
  · exact ne_of_register register offset (same.trans place)

/-- An instruction with a mask, which may have to be pooled first. -/
theorem emitMask_quiet (o : Opcode) (reg : Location) (lanes : Lanes) {k : Lower Unit} (hk : Respects (Reads []) k) :
    Respects (Reads []) (do
      emit o reg (← constant (.vector lanes))
      k) :=
  Reads.before (constant_quiet _) fun _ => Reads.before (emit_quiet _ _ _ _) fun _ => hk

/-- **A stored value is read**, where it is not yet in its place. -/
theorem store_reads {dest : Location} {ty : Ty} (offers : v.Offers os) (apart : os ≠ [] → dest ≠ v.location)
    (flat : os ≠ [] → ty.isMatrix = false) : Respects (Reads os) (store dest ty v) := by
  cases dest with
  | registerLane simd shift =>
    refine Reads.given (closed_reads.acquire _ _) (acquire_register _ _) fun x register => ?_
    refine Reads.behind (storeFloat_reads offers register) fun _ => emitMask_quiet _ _ _ ?_
    have rest : Respects (Reads []) (do
        emit .andps (.simdRegister simd) (← constant (.vector (clearMask (shift / 4))))
        emit .orps (.simdRegister simd) x.location
        release x) :=
      emitMask_quiet _ _ _ (Reads.before (emit_quiet _ _ _ _) fun _ => closed_reads.release x)
    exact Plain.ite (Reads.before (closed_reads.emitUnary _ _ rfl) fun _ => rest) rest
  | _ => exact storeWhole_reads offers apart flat

/-- An operand of a float instruction is offered where it is. -/
theorem floatOperand_offers (offers : v.Offers os) (avoid : List Location) (s : LoweringState) :
    Results (floatOperand v avoid) s fun p t => Reads [] s t ∧ p.1.Offers os := by
  rcases offers with rfl | ⟨offset, rfl, place, float⟩
  · exact (closed_reads.floatOperand v avoid s).mono fun _ _ h => ⟨h, .inl rfl⟩
  · unfold floatOperand
    rw [if_pos float]
    exact .pure ⟨closed_reads.refl s, .inr ⟨offset, rfl, place⟩⟩

/-- A float is taken as the operand of an instruction. -/
theorem operand_reads {o : Opcode} {acc : Location} {avoid : List Location} {k : Option Lease → Lower α} (loads : o.loadsOperand = true)
    (offers : r.Offers os) (hk : ∀ x, Respects (Reads []) (k x)) : Respects (Reads os) (do
      let (right, lease) ← floatOperand r avoid
      emit o acc right
      k lease) := fun s =>
  (floatOperand_offers offers avoid s).bind fun p t h => by
    have rest : Respects (Reads os) (do
        emit o acc p.1
        k p.2) := Reads.behind (emit_reads loads h.2 acc []) fun _ => hk p.2
    exact (rest t).mono fun _ _ h' => h.1.chain h'

/-! ## Operations -/

variable {out : Location} {ls rs : List Nat}

/-- A float is loaded, and another one is the operand of an instruction. -/
theorem floats_reads {o : Opcode} {avoid : List Location} (beside : Location → List Location) (loads : o.loadsOperand = true)
    (hl : l.Offers ls) (hr : r.Offers rs) : Respects (Reads (ls ++ rs)) (do
      let (acc, lease) ← accumulator out .simd avoid
      store acc .float l
      let (right, rightLease) ← floatOperand r (beside acc)
      emit o acc right
      releaseOption rightLease
      settle out acc lease .single) := by
  refine Reads.given (closed_reads.accumulator _ _ _) (accumulator_register _ _ _) fun x register => ?_
  have rest (lease : Option Lease) : Respects (Reads []) (do
      releaseOption lease
      settle out x.1 x.2 .single) :=
    closed_reads.step (closed_reads.releaseOption _) fun _ => closed_reads.settle _ _ _ _
  refine Reads.seq (store_reads hl (fun some same => ?_) fun _ => rfl) fun _ => operand_reads loads hr rest
  rcases hl with none | ⟨offset, -, place, -⟩
  · exact some none
  · exact ne_of_register register offset (same.trans place)

/-- Integers are computed with where they are, whatever they are. -/
theorem scalarInt_reads (op : BinaryOp) (hl : l.Offers ls) (hr : r.Offers rs) :
    Respects (Reads (ls ++ rs)) (scalarInt op out l r) := by
  have compute {o : Opcode} (loads : o.loadsOperand = true) : Respects (Reads (ls ++ rs)) (do
      let (acc, lease) ← accumulator out .general [out, l.location, r.location]
      transfer .dword acc l.location
      emit o acc r.location
      settle out acc lease .dword) :=
    Reads.given (closed_reads.accumulator _ _ _) (accumulator_register _ _ _) fun x register =>
      Reads.seq (load_reads .dword hl.location register) fun _ =>
        Reads.behind (emit_reads loads hr.location x.1 []) fun _ => closed_reads.settle _ _ _ _
  cases op with
  | add => exact compute (o := .add) rfl
  | subtract => exact compute (o := .sub) rfl
  | multiply => exact compute (o := .imul) rfl
  | divide =>
    refine Reads.before closed_reads.divisionSlots fun slots => ?_
    refine Reads.before (closed_reads.emitStore _ _ rfl) fun _ => Reads.before (closed_reads.emitStore _ _ rfl) fun _ => ?_
    have divide (divisor : Location) (offers : divisor.Offers rs) : Respects (Reads (ls ++ rs)) (do
        transfer .dword (.register 0) l.location
        modifyAssembly fun a => a.write .cdq
        emitUnary .idiv divisor
        if out.isRegister then
          emitStore .movStore slots.divisor (.register 0)
          emit .movLoad (.register 0) slots.eax
          emit .movLoad (.register 2) slots.edx
          emit .movLoad out slots.divisor
        else
          emitStore .movStore out (.register 0)
          emit .movLoad (.register 0) slots.eax
          emit .movLoad (.register 2) slots.edx) := by
      refine Reads.seq (load_reads .dword hl.location rfl) fun _ => Reads.before (closed_reads.write rfl) fun _ =>
        Reads.behind (emitUnary_reads rfl offers []) fun _ => Plain.ite ?_ ?_
      · exact Reads.before (closed_reads.emitStore _ _ rfl) fun _ => Reads.before (emit_quiet _ _ _ _) fun _ =>
          Reads.before (emit_quiet _ _ _ _) fun _ => emit_quiet _ _ _ _
      · exact Reads.before (closed_reads.emitStore _ _ rfl) fun _ => Reads.before (emit_quiet _ _ _ _) fun _ =>
          emit_quiet _ _ _ _
    by_cases register : r.location.isRegister = true
    · rw [if_pos register]
      exact Reads.before (closed_reads.emitStore _ _ rfl) fun _ => divide _ (.inl (hr.location.eq_nil register))
    · rw [if_neg register]
      exact divide _ hr.location

/-- **Both operands of an operation are read**, first the left one. -/
theorem binary_reads {w : List Nat} (op : BinaryOp) (ty : Ty) (hl : l.Offers w) (hr : r.Offers rs) :
    Respects (Reads (w ++ rs)) (binary op out ty l r) := by
  have none {v : Value} {os : List Nat} (offers : v.Offers os) (vector : v.ty.isVector = true) : os = [] :=
    offers.eq_nil (by rintro float; rw [float] at vector; cases vector)
  have noMatrix {v : Value} {os : List Nat} (offers : v.Offers os) (matrix : v.ty.isMatrix = true) : os = [] :=
    offers.eq_nil (by rintro float; rw [float] at matrix; cases matrix)
  unfold binary
  split
  · next kinds =>
    obtain rfl := noMatrix hl kinds.2.1
    obtain rfl := noMatrix hr kinds.2.2
    exact closed_reads.matrixProduct _ _ _
  split
  · next kinds =>
    obtain rfl := noMatrix hl kinds.2.1
    obtain rfl := none hr kinds.2.2
    exact closed_reads.matrixVector _ _ _
  split
  · next kinds =>
    obtain rfl := none hl kinds.1
    refine Reads.given (closed_reads.acquire _ _) (acquire_register _ _) fun x register => ?_
    refine Reads.behind (storeFloat_reads hr register) fun _ => Reads.before (emit_quiet _ _ _ _) fun _ => ?_
    exact Reads.before (closed_reads.accumulator _ _ _) fun _ => Reads.before (closed_reads.transfer _ _ _) fun _ =>
      Reads.before (emit_quiet _ _ _ _) fun _ => Reads.before (closed_reads.settle _ _ _ _) fun _ => closed_reads.release _
  split
  · next other vector =>
    obtain rfl := none hl vector
    obtain rfl := hr.eq_nil fun float => other ⟨vector, by rw [float]; rfl⟩
    exact closed_reads.packed _ _ _ _
  split
  · exact floats_reads (fun acc => [acc, out, l.location, r.location]) (by cases op <;> rfl) hl hr
  · exact scalarInt_reads op hl hr

/-- **What is negated is read.** -/
theorem negate_reads (offers : v.Offers os) : Respects (Reads os) (negate out v) := by
  rcases id offers with rfl | ⟨offset, rfl, place, float⟩
  · exact closed_reads.negate out v
  · unfold negate
    rw [if_neg (by rw [float]; decide), float, place]
    refine Reads.before (constant_quiet _) fun mask => ?_
    -- A float has one row.
    have row (dest : Location) : Respects (Reads [offset]) (do
        let (acc, lease) ← accumulator dest .simd [dest, .globalMemory offset]
        transfer .single acc (.globalMemory offset)
        emit .xorps acc mask
        settle dest acc lease .single) :=
      Reads.given (closed_reads.accumulator _ _ _) (accumulator_register _ _ _) fun x register =>
        Reads.behind (load_reads .single (.inr ⟨offset, rfl, rfl⟩) register) fun _ =>
          Reads.before (emit_quiet _ _ _ _) fun _ => closed_reads.settle _ _ _ _
    exact Reads.behind (row _) fun _ => closed_reads.pure ()

/-- What is inverted is read. -/
theorem invert_reads (offers : v.Offers os) : Respects (Reads os) (invert out v) :=
  Reads.given (closed_reads.accumulator _ _ _) (accumulator_register _ _ _) fun _ register =>
    Reads.behind (load_reads .dword offers.location register) fun _ =>
      Reads.before (closed_reads.emitUnary _ _ rfl) fun _ => closed_reads.settle _ _ _ _

/-! ## Intrinsic functions -/

theorem dotProduct_reads {acc a : Location} {b : Option Location} (register : acc.isRegister = true) (ha : a.Offers ls)
    (hb : (b.getD acc).Offers rs) : Respects (Reads (ls ++ rs)) (dotProduct acc a b) :=
  Reads.seq (load_reads .packed ha register) fun _ => Reads.behind (emit_reads rfl hb acc []) fun _ =>
    emitMask_quiet _ _ _ (Reads.before (emit_quiet _ _ _ _) fun _ => emit_quiet _ _ _ _)

/-- A bound of a float is read where the float is compared to it. -/
theorem takeBound_reads {acc bound : Location} {form : JumpForm} {k : Lower Unit} (offers : bound.Offers ls)
    (hk : Respects (Reads rs) k) : Respects (Reads (ls ++ rs)) (do
      emit .comiss acc bound
      let within ← emitJump form
      emit .movssLoad acc bound
      bindLabel within
      k) :=
  Reads.seq (emit_reads rfl offers acc []) fun _ => Reads.before (closed_reads.emitJump form) fun _ =>
    Reads.before (emit_quiet _ _ _ _) fun _ => Reads.before (closed_reads.bindLabel _) fun _ => hk

theorem clamp_reads {x lo hi : Value} {hs : List Nat} (hx : x.Offers os) (hlo : lo.Offers ls) (hhi : hi.Offers hs) :
    Respects (Reads (os ++ (ls ++ hs))) (clamp out x lo hi) := by
  refine Reads.given (closed_reads.accumulator _ _ _) (accumulator_register _ _ _) fun acc register => ?_
  refine Reads.seq (store_reads hx (fun some same => ?_) fun _ => rfl) fun _ => fun s => ?_
  · rcases hx with none | ⟨offset, -, place, -⟩
    · exact some none
    · exact ne_of_register register offset (same.trans place)
  refine (floatOperand_offers hlo _ s).bind fun low t h => ?_
  refine Results.mono ?_ fun _ _ h' => h.1.chain (w := []) h'
  refine (floatOperand_offers hhi _ t).bind fun high u h' => ?_
  refine Results.mono ?_ fun _ _ h'' => h'.1.chain (w := []) h''
  have rest : Respects (Reads []) (do
      releaseOption high.2
      releaseOption low.2
      settle out acc.1 acc.2 .single) :=
    Reads.before (closed_reads.releaseOption _) fun _ => Reads.before (closed_reads.releaseOption _) fun _ =>
      closed_reads.settle _ _ _ _
  exact takeBound_reads h.2 (List.append_nil hs ▸ takeBound_reads h'.2 rest) u

theorem larger_reads {a b : Value} (ha : a.Offers ls) (hb : b.Offers rs) : Respects (Reads (ls ++ rs)) (larger out a b) :=
  floats_reads (fun acc => [acc, out, a.location, b.location]) rfl ha hb

/-- **The arguments of an intrinsic function are read** in order, apart from
one that the function leaves alone. -/
theorem intrinsic_reads {name : String} {vs : List Value} {oss : List (List Nat)} (offers : List.Forall₂ Value.Offers vs oss)
    (solid : name ≠ "nop") : Respects (Reads oss.flatten) (intrinsic name out vs) := by
  unfold intrinsic
  split
  · rcases offers with - | ⟨hv, ⟨⟩⟩
    rw [List.flatten_singleton]
    refine Reads.given (closed_reads.acquire _ _) (acquire_register _ _) fun _ register =>
      Reads.before (closed_reads.acquire _ _) fun _ => Reads.behind (load_reads .packed hv.location register) fun _ => ?_
    exact Reads.before (closed_reads.dotProduct _ _ _) fun _ => Reads.before (emit_quiet _ _ _ _) fun _ =>
      Reads.before (emit_quiet _ _ _ _) fun _ => Reads.before (closed_reads.transfer _ _ _) fun _ =>
        Reads.before (closed_reads.release _) fun _ => closed_reads.release _
  · rcases offers with - | ⟨hv, ⟨⟩⟩
    refine Reads.given (closed_reads.acquire _ _) (acquire_register _ _) fun _ register => ?_
    exact Reads.behind (dotProduct_reads (b := none) register hv.location (.inl rfl)) fun _ =>
      Reads.before (emit_quiet _ _ _ _) fun _ => Reads.before (closed_reads.transfer _ _ _) fun _ => closed_reads.release _
  · rcases offers with - | ⟨ha, - | ⟨hb, ⟨⟩⟩⟩
    simp only [List.flatten_cons, List.flatten_nil, List.append_nil]
    refine Reads.given (closed_reads.acquire _ _) (acquire_register _ _) fun _ register => ?_
    exact Reads.behind (dotProduct_reads (b := some _) register ha.location hb.location) fun _ =>
      Reads.before (closed_reads.transfer _ _ _) fun _ => closed_reads.release _
  · rcases offers with - | ⟨ha, - | ⟨hb, ⟨⟩⟩⟩
    simp only [List.flatten_cons, List.flatten_nil, List.append_nil]
    exact larger_reads ha hb
  · rcases offers with - | ⟨hx, - | ⟨hlo, - | ⟨hhi, ⟨⟩⟩⟩⟩
    simp only [List.flatten_cons, List.flatten_nil, List.append_nil]
    exact clamp_reads hx hlo hhi
  · exact absurd rfl solid
  · exact Plain.fail _

/-! ## Comparisons -/

/-- **Both sides of a comparison are read**, first the left one. -/
theorem compare_reads (op : RelationalOp) (hl : l.Offers ls) (hr : r.Offers rs) :
    Respects (Reads (ls ++ rs)) (compare op l r) := by
  unfold compare
  split
  · exact Plain.fail _
  split
  · next kinds =>
    obtain ⟨left, right⟩ := Bool.and_eq_true_iff.1 kinds
    obtain rfl := hl.eq_nil (by rintro float; rw [float] at left; cases left)
    obtain rfl := hr.eq_nil (by rintro float; rw [float] at right; cases right)
    exact closed_reads.step (closed_reads.compareInts _ _) fun _ => closed_reads.pure _
  refine Reads.behind ?_ fun _ => closed_reads.pure _
  unfold compareFloats
  have rest (left : Location × Option Lease) : Respects (Reads rs) (do
      let (right, rightLease) ← floatOperand r [left.1, l.location, r.location]
      emit .comiss left.1 right
      releaseOption rightLease
      releaseOption left.2) := by
    have release (lease : Option Lease) : Respects (Reads []) (do
        releaseOption lease
        releaseOption left.2) :=
      closed_reads.step (closed_reads.releaseOption _) fun _ => closed_reads.releaseOption _
    exact operand_reads rfl hr release
  by_cases here : l.ty = .float ∧ l.location.isRegister = true
  · rw [if_pos here]
    obtain rfl := hl.location.eq_nil here.2
    exact Reads.before (closed_reads.pure _) rest
  · rw [if_neg here]
    refine Reads.given (closed_reads.acquire _ _) (acquire_register _ _) fun x register => ?_
    refine Reads.seq (store_reads hl (fun some same => ?_) fun _ => rfl) fun _ => Reads.before (closed_reads.pure _) rest
    rcases hl with none | ⟨offset, -, place, -⟩
    · exact some none
    · exact ne_of_register register offset (same.trans place)

end Lower

end Shading
