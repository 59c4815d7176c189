import Shading.Proofs.Lowering.Masks

/-!
# What every step of a lowering respects

A lowering is made of few kinds of steps: storage is handed out and given
back, an entry is written, a label is bound, a constant joins the pool. A
relation between states that is a preorder and that each kind of step respects
holds between the state in which an action is run and the state that it ends
in, from every state (`Lower.Respects`).

Most actions pool nothing and read no mask: they respect every relation that
is `Plain`. A mask is looked up only to be read by an instruction soon after,
with plain steps between, so that it joins the pool is one step with that
instruction (`Masking`). Only a float that is written as a literal joins the
pool without being read at once.
-/

namespace Shading

/-- **An instruction has the mask it calls for**, if it is written now: its
operand is the place where just that mask is looked up. -/
def LoweringState.Masks (s : LoweringState) (i : Instruction Nat) : Prop :=
  ∃ lanes offset, maskBehind s.assembly.entries.getLast? i.opcode = some lanes ∧
    i.rm = .globalAt offset ∧ s.constants.offset? (.vector lanes) = some offset

namespace Lower

open Regime (passed)

/-! ## Closed relations -/

/-- **A relation between states that the steps respect** which pool nothing
and read no mask. -/
structure Plain (R : LoweringState → LoweringState → Prop) : Prop where
  refl (s : LoweringState) : R s s
  trans {s t u : LoweringState} : R s t → R t u → R s u
  /-- Steps that neither write code nor pool a constant, and give no variable a
  place. -/
  storage {s t : LoweringState} : t.assembly = s.assembly → t.constants = s.constants →
    t.declarations = s.declarations → R s t
  entry (s : LoweringState) {e : CodeEntry} (labels : Nat) :
    (∀ i, e.instruction? = some i → i.readsMask = false) → R s (passed s e labels)
  bind (s : LoweringState) {l : Nat} {a : Assembly} : s.assembly.bind l = .ok a →
    R s { s with assembly := a }

/-- A state comes from another one by plain steps. -/
def Plainly (s t : LoweringState) : Prop := ∀ R, Plain R → R s t

/-- **A relation that the steps respect which read a mask**: one that is
pooled, or one that joins the pool to be read, after plain steps. -/
structure Masking (R : LoweringState → LoweringState → Prop) : Prop extends Plain R where
  mask (s : LoweringState) {i : Instruction Nat} (text : String) : i.readsMask = true → s.Masks i →
    R s (passed s (.instruction i text) s.assembly.labels)
  first {s t : LoweringState} {lanes : Lanes} {i : Instruction Nat} (offset : Nat) (text : String) :
    s.constants.offset? (.vector lanes) = none →
    Plainly { s with constants := s.constants.add (.vector lanes) offset } t → i.readsMask = true →
    maskBehind t.assembly.entries.getLast? i.opcode = some lanes → i.rm = .globalAt offset →
    R s (passed t (.instruction i text) t.assembly.labels)

variable {R : LoweringState → LoweringState → Prop} {α β : Type} {s t : LoweringState}

/-- **An action respects a relation** from whatever state it is run. -/
def Respects (R : LoweringState → LoweringState → Prop) (x : Lower α) : Prop :=
  ∀ s, Results x s fun _ t => R s t

theorem plain_plainly : Plain Plainly where
  refl _ _ plain := plain.refl _
  trans h h' R plain := plain.trans (h R plain) (h' R plain)
  storage assembly constants declarations _ plain := plain.storage assembly constants declarations
  entry s _ labels reads _ plain := plain.entry s labels reads
  bind s _ _ run _ plain := plain.bind s run

/-- Plain steps leave the pool as it is. -/
theorem plain_constants : Plain fun s t => t.constants = s.constants where
  refl _ := rfl
  trans h h' := h'.trans h
  storage _ constants _ := constants
  entry _ _ _ _ := rfl
  bind _ _ _ _ := rfl

namespace Plain

variable (closed : Plain R)

include closed

theorem pure (a : α) : Respects R (Pure.pure a : Lower α) := fun s => .pure (closed.refl s)

theorem step {x : Lower α} {k : α → Lower β} (hx : Respects R x) (hk : ∀ a, Respects R (k a)) :
    Respects R (x >>= k) := fun s =>
  (hx s).bind fun a t h => (hk a t).mono fun _ _ h' => closed.trans h h'

/-- A run that goes on from a state that was led to. -/
theorem follow {t : LoweringState} {x : Lower α} (h : R s t) (hx : Respects R x) :
    Results x t fun _ u => R s u := (hx t).mono fun _ _ h' => closed.trans h h'

theorem get : Respects R (MonadState.get : Lower LoweringState) := fun s => .intro rfl (closed.refl s)

/-- What only looks at the state. -/
theorem ofGet {k : LoweringState → Lower α} (hk : ∀ s, Respects R (k s)) : Respects R (MonadState.get >>= k) :=
  closed.step closed.get hk

omit closed in
theorem fail (e : Error) : Respects R (Lower.fail e : Lower α) := fun _ _ _ run => nomatch run

theorem lift (x : Except Error α) : Respects R (liftM x : Lower α) := fun s => .ofEnds (E := fun _ => True) <| by
  cases x with
  | error e => exact .of_error rfl trivial
  | ok a => exact .intro rfl (closed.refl s)

omit closed in
theorem ite {p : Prop} [Decidable p] {x y : Lower α} (hx : Respects R x) (hy : Respects R y) :
    Respects R (if p then x else y) := by
  split
  · exact hx
  · exact hy

/-- An action is taken or not, and the next one follows. -/
theorem optional {p : Prop} [Decidable p] {x : Lower Unit} {k : Unit → Lower α} (hx : Respects R x)
    (hk : Respects R (k ())) : Respects R (if p then x >>= k else k ()) :=
  ite (closed.step hx fun _ => hk) hk

theorem forM {γ : Type} {action : γ → Lower Unit} (each : ∀ x, Respects R (action x)) :
    ∀ xs : List γ, Respects R (xs.forM action)
  | [] => closed.pure ()
  | x :: xs => closed.step (each x) fun _ => forM each xs

theorem forRows (rows : Nat) {action : Nat → Lower Unit} (each : ∀ row, Respects R (action row)) :
    Respects R (Lower.forRows rows action) := closed.forM each _

/-! ### Storage -/

/-- A change of the bookkeeping. -/
theorem keeping {f : LoweringState → LoweringState} (same : ∀ s, (f s).assembly = s.assembly ∧
    (f s).constants = s.constants ∧ (f s).declarations = s.declarations) : Respects R (modify f : Lower Unit) := fun s =>
  .modify (closed.storage (same s).1 (same s).2.1 (same s).2.2)

theorem record (e : LoweringEvent) : Respects R (Lower.record e) := closed.keeping fun _ => ⟨rfl, rfl, rfl⟩

theorem enterScope : Respects R Lower.enterScope :=
  closed.ofGet fun _ => closed.step (closed.keeping fun _ => ⟨rfl, rfl, rfl⟩) fun _ =>
    closed.step (closed.record _) fun _ => closed.pure _

theorem leaveScope (id : ScopeId) : Respects R (Lower.leaveScope id) := by
  refine closed.ofGet fun s => ?_
  split
  · exact closed.pure ()
  · exact closed.step (closed.keeping fun _ => ⟨rfl, rfl, rfl⟩) fun _ => closed.record _

theorem inScope {x : Lower α} (hx : Respects R x) : Respects R (Lower.inScope x) :=
  closed.step closed.enterScope fun _ => closed.step hx fun _ => closed.step (closed.leaveScope _) fun _ => closed.pure _

theorem place (ty : Ty) : Respects R (Lower.place ty) := by
  rw [place_def]
  refine closed.ofGet fun s => ?_
  have rest (id : ScopeId) (placed : Location × List TemporaryScope × Layout) : Respects R (do
      modify fun s => { s with scopes := placed.2.1, layout := placed.2.2 }
      Lower.record (.placed id ty placed.1)
      return placed.1 : Lower Location) :=
    closed.step (closed.keeping fun _ => ⟨rfl, rfl, rfl⟩) fun _ =>
      closed.step (closed.record _) fun _ => closed.pure _
  cases s.scopes with
  | nil => exact closed.step (closed.lift _) fun _ => closed.step (closed.pure _) (rest _)
  | cons scope scopes => exact closed.step (closed.lift _) fun _ => closed.step (closed.pure _) (rest _)

theorem placeInMemory (ty : Ty) : Respects R (Lower.placeInMemory ty) := by
  rw [placeInMemory_def]
  exact closed.ofGet fun _ => closed.step (closed.lift _) fun _ =>
    closed.step (closed.keeping fun _ => ⟨rfl, rfl, rfl⟩) fun _ =>
      closed.step (closed.record _) fun _ => closed.pure _

theorem allocateGlobal (size : Nat) : Respects R (Lower.allocateGlobal size) :=
  closed.ofGet fun _ => closed.step (closed.keeping fun _ => ⟨rfl, rfl, rfl⟩) fun _ => closed.pure _

theorem divisionSlots : Respects R Lower.divisionSlots := by
  refine closed.ofGet fun s => ?_
  cases s.divisionSlots with
  | some slots => exact closed.pure slots
  | none =>
    exact closed.step (closed.allocateGlobal 4) fun _ => closed.step (closed.allocateGlobal 4) fun _ =>
      closed.step (closed.allocateGlobal 4) fun _ =>
        closed.step (closed.keeping fun _ => ⟨rfl, rfl, rfl⟩) fun _ => closed.pure _

/-! ### Emission -/

theorem wrote {i : Instruction Nat} (plain : i.readsMask = false) (s : LoweringState) (text : String) :
    R s (Lower.wrote s i text) :=
  closed.trans (closed.entry s (e := .instruction i text) s.assembly.labels (by rintro j ⟨⟩; exact plain))
    (closed.storage rfl rfl rfl)

/-- An instruction that reads no mask is emitted. -/
theorem emitPlain {o : Opcode} {reg rm : Location} (immediate : List UInt8)
    (plain : ∀ p, operandOf rm = .ok p → o.isBitwise = false ∨ p.isInMemory = false) :
    Respects R (Lower.emit o reg rm immediate) := fun s => by
  refine (emit_results o reg rm immediate).mono ?_
  rintro _ _ ⟨id, p, text, -, operand, rfl⟩
  refine closed.wrote ?_ s text
  rcases plain p operand with other | register
  · exact Bool.and_eq_false_imp.2 fun bitwise => absurd bitwise (by simp [other])
  · simp [Instruction.readsMask, register]

theorem emit {o : Opcode} (reg rm : Location) (immediate : List UInt8) (plain : o.isBitwise = false) :
    Respects R (Lower.emit o reg rm immediate) := closed.emitPlain immediate fun _ _ => .inl plain

/-- An operand that is a register is no mask. -/
theorem emitRegister (o : Opcode) (reg : Location) {rm : Location} (register : rm.isRegister = true) :
    Respects R (Lower.emit o reg rm []) := closed.emitPlain [] fun p operand => .inr <| by
  cases rm <;> cases register <;> cases operand <;> rfl

/-- A register combined with itself. -/
theorem emitSame (o : Opcode) (reg : Location) : Respects R (Lower.emit o reg reg []) := by
  by_cases register : reg.isRegister = true
  · exact closed.emitRegister o reg register
  · intro s u t run
    obtain ⟨id, p, text, field, -⟩ := emit_results o reg reg [] _ _ run
    cases reg <;> first | exact absurd rfl register | cases field

theorem emitWith {i : Instruction Nat} (named : List Location) (plain : i.opcode.isBitwise = false) :
    Respects R (Lower.emitWith i named) :=
  closed.ofGet fun _ => closed.step (closed.record _) fun _ => fun s => .modify <|
    closed.entry s s.assembly.labels (by rintro j ⟨⟩; simp [Instruction.readsMask, plain])

theorem emitStore {o : Opcode} (rm reg : Location) (plain : o.isBitwise = false) :
    Respects R (Lower.emitStore o rm reg) :=
  closed.step (closed.lift _) fun _ => closed.step (closed.lift _) fun _ => closed.emitWith _ plain

theorem emitUnary {o : Opcode} (rm : Location) (immediate : List UInt8) (plain : o.isBitwise = false) :
    Respects R (Lower.emitUnary o rm immediate) :=
  closed.step (closed.lift _) fun _ => closed.emitWith _ plain

theorem emitJump (form : JumpForm) : Respects R (Lower.emitJump form) := fun s =>
  .intro rfl (closed.entry s (s.assembly.labels + 1) nofun)

theorem bindLabel (l : Nat) : Respects R (Lower.bindLabel l) := by
  intro s u t run
  unfold Lower.bindLabel at run
  obtain ⟨_, _, got, run⟩ := bind_eq_ok.1 run
  obtain ⟨same, same'⟩ := get_eq_ok.1 got
  rw [same, same'] at run
  cases bound : s.assembly.bind l with
  | error e =>
    rw [bound] at run
    cases run
  | ok a =>
    rw [bound] at run
    cases run
    exact closed.bind s bound

/-- A return is written, or the sign extension of a dividend. -/
theorem write {e : CodeEntry} (plain : e.instruction? = none) :
    Respects R (modifyAssembly fun a => a.write e) := fun s =>
  .modify (closed.entry s s.assembly.labels (by rw [plain]; rintro i ⟨⟩))

/-! ### Scratch registers -/

theorem acquire (c : RegisterClass) (avoid : List Location) : Respects R (Lower.acquire c avoid) := by
  refine closed.ofGet fun s => closed.step (closed.lift _) fun leased => ?_
  refine closed.step (closed.keeping fun _ => ⟨rfl, rfl, rfl⟩) fun _ => closed.step (closed.record _) fun _ => ?_
  cases leased.1.spill with
  | some slot => exact closed.step (closed.emitStore _ _ (isBitwise_store _)) fun _ => closed.pure _
  | none => exact closed.step (closed.pure ()) fun _ => closed.pure _

theorem release (x : Lease) : Respects R (Lower.release x) := by
  have ends : Respects R (do
      modify fun s => { s with layout := s.layout.release x }
      Lower.record (.released x)) :=
    closed.step (closed.keeping fun _ => ⟨rfl, rfl, rfl⟩) fun _ => closed.record _
  unfold Lower.release
  cases x.spill with
  | some slot => exact closed.step (closed.emit _ _ [] (isBitwise_load _)) fun _ => ends
  | none => exact ends

theorem releaseOption (x : Option Lease) : Respects R (Lower.releaseOption x) := by
  cases x with
  | none => exact closed.pure ()
  | some x => exact closed.release x

theorem finish (v : Value) : Respects R (Lower.finish v) := closed.releaseOption v.lease

theorem transfer (w : Width) (dest src : Location) : Respects R (Lower.transfer w dest src) := by
  refine ite (closed.pure ()) (ite (closed.emit _ _ [] (isBitwise_load w)) (ite ?_ ?_))
  · exact closed.emitStore _ _ (isBitwise_store w)
  · exact closed.step (closed.acquire _ _) fun _ => closed.step (closed.emit _ _ [] (isBitwise_load w)) fun _ =>
      closed.step (closed.emitStore _ _ (isBitwise_store w)) fun _ => closed.release _

theorem accumulator (out : Location) (c : RegisterClass) (avoid : List Location) :
    Respects R (Lower.accumulator out c avoid) :=
  ite (closed.pure _) (closed.step (closed.acquire _ _) fun _ => closed.pure _)

theorem settle (out acc : Location) (lease : Option Lease) (w : Width) :
    Respects R (Lower.settle out acc lease w) := by
  cases lease with
  | none => exact closed.pure ()
  | some x => exact closed.step (closed.transfer _ _ _) fun _ => closed.release x

theorem transferRows (rows : Nat) (dest src : Location) : Respects R (Lower.transferRows rows dest src) :=
  closed.forRows rows fun _ => closed.transfer _ _ _

theorem storeWhole (dest : Location) (ty : Ty) (v : Value) : Respects R (Lower.storeWhole dest ty v) := by
  unfold Lower.storeWhole
  split
  · exact closed.step (closed.accumulator _ _ _) fun _ => closed.step (closed.emit _ _ [] rfl) fun _ =>
      closed.settle _ _ _ _
  · exact closed.step (closed.accumulator _ _ _) fun _ => closed.step (closed.emit _ _ [] rfl) fun _ =>
      closed.settle _ _ _ _
  · exact ite (closed.transferRows _ _ _) (closed.transfer _ _ _)

theorem floatOperand (v : Value) (avoid : List Location) : Respects R (Lower.floatOperand v avoid) :=
  ite (closed.pure _) (closed.step (closed.acquire _ _) fun _ => closed.step (closed.emit _ _ [] rfl) fun _ =>
    closed.pure _)

end Plain

/-! ## Masks -/

/-- **A mask waits to be read** in a state that was led to: an instruction that
has it as its operand is the next step, after plain ones. -/
def Pending (R : LoweringState → LoweringState → Prop) (lanes : Lanes) (offset : Nat) (s t : LoweringState) : Prop :=
  ∀ u (i : Instruction Nat) text, Plainly t u → i.readsMask = true →
    maskBehind u.assembly.entries.getLast? i.opcode = some lanes → i.rm = .globalAt offset →
    R s (passed u (.instruction i text) u.assembly.labels)

/-- A mask waits on behind plain steps. -/
theorem Pending.behind {lanes : Lanes} {offset : Nat} {u : LoweringState} (h : Pending R lanes offset s t)
    (plainly : Plainly t u) : Pending R lanes offset s u := fun v i text further =>
  h v i text (plain_plainly.trans plainly further)

namespace Masking

variable (closed : Masking R)

include closed

/-- A mask that is pooled may be read at once. -/
theorem pending_known {lanes : Lanes} {offset : Nat} (known : s.constants.offset? (.vector lanes) = some offset) :
    Pending R lanes offset s s := fun u i text plainly reads calls place =>
  closed.trans (plainly R closed.toPlain)
    (closed.mask u text reads ⟨lanes, offset, calls, place, by rw [plainly _ plain_constants, known]⟩)

/-- **A mask that is looked up waits to be read**, and no code is written for
it. -/
theorem constant_pending (lanes : Lanes) : Results (Lower.constant (.vector lanes)) s fun l t =>
    ∃ offset, l = .globalMemory offset ∧ Pending R lanes offset s t ∧ t.assembly = s.assembly ∧
      t.constants.offset? (.vector lanes) = some offset := by
  intro l t run
  obtain ⟨offset, rfl, assembly, ⟨known, rfl⟩ | ⟨absent, layout, rfl⟩⟩ := constant_eq_ok run
  · exact ⟨offset, rfl, closed.pending_known known, assembly, known⟩
  · refine ⟨offset, rfl, fun u i text plainly reads calls place => ?_, assembly, ConstantPool.offset?_add_self s.constants (.vector lanes) offset⟩
    exact closed.trans (closed.storage (t := { s with layout }) rfl rfl rfl)
      (closed.first offset text absent plainly reads calls place)

/-- **An instruction that reads the mask it calls for.** -/
theorem emitMask {o : Opcode} {offset : Nat} {lanes : Lanes} (bitwise : o.isBitwise = true) (reg : Location)
    (calls : maskBehind t.assembly.entries.getLast? o = some lanes) (pending : Pending R lanes offset s t) :
    Results (Lower.emit o reg (.globalMemory offset)) t fun _ u => R s u ∧ EndsWith o u ∧ u.constants = t.constants := by
  refine (emit_results o reg _ []).mono ?_
  rintro _ _ ⟨id, p, text, -, ⟨⟩, rfl⟩
  have reads : (⟨o, id, .globalAt offset, []⟩ : Instruction Nat).readsMask = true := by
    simp [Instruction.readsMask, bitwise, Operand.isInMemory]
  exact ⟨closed.trans (pending t _ text (plain_plainly.refl t) reads calls rfl) (closed.storage rfl rfl rfl),
    endsWith_wrote t _ text, rfl⟩

/-- **An instruction with the mask that it calls for**, which is looked up in
front of it. -/
theorem emitPooled {o : Opcode} {lanes : Lanes} {k : Lower α} {Q : α → LoweringState → Prop}
    (bitwise : o.isBitwise = true) (reg : Location) (calls : maskBehind s.assembly.entries.getLast? o = some lanes)
    (next : ∀ t, R s t → EndsWith o t → Results k t Q) : Results (do
      Lower.emit o reg (← Lower.constant (.vector lanes))
      k) s Q := by
  refine (closed.constant_pending lanes).bind ?_
  rintro _ t ⟨offset, rfl, pending, assembly, -⟩
  refine (closed.emitMask bitwise reg (assembly ▸ calls) pending).bind ?_
  rintro _ u ⟨led, ends, -⟩
  exact next u led ends

/-! ### Lanes -/

/-- The lanes that are shifted up stand where the other mask is taken. -/
theorem clearLane (simd shift : Nat) (scratch : Location) {k : Lower Unit} (hk : Respects R k)
    (ends : EndsWith .andps s) : Results (do
      if 0 < shift then Lower.emitUnary .pslldq scratch [UInt8.ofNat shift]
      Lower.emit .andps (.simdRegister simd) (← Lower.constant (.vector (clearMask (shift / 4))))
      k) s fun _ t => R s t := by
  have clear {t : LoweringState} (h : R s t)
      (calls : maskBehind t.assembly.entries.getLast? .andps = some (clearMask (shift / 4))) : Results (do
        Lower.emit .andps (.simdRegister simd) (← Lower.constant (.vector (clearMask (shift / 4))))
        k) t fun _ u => R s u :=
    closed.emitPooled rfl _ calls fun _ led _ => closed.follow (closed.trans h led) hk
  refine .optional (Q := fun _ t => R s t ∧ maskBehind t.assembly.entries.getLast? .andps = some (clearMask (shift / 4)))
    ?_ fun t h => clear h.1 h.2
  split
  · intro u t run
    refine ⟨closed.emitUnary scratch [UInt8.ofNat shift] rfl s u t run, ?_⟩
    obtain ⟨p, text, -, rfl⟩ := emitUnary_results .pslldq scratch [UInt8.ofNat shift] _ _ run
    have last : (Lower.wrote s ⟨.pslldq, 0, p, [UInt8.ofNat shift]⟩ text).assembly.entries.getLast? =
        some (.instruction ⟨.pslldq, 0, p, [UInt8.ofNat shift]⟩ text) := List.getLast?_concat
    rw [maskBehind, last]
    exact congrArg some (clearMask_ofNat shift)
  · next zero =>
    refine .pure ⟨closed.refl s, maskBehind_of_endsWith ends ?_⟩
    rintro ⟨opcode, reg, rm, immediate⟩ rfl
    obtain rfl : shift = 0 := by omega
    rfl

theorem writeLane (simd shift : Nat) (v : Value) : Respects R (Lower.writeLane simd shift v) := by
  intro s
  unfold Lower.writeLane
  refine ((closed.acquire _ _ s).and (acquire_avoids _ _)).bind ?_
  rintro x t ⟨led, id, location, avoids⟩
  have apart := avoids v.location (by simp)
  rw [location]
  refine ((closed.storeWhole _ _ _ t).and (storeFloat_ends_plain apart)).bind ?_
  rintro _ u ⟨led', calls⟩
  refine closed.emitPooled rfl _ calls fun v led₂ ends => ?_
  have all := closed.trans led (closed.trans led' led₂)
  refine (closed.clearLane simd shift _ (closed.step (closed.emitRegister .orps _ rfl) fun _ => closed.release x) ends).mono ?_
  exact fun _ y h => closed.trans all h

theorem store (dest : Location) (ty : Ty) (v : Value) : Respects R (Lower.store dest ty v) := by
  cases dest with
  | registerLane simd shift => exact closed.writeLane simd shift v
  | _ => exact closed.storeWhole _ ty v

/-- The first lane is kept of what was loaded. -/
theorem keepFirst (acc : Location) {k : Lower Value} (hk : Respects R k)
    (calls : maskBehind s.assembly.entries.getLast? .andps = some lane0Mask) : Results (do
      Lower.emit .andps acc (← Lower.constant (.vector lane0Mask))
      k) s fun _ t => R s t :=
  closed.emitPooled rfl _ calls fun _ led _ => closed.follow led hk

theorem materialize (v : Value) : Respects R (Lower.materialize v) := by
  rw [Lower.materialize_def]
  split
  · next simd shift _ =>
    refine closed.step (closed.place _) fun out => closed.step (closed.accumulator _ _ _) fun r => ?_
    obtain ⟨acc, x⟩ := r
    intro s
    have rest : Respects R (do
        Lower.settle out acc x .single
        Lower.finish v
        return { location := out, ty := .float } : Lower Value) :=
      closed.step (closed.settle _ _ _ _) fun _ => closed.step (closed.finish v) fun _ => closed.pure _
    refine ((closed.emit acc _ [] rfl s).and (emit_results .movupsLoad acc _ [])).bind ?_
    rintro _ t ⟨led, id, p, text, -, -, rfl⟩
    have loaded := maskBehind_of_plain (endsWith_wrote s ⟨.movupsLoad, id, p, []⟩ text) nofun nofun nofun
    refine .optional (Q := fun _ u => R s u ∧ maskBehind u.assembly.entries.getLast? .andps = some lane0Mask)
      ?_ fun u h => (closed.keepFirst acc rest h.2).mono fun _ _ h' => closed.trans h.1 h'
    split
    · refine ((closed.emitUnary acc _ rfl _).and (emitUnary_results .psrldq acc _)).mono ?_
      rintro _ u ⟨led', p', text', -, rfl⟩
      exact ⟨closed.trans led led',
        maskBehind_of_plain (endsWith_wrote _ ⟨.psrldq, 0, p', _⟩ text') nofun nofun nofun⟩
    · exact .pure ⟨led, loaded⟩
  · exact closed.pure v

end Masking

end Lower

end Shading
