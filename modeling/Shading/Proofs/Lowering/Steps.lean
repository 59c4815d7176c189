import Shading.Proofs.Lowering.Course
import Shading.Proofs.Lowering.Agreement

/-!
# The steps of a lowering

One lemma for each step that changes the state: what it comes to from a
state in good order, as a course that starts at an earlier state `s₀`.
Emission, placement, pooled constants, division slots, leases and labels
are covered here; everything else that lowers is a sequence of these.
-/

namespace Shading

/-! ## Places -/

/-- A place that can be the operand of an instruction. -/
def Location.IsOperand : Location → Prop
  | .none | .registerLane _ _ => False
  | _ => True

theorem Location.isOperand_of_isRegister {l : Location} (h : l.isRegister = true) : l.IsOperand := by
  cases l <;> simp_all [isRegister, IsOperand]

@[simp] theorem Location.isOperand_offsetBy (l : Location) (bytes : Nat) :
    (l.offsetBy bytes).IsOperand ↔ l.IsOperand := by cases l <;> rfl

theorem Location.isOperand_simdRegister (id : Nat) : (Location.simdRegister id).IsOperand := trivial

@[simp] theorem RegisterClass.isRegister_location (c : RegisterClass) (id : Nat) :
    (c.location id).isRegister = true := by cases c <;> rfl

@[simp] theorem RegisterClass.isOperand_location (c : RegisterClass) (id : Nat) :
    (c.location id).IsOperand := by cases c <;> trivial

/-- Whether a location suits the values of a type, for its class and its
alignment. -/
def Location.Fits (ty : Ty) : Location → Prop
  | .none => False
  | .register id => RegisterClass.ofTy? ty = some .general ∧ id ∈ RegisterClass.general.pool
  | .simdRegister id => RegisterClass.ofTy? ty = some .simd ∧ id ∈ RegisterClass.simd.pool
  | .registerLane id shift => ty = .float ∧ id ∈ RegisterClass.simd.pool ∧ shift % 4 = 0 ∧ shift < 16
  | .globalMemory offset | .localMemory offset =>
    ty.size ≠ 0 ∧ offset % BumpAllocator.alignmentOf ty.size = 0
  | .indirectRegister id =>
    ty.size ≠ 0 ∧ ty.isMatrix = false ∧ id ∈ RegisterClass.general.pool

/-- The register of a whole register, as what a scope collects. -/
def Location.own (l : Location) : List Location := if l.isRegister then [l] else []

namespace LoweringState

/-- Whether a state keeps so many bytes at a location: nothing that is
taken from now on comes to stand there. -/
def Keeps (s : LoweringState) (size : Nat) : Location → Prop
  | .none => False
  | .register id => id ∉ s.layout.free .general
  | .simdRegister id | .registerLane id _ => id ∉ s.layout.free .simd
  | .globalMemory offset => offset + size ≤ s.globalTop ∧
    ∀ x, s.divisionSlots = some (.at x) → offset + size ≤ x ∨ x + 12 ≤ offset
  | .localMemory offset => offset + size ≤ s.localTop
  | .indirectRegister _ => True

/-- Whether a location is new to a state. -/
def Fresh (s : LoweringState) : Location → Prop
  | .register id => id ∈ s.layout.free .general
  | .simdRegister id => id ∈ s.layout.free .simd
  | .globalMemory offset => s.globalTop ≤ offset
  | .localMemory offset => s.localTop ≤ offset
  | _ => False

variable {s₀ s s' : LoweringState} {registers : List Location} {held : List Lease}

/-- **What is kept stays kept.** -/
theorem Leads.keeps (h : s.Leads s' registers held) {size : Nat} {l : Location}
    (kept : s.Keeps size l) : s'.Keeps size l := by
  cases l with
  | none => exact kept
  | register id => exact fun free => kept (h.layout.free_of_free free)
  | simdRegister id => exact fun free => kept (h.layout.free_of_free free)
  | registerLane id shift => exact fun free => kept (h.layout.free_of_free free)
  | indirectRegister id => trivial
  | localMemory offset => exact Nat.le_trans kept h.localTop_le
  | globalMemory offset =>
    refine ⟨Nat.le_trans kept.1 h.globalTop_le, fun x hx => ?_⟩
    rcases h.division with same | ⟨-, y, new, above⟩
    · exact kept.2 x (same ▸ hx)
    · rw [new] at hx
      simp only [Option.some.injEq, DivisionSlots.at, DivisionSlots.mk.injEq,
        Location.globalMemory.injEq] at hx
      have := kept.1
      omega

end LoweringState

open LoweringState

namespace Lower

variable {s₀ s : LoweringState} {registers : List Location} {held : List Lease}
  {E : Error → Prop}

/-! ## Emission -/

theorem registerField_of_isRegister {l : Location} (h : l.isRegister = true) :
    ∃ id, registerField l = .ok id := by
  cases l <;> simp_all [Location.isRegister, registerField]

theorem operandOf_of_isOperand {l : Location} (h : l.IsOperand) : ∃ o, operandOf l = .ok o := by
  cases l <;> simp_all [Location.IsOperand, operandOf]

/-- A state after an instruction has been written. -/
def wrote (s : LoweringState) (i : Instruction Nat) (text : String) : LoweringState :=
  { s with assembly := s.assembly.emit i text, transcript := .emitted i s.layout :: s.transcript }

theorem leads_wrote (ok : s.Ok) (i : Instruction Nat) (text : String) :
    s.Leads (wrote s i text) [] [] :=
  .ofAssembly ok (Assembly.leads_write ok.assembly ⟨rfl, rfl⟩) _

theorem emit_eq (o : Opcode) {r m : Location} {id : Nat} {p : Operand Nat}
    (field : registerField r = .ok id) (operand : operandOf m = .ok p)
    (immediate : List UInt8) :
    ∃ text, emit o r m immediate s = .ok (.unit, wrote s ⟨o, id, p, immediate⟩ text) := by
  unfold emit
  rw [field, operand]
  exact ⟨_, rfl⟩

theorem emitStore_eq (o : Opcode) {r m : Location} {id : Nat} {p : Operand Nat}
    (operand : operandOf m = .ok p) (field : registerField r = .ok id) :
    ∃ text, emitStore o m r s = .ok (.unit, wrote s ⟨o, id, p, []⟩ text) := by
  unfold emitStore
  rw [field, operand]
  exact ⟨_, rfl⟩

theorem emitUnary_eq (o : Opcode) {m : Location} {p : Operand Nat}
    (operand : operandOf m = .ok p) (immediate : List UInt8) :
    ∃ text, emitUnary o m immediate s = .ok (.unit, wrote s ⟨o, 0, p, immediate⟩ text) := by
  unfold emitUnary
  rw [operand]
  exact ⟨_, rfl⟩

theorem emit_ends (h : s₀.Leads s registers held) (o : Opcode) {reg rm : Location}
    (register : reg.isRegister = true) (operand : rm.IsOperand) (immediate : List UInt8) :
    Ends (emit o reg rm immediate) s (fun _ s' => s₀.Leads s' registers held) E := by
  obtain ⟨id, field⟩ := registerField_of_isRegister register
  obtain ⟨p, hp⟩ := operandOf_of_isOperand operand
  obtain ⟨text, run⟩ := emit_eq (s := s) o field hp immediate
  exact .intro run (h.step (leads_wrote h.ok _ text))

theorem emitStore_ends (h : s₀.Leads s registers held) (o : Opcode) {reg rm : Location}
    (operand : rm.IsOperand) (register : reg.isRegister = true) :
    Ends (emitStore o rm reg) s (fun _ s' => s₀.Leads s' registers held) E := by
  obtain ⟨id, field⟩ := registerField_of_isRegister register
  obtain ⟨p, hp⟩ := operandOf_of_isOperand operand
  obtain ⟨text, run⟩ := emitStore_eq (s := s) o hp field
  exact .intro run (h.step (leads_wrote h.ok _ text))

theorem emitUnary_ends (h : s₀.Leads s registers held) (o : Opcode) {rm : Location}
    (operand : rm.IsOperand) (immediate : List UInt8) :
    Ends (emitUnary o rm immediate) s (fun _ s' => s₀.Leads s' registers held) E := by
  obtain ⟨p, hp⟩ := operandOf_of_isOperand operand
  obtain ⟨text, run⟩ := emitUnary_eq (s := s) o hp immediate
  exact .intro run (h.step (leads_wrote h.ok _ text))

/-- Writing an entry that is neither a jump nor a mark. -/
theorem write_ends (h : s₀.Leads s registers held) {e : CodeEntry} (plain : e.isPlain) :
    Ends (modifyAssembly fun a => a.write e) s (fun _ s' => s₀.Leads s' registers held) E :=
  .intro rfl (h.step (.ofAssembly h.ok (Assembly.leads_write h.ok.assembly plain) _))

theorem emitJump_ends (h : s₀.Leads s registers held) (form : JumpForm) :
    Ends (emitJump form) s (fun l s' => s₀.Leads s' registers held ∧
      s'.assembly.Open form l ∧ s.assembly.labels < l) E := by
  obtain ⟨leads, isOpen, new⟩ := Assembly.leads_jump h.ok.assembly form
  exact .intro rfl ⟨h.step (.ofAssembly h.ok leads _), isOpen, new⟩

/-- **Binding a label** that is younger than the start of the course. Other
labels stay open. -/
theorem bindLabel_ends (h : s₀.Leads s registers held) (base : s₀.Ok) {form : JumpForm} {l : Nat}
    (isOpen : s.assembly.Open form l) (young : s₀.assembly.labels < l)
    (far : ∀ (i : Nat) d, s.assembly.entries[i]? = some (.jump form l d) →
      fitsSigned (8 * form.width)
        ((s.assembly.size : Int) - Assembly.startOf s.assembly.entries (i + 1)) = false →
      E (.layout (if form.width = 1 then
          .shortJump ((s.assembly.size : Int) - Assembly.startOf s.assembly.entries (i + 1))
        else .longJump ((s.assembly.size : Int) - Assembly.startOf s.assembly.entries (i + 1))))) :
    Ends (bindLabel l) s (fun _ s' => s₀.Leads s' registers held ∧
      ∀ form' l', l' ≠ l → s.assembly.Open form' l' → s'.assembly.Open form' l') E := by
  obtain ⟨i, d, hi, bind⟩ := Assembly.bind_eq h.ok.assembly isOpen
  unfold bindLabel
  refine .bindGet ?_
  rw [bind]
  split
  · next fits =>
    have assembly := h.assembly.bind young base.assembly isOpen hi rfl fits
    exact .intro rfl ⟨{ h with
        ok := ⟨h.ok.layout, assembly.sound, h.ok.agrees, h.ok.ascending, h.ok.pooled, h.ok.division⟩
        assembly := assembly },
      fun form' l' other isOpen' => isOpen'.bind other⟩
  · next outside =>
    exact .of_error rfl (far i d hi (by simpa using outside))

/-! ## Placement -/

/-- **What placing a temporary comes to**: a location for its type that is
new and is kept from then on. -/
structure Places (s s' : LoweringState) (ty : Ty) (out : Location) : Prop where
  fits : out.Fits ty
  fresh : s.Fresh out
  keeps : s'.Keeps ty.size out

theorem placeIn_eq {l l' : Layout} {scope : TemporaryScope} {ty : Ty} {out : Location}
    (placed : l.place ty .local = .ok (out, l'))
    (whole : out.registerOf?.isSome = out.isRegister) :
    l.placeIn scope ty =
      .ok (out, { scope with registers := scope.registers ++ out.own }, l') := by
  unfold Layout.placeIn
  simp only [placed, bind, Except.bind, whole, Location.own]
  split
  · rfl
  · simp [pure, Except.pure]

/-- A temporary goes where the layout places it, and its register to the
innermost scope. -/
theorem place_eq {ty : Ty} {out : Location} {l : Layout}
    (placed : s.layout.place ty .local = .ok (out, l))
    (whole : out.registerOf?.isSome = out.isRegister) :
    place ty s = .ok (out, { s with layout := l, scopes := addRegisters out.own s.scopes,
                                    transcript := .placed (s.scopes.length - 1) ty out :: s.transcript }) := by
  rw [place_def]
  simp only [bind, StateT.bind, get, getThe, MonadStateOf.get, StateT.get, pure, Except.pure,
    Except.bind]
  cases hs : s.scopes with
  | nil =>
    simp only [liftM, monadLift, MonadLift.monadLift, StateT.lift, placed, bind, Except.bind, pure,
      Except.pure, StateT.bind]
    rfl
  | cons scope scopes =>
    simp only [liftM, monadLift, MonadLift.monadLift, StateT.lift, placeIn_eq placed whole, bind,
      Except.bind, pure, Except.pure, StateT.bind]
    rfl

theorem place_ends (h : s₀.Leads s registers held) {ty : Ty} (storage : ty.size ≠ 0) :
    Ends (place ty) s (fun out s' => s₀.Leads s' (registers ++ out.own) held ∧
      Places s s' ty out) E := by
  rcases Layout.place_eq h.ok.layout storage .local with
    ⟨c, id, l, placed, ofTy, free, leads⟩ | ⟨offset, l, placed, above, stop, aligned, leads⟩
  · have own : (c.location id).own = [c.location id] := by
      rw [Location.own, if_pos (RegisterClass.isRegister_location c id)]
    have pool := h.ok.layout.pooled c id free
    have notFree := ((leads.free c id).1.mt fun h => h.2 (by simp))
    refine .intro (place_eq placed (by simp)) ⟨?_, ?_⟩
    · have := h.trans (.ofLayout h.ok leads (.placed (s.scopes.length - 1) ty (c.location id) :: s.transcript))
      simpa [own] using this
    · cases c <;> exact ⟨⟨ofTy, pool⟩, free, notFree⟩
  · refine .intro (place_eq placed rfl) ⟨?_, ⟨storage, aligned⟩, above, Nat.le_of_eq stop⟩
    have := h.trans (.ofLayout h.ok leads (.placed (s.scopes.length - 1) ty (.localMemory offset) :: s.transcript))
    simpa [Location.own, Layout.memoryAt, Location.isRegister] using this

theorem placeInMemory_ends (h : s₀.Leads s registers held) {ty : Ty} (storage : ty.size ≠ 0) :
    Ends (placeInMemory ty) s (fun out s' => s₀.Leads s' registers held ∧
      Places s s' ty out ∧ ∃ offset, out = .localMemory offset) E := by
  obtain ⟨offset, l, placed, above, stop, aligned, leads⟩ :=
    Layout.placeInMemory_eq h.ok.layout storage .local
  have run : placeInMemory ty s = .ok (.localMemory offset,
      { s with layout := l, transcript := .placed (s.scopes.length - 1) ty (.localMemory offset) :: s.transcript }) := by
    rw [placeInMemory_def]
    simp only [bind, StateT.bind, get, getThe, MonadStateOf.get, StateT.get, pure, Except.pure,
      Except.bind, liftM, monadLift, MonadLift.monadLift, StateT.lift, placed]
    rfl
  refine .intro run ⟨h.step ?_, ⟨⟨storage, aligned⟩, above, Nat.le_of_eq stop⟩, offset, rfl⟩
  simpa using Leads.ofLayout h.ok leads (.placed (s.scopes.length - 1) ty (.localMemory offset) :: s.transcript)

/-! ## Global memory -/

theorem usual_constantSize (c : Constant) : c.size = 4 ∨ 16 ≤ c.size := by
  cases c <;> simp [Constant.size]

/-- A constant joins the pool at a new slot. -/
theorem leads_addConstant (ok : s.Ok) {c : Constant} {offset : Nat} {l : Layout}
    (leads : s.layout.Leads l [] []) (above : s.globalTop ≤ offset)
    (stop : offset + c.size = l.globalRegion.top)
    (aligned : offset % BumpAllocator.alignmentOf c.size = 0) :
    s.Leads { s with layout := l, constants := s.constants.add c offset } [] [] where
  ok :=
    { layout := leads.ok
      assembly := ok.assembly
      agrees := ok.agrees.add c offset
      ascending := by
        rw [ConstantPool.slots_add]
        refine List.pairwise_append.2 ⟨ok.ascending, List.pairwise_singleton _ _, ?_⟩
        intro x hx y hy
        rw [List.mem_singleton] at hy
        rw [hy]
        exact Nat.le_trans (ok.pooled x hx).1 above
      pooled := fun x hx => by
        rcases List.mem_append.1 (ConstantPool.slots_add _ _ _ ▸ hx) with hx | hx
        · exact ⟨Nat.le_trans (ok.pooled x hx).1 leads.globalTop, (ok.pooled x hx).2⟩
        · rw [List.mem_singleton] at hx
          rw [hx]
          exact ⟨Nat.le_of_eq stop, aligned⟩
      division := fun d hd => by
        obtain ⟨x, eq, four, below, apart⟩ := ok.division d hd
        refine ⟨x, eq, four, Nat.le_trans below leads.globalTop, fun y hy => ?_⟩
        rcases List.mem_append.1 (ConstantPool.slots_add _ _ _ ▸ hy) with hy | hy
        · exact apart y hy
        · rw [List.mem_singleton] at hy
          rw [hy]
          exact .inr (Nat.le_trans below above) }
  stage := rfl
  placement := rfl
  declarations := rfl
  function := rfl
  assembly := .refl ok.assembly
  layout := leads
  scopes := (addRegisters_nil _).symm
  constants := ⟨[(c, offset)], ConstantPool.slots_add _ _ _, by simpa using above⟩
  division := .inl rfl

/-- Division slots are handed out once. -/
theorem leads_addDivision (ok : s.Ok) {x : Nat} {l : Layout} (leads : s.layout.Leads l [] [])
    (first : s.divisionSlots = none) (four : x % 4 = 0) (above : s.globalTop ≤ x)
    (stop : x + 12 = l.globalRegion.top) :
    s.Leads { s with layout := l, divisionSlots := some (.at x) } [] [] where
  ok :=
    { layout := leads.ok
      assembly := ok.assembly
      agrees := ok.agrees
      ascending := ok.ascending
      pooled := fun c hc => ⟨Nat.le_trans (ok.pooled c hc).1 leads.globalTop, (ok.pooled c hc).2⟩
      division := fun d hd => ⟨x, (Option.some.inj hd).symm, four, Nat.le_of_eq stop,
        fun c hc => .inl (Nat.le_trans (ok.pooled c hc).1 above)⟩ }
  stage := rfl
  placement := rfl
  declarations := rfl
  function := rfl
  assembly := .refl ok.assembly
  layout := leads
  scopes := (addRegisters_nil _).symm
  constants := ⟨[], by simp, by simp⟩
  division := .inr ⟨first, x, rfl, above⟩

/-- Reserving global memory gives a new slot. -/
theorem allocateGlobal_ends (ok : s.Ok) {size : Nat} (usual : size = 4 ∨ 16 ≤ size) :
    Ends (allocateGlobal size) s (fun l s' => ∃ offset layout, l = .globalMemory offset ∧
      s' = { s with layout } ∧ s.globalTop ≤ offset ∧ offset + size = layout.globalRegion.top ∧
      offset % BumpAllocator.alignmentOf size = 0 ∧ s.layout.Leads layout [] [] ∧
      (size = 4 → s.globalTop % 4 = 0 → offset = s.globalTop)) E := by
  obtain ⟨offset, place, above, stop, aligned, leads⟩ :=
    Layout.leads_allocate ok.layout .global usual
  have run : allocateGlobal size s = .ok ((s.layout.allocate .global size).1,
      { s with layout := (s.layout.allocate .global size).2 }) := rfl
  refine .intro run ⟨offset, _, place, rfl, above, stop, aligned, leads, ?_⟩
  rintro rfl four
  have next := s.layout.globalRegion.offset_eq_top four
  exact (Location.globalMemory.inj place).symm.trans next

/-- **A pooled constant** is at the place that the pool says. -/
theorem constant_ends (h : s₀.Leads s registers held) (c : Constant) :
    Ends (constant c) s (fun l s' => s₀.Leads s' registers held ∧
      ∃ offset, l = .globalMemory offset ∧ (c, offset) ∈ s'.constants.slots) E := by
  unfold constant
  refine .bindGet ?_
  split
  · next offset known => exact .pure ⟨h, offset, rfl, h.ok.agrees.mem known⟩
  · refine .bind (allocateGlobal_ends h.ok (usual_constantSize c)) ?_
    rintro _ _ ⟨offset, layout, rfl, rfl, above, stop, aligned, leads, -⟩
    refine .bind (.modify rfl : Ends (modify _) _ (fun _ t => t = _) E) ?_
    rintro _ _ rfl
    exact .pure ⟨h.step (leads_addConstant h.ok leads above stop aligned), offset, rfl, by simp [Location.globalOffset?]⟩

/-- The first division takes three words in a row. -/
theorem divisionSlots_ends (h : s₀.Leads s registers held) :
    Ends divisionSlots s (fun d s' => s₀.Leads s' registers held ∧
      s'.divisionSlots = some d ∧ ∃ x, d = .at x) E := by
  unfold divisionSlots
  refine .bindGet ?_
  split
  · next d known =>
    obtain ⟨x, eq, -⟩ := h.ok.division d known
    exact .pure ⟨h, known, x, eq⟩
  · next none =>
    have fits {t : LoweringState} {l : Layout} (ok : t.Ok) (leads : t.layout.Leads l [] []) :
        ({ t with layout := l } : LoweringState).Ok := by
      have := (Leads.ofLayout ok leads t.transcript).ok
      rwa [addRegisters_nil] at this
    refine .bind (allocateGlobal_ends h.ok (.inl rfl)) ?_
    rintro _ _ ⟨x, l₁, rfl, rfl, above, stop₁, four, leads₁, -⟩
    have ok₁ := fits h.ok leads₁
    refine .bind (allocateGlobal_ends ok₁ (.inl rfl)) ?_
    rintro _ _ ⟨y, l₂, rfl, rfl, -, stop₂, -, leads₂, next₂⟩
    have ok₂ := fits ok₁ leads₂
    refine .bind (allocateGlobal_ends ok₂ (.inl rfl)) ?_
    rintro _ _ ⟨z, l₃, rfl, rfl, -, stop₃, -, leads₃, next₃⟩
    have four : x % 4 = 0 := four
    have y_eq : y = x + 4 := by
      have := next₂ rfl (by change l₁.globalRegion.top % 4 = 0; omega)
      exact this.trans stop₁.symm
    have z_eq : z = x + 8 := by
      have := next₃ rfl (by change l₂.globalRegion.top % 4 = 0; omega)
      have := this.trans stop₂.symm
      omega
    subst y_eq z_eq
    refine .bind (.modify rfl : Ends (modify _) _ (fun _ t => t = _) E) ?_
    rintro _ _ rfl
    have leads := (leads₁.trans leads₂).trans leads₃
    exact .pure ⟨h.step (leads_addDivision h.ok leads none four above (by omega)), rfl, x, rfl⟩

/-! ## Scopes -/

theorem ok_opened (ok : s.Ok) : (opened s).Ok :=
  ⟨ok.layout, ok.assembly, ok.agrees, ok.ascending, ok.pooled, ok.division⟩

/-- Closing the scope that was opened last. -/
theorem leads_close {t : LoweringState} {rs : List Location} (ok : s.Ok)
    (h : (opened s).Leads t rs []) :
    Ends (leaveScope s.scopes.length) t (fun _ s' => s.Leads s' [] [] ∧ s'.assembly = t.assembly) E := by
  have scopes : t.scopes = ⟨s.layout.localRegion.top, rs⟩ :: s.scopes := by
    rw [h.scopes]
    rfl
  have closed := Layout.Leads.close ok.layout h.layout
  have globalRegion : (t.layout.closeScope ⟨s.layout.localRegion.top, rs⟩).globalRegion =
      t.layout.globalRegion := (Layout.foldl_giveBack_unchanged t.layout rs).2.2
  refine .intro (leaveScope_eq scopes) ⟨?_, rfl⟩
  exact
    { ok :=
        { layout := closed.ok
          assembly := h.ok.assembly
          agrees := h.ok.agrees
          ascending := h.ok.ascending
          pooled := fun c hc => by
            have := h.ok.pooled c hc
            rwa [globalTop, ← globalRegion] at this
          division := fun d hd => by
            have := h.ok.division d hd
            rwa [globalTop, ← globalRegion] at this }
      stage := h.stage
      placement := h.placement
      declarations := h.declarations
      function := h.function
      assembly := h.assembly
      layout := closed
      scopes := (addRegisters_nil _).symm
      constants := h.constants
      division := h.division }

/-- **An action in a scope of its own** leaves nothing behind. -/
theorem inScope_ends {α : Type} {action : Lower α} {P : α → Assembly → Prop}
    (h : s₀.Leads s registers held)
    (inner : Ends action (opened s) (fun a t =>
      (∃ rs, (opened s).Leads t rs []) ∧ P a t.assembly) E) :
    Ends (inScope action) s (fun a s' => s₀.Leads s' registers held ∧ P a s'.assembly) E := by
  unfold inScope withScope
  refine .bind (.intro (enterScope_eq s) ⟨rfl, rfl⟩ : Ends enterScope s (fun id t => id = s.scopes.length ∧ t = opened s) E) ?_
  rintro _ _ ⟨rfl, rfl⟩
  refine .bind inner ?_
  rintro a t ⟨⟨rs, leads⟩, post⟩
  refine .bind (leads_close h.ok leads) ?_
  rintro _ s' ⟨h', same⟩
  exact .pure ⟨h.step h', same ▸ post⟩

/-! ## Leases -/

/-- **A lease is granted when there is room.** -/
theorem acquire_ends (h : s₀.Leads s registers held) {c : RegisterClass} {avoid : List Location}
    (room : s.layout.Room c avoid ∨ E (.layout (.noRegister c))) :
    Ends (acquire c avoid) s (fun x s' => s₀.Leads s' registers (held ++ [x]) ∧
      ∃ id, s.layout.Grants s'.layout c avoid x id) E := by
  unfold acquire
  refine .bindGet ?_
  rcases Layout.lease_cases h.ok.layout c avoid with ⟨none, fails⟩ | ⟨x, l, id, leased, grants⟩
  · rw [fails]
    exact .of_error rfl (room.resolve_left none)
  · rw [leased]
    have h' := Leads.ofLayout h.ok grants.leads (.leased x avoid :: s.transcript)
    rw [addRegisters_nil] at h'
    have h'' := h.trans h'
    rw [List.append_nil] at h''
    have register : x.location.isRegister = true := by
      rw [grants.location]
      exact RegisterClass.isRegister_location c id
    refine .bind (.intro rfl ⟨rfl, rfl⟩ : Ends (liftM (Except.ok (x, l))) s
      (fun a t => a = (x, l) ∧ t = s) E) ?_
    rintro _ _ ⟨rfl, rfl⟩
    refine .bind (.modify rfl : Ends (modify _) _ (fun _ t => t = _) E) ?_
    rintro _ _ rfl
    refine .bind (.modify rfl : Ends (record _) _ (fun _ t => t = _) E) ?_
    rintro _ _ rfl
    dsimp only
    split
    · next slot spill =>
      obtain ⟨offset, rfl⟩ := grants.leads.saved x (List.mem_singleton_self x) slot spill
      obtain ⟨i, field⟩ := registerField_of_isRegister register
      have operand : operandOf (.globalMemory offset) = .ok (.globalAt offset) := rfl
      obtain ⟨text, run⟩ := emitStore_eq (s := _) (spillWidth c).store operand field
      refine .bind (.intro run rfl : Ends _ _ (fun _ t => t = _) E) ?_
      rintro _ _ rfl
      exact .pure ⟨h''.step (leads_wrote h''.ok _ _), id, grants⟩
    · exact .pure ⟨h'', id, grants⟩

/-- **A lease ends**, whichever of those under way it is. -/
theorem release_ends (h : s₀.Leads s registers held) {x : Lease} (hx : x ∈ held) :
    Ends (release x) s (fun _ s' => s₀.Leads s' registers (held.erase x)) E := by
  obtain ⟨c, id, -, whole, -⟩ := h.ok.layout.leased _ (h.layout.mem_leased hx)
  have register : x.location.isRegister = true := by
    rw [whole]
    exact RegisterClass.isRegister_location c id
  unfold release
  dsimp only
  split
  · next slot spill =>
    obtain ⟨offset, rfl⟩ := h.layout.saved x hx slot spill
    have operand : (Location.globalMemory offset).IsOperand := trivial
    refine .bind (emit_ends h _ register operand []) fun _ t h' => ?_
    exact .intro rfl (h'.release hx _)
  · exact .intro rfl (h.release hx _)

/-- The lease that was granted last ends. -/
theorem release_last_ends {x : Lease} (h : s₀.Leads s registers (held ++ [x])) :
    Ends (release x) s (fun _ s' => s₀.Leads s' registers held) E := by
  have last : (held ++ [x]).erase x = held := by
    have nodup := h.layout.nodup_held.of_map
    have new : x ∉ held := fun hx =>
      (List.nodup_append.1 nodup).2.2 x hx x (List.mem_singleton_self x) rfl
    rw [List.erase_append_right _ new, List.erase_cons_head, List.append_nil]
  have := release_ends (E := E) h (List.mem_append_right _ (List.mem_singleton_self x))
  rwa [last] at this

end Lower

end Shading
