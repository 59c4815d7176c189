import Shading.Proofs.Frames.Leases

/-!
# Emission that keeps to a permit

The instructions that a lowering emits write where they may: in registers that
it owns, and in places that it may write. So does an instruction behind a
jump. Constants that are pooled and temporaries that are placed change nothing
that stood before.
-/

namespace Shading

open LoweringState Permit Regime

namespace Lower

variable {P : Permit} {s₁ s t : LoweringState} {registers registers' : List Location} {held held' : List Lease}

/-! ## Emission -/

/-- An operand stands behind an address where its location does. -/
theorem direct_operandOf {l : Location} {p : Operand Nat} (reads : P.Reads l) (operand : operandOf l = .ok p) :
    P.addressed ∨ ∀ id, p ≠ .indirect id :=
  reads.imp id fun direct id eq => by
    cases l <;> cases operand <;> cases eq
    exact direct id rfl

/-- **What an instruction that computes into a register writes** is that
register. -/
theorem written_emits {o : Opcode} {c : RegisterClass} {id : Nat} {p : Operand Nat} (written : o.written? = some c)
    (owns : P.Owns held c id) (direct : P.addressed ∨ ∀ j, p ≠ .indirect j) (immediate : List UInt8) :
    P.Emits s₁ held ⟨o, id, p, immediate⟩ := by
  obtain ⟨unchanged, kept, other⟩ := Opcode.inPlace?_of_written? written
  refine ⟨fun d j writes => ?_, fun writes => ?_, direct⟩
  · rcases writes.cases other with ⟨same, rfl⟩ | ⟨inPlace, -⟩
    · obtain rfl := Option.some.inj (written.symm.trans same)
      exact owns
    · rw [unchanged] at inPlace
      cases inPlace
  · rw [kept] at writes
    cases writes

variable (s₁) in
theorem emit_emits {o : Opcode} {c : RegisterClass} {reg rm : Location} (written : o.written? = some c)
    (own : P.Own held c reg) (reads : P.Reads rm) (immediate : List UInt8) (s : LoweringState) :
    Results (emit o reg rm immediate) s fun _ t => ∃ id p text, reg = c.location id ∧ operandOf rm = .ok p ∧
      P.Emits s₁ held ⟨o, id, p, immediate⟩ ∧ t = wrote s ⟨o, id, p, immediate⟩ text := by
  obtain ⟨id, rfl, owns⟩ := own
  unfold emit
  rw [registerField_location]
  cases operand : operandOf rm with
  | error e => rintro _ _ ⟨⟩
  | ok p =>
    exact .intro rfl ⟨id, p, _, rfl, rfl, written_emits written owns (direct_operandOf reads operand) immediate, rfl⟩

/-- **An instruction that computes into a register.** -/
theorem emit_conducts (h : Conduct P s₁ s registers held) {o : Opcode} {c : RegisterClass} {reg rm : Location}
    (written : o.written? = some c) (own : P.Own held c reg) (reads : P.Reads rm) (immediate : List UInt8) :
    Results (emit o reg rm immediate) s fun _ t => Conduct P s₁ t registers held := by
  refine (emit_emits s₁ written own reads immediate s).mono ?_
  rintro _ _ ⟨id, p, text, -, -, emits, rfl⟩
  exact h.emits emits text

/-- **A comparison** writes flags alone. -/
theorem inspect_conducts (h : Conduct P s₁ s registers held) {o : Opcode} (reg rm : Location)
    (compares : o = .cmpLoad ∨ o = .comiss) (reads : P.Reads rm) :
    Results (emit o reg rm) s fun _ t => Conduct P s₁ t registers held := by
  unfold emit
  cases field : registerField reg with
  | error e => rintro _ _ ⟨⟩
  | ok id =>
    cases operand : operandOf rm with
    | error e => rintro _ _ ⟨⟩
    | ok p =>
      refine .intro rfl (h.emits (i := ⟨o, id, p, []⟩) ⟨fun d j writes => ?_, fun writes => ?_, ?_⟩ _)
      · rcases compares with rfl | rfl <;> cases d <;> exact writes.elim
      · rcases compares with rfl | rfl <;> cases writes
      · exact direct_operandOf reads operand

/-- A comparison with an operand in front writes flags alone. -/
theorem inspectStore_conducts (h : Conduct P s₁ s registers held) (rm reg : Location) (reads : P.Reads rm) :
    Results (emitStore .cmpStore rm reg) s fun _ t => Conduct P s₁ t registers held := by
  unfold emitStore
  cases field : registerField reg with
  | error e => rintro _ _ ⟨⟩
  | ok id =>
    cases operand : operandOf rm with
    | error e => rintro _ _ ⟨⟩
    | ok p =>
      refine .intro rfl (h.emits (i := ⟨.cmpStore, id, p, []⟩) ⟨fun d j writes => ?_, fun writes => ?_, ?_⟩ _)
      · cases d <;> exact writes.elim
      · cases writes
      · exact direct_operandOf reads operand

/-- **An instruction that writes its operand**, which is a place that may be
written. -/
theorem emits_operand (h : Conduct P s₁ s registers held) {i : Instruction Nat} {c : RegisterClass} {out : Location}
    (operand : operandOf out = .ok i.rm) (inPlace : i.opcode.inPlace? = some c)
    (admits : P.Admits s₁ held out c i.opcode.reach) (text : String) :
    Conduct P s₁ (wrote s i text) registers held := by
  have other : i.opcode ≠ .idiv := fun eq => by
    rw [eq] at inPlace
    cases inPlace
  have unwritten : i.opcode.written? = none := by
    cases o : i.opcode <;> rw [o] at inPlace <;> first | rfl | cases inPlace
  refine h.emits ⟨fun d j writes => ?_, fun _ memory => ?_, direct_operandOf admits.reads operand⟩ text
  · rcases writes.cases other with ⟨same, -⟩ | ⟨same, rm⟩
    · rw [unwritten] at same
      cases same
    · obtain rfl := Option.some.inj (inPlace.symm.trans same)
      have whole : out.isRegister = true := by
        rw [rm] at operand
        cases out <;> cases operand <;> rfl
      obtain ⟨id, rfl, owns⟩ := admits.register whole
      have eq : id = j := by
        rw [rm] at operand
        cases c <;> exact Operand.register.inj (Except.ok.inj operand)
      exact eq ▸ owns
  · have inMemory : out.isInMemory = true := by
      cases out with
      | register id => exact absurd (Except.ok.inj operand).symm (memory id)
      | simdRegister id => exact absurd (Except.ok.inj operand).symm (memory id)
      | none => cases operand
      | registerLane id shift => cases operand
      | _ => rfl
    obtain ⟨permitted, bounds⟩ := admits.memory inMemory
    exact ⟨out, operand, permitted, bounds⟩

/-- **A register is stored** in a place that may be written. -/
theorem emitStore_conducts (h : Conduct P s₁ s registers held) {o : Opcode} {c : RegisterClass} {n : Nat}
    {out : Location} (reg : Location) (stored : o.stored? = some (c, n)) (admits : P.Admits s₁ held out c (4 * n)) :
    Results (emitStore o out reg) s fun _ t => Conduct P s₁ t registers held := by
  obtain ⟨inPlace, reach⟩ : o.inPlace? = some c ∧ o.reach = 4 * n := by
    cases o <;> cases stored <;> exact ⟨rfl, rfl⟩
  unfold emitStore
  cases field : registerField reg with
  | error e => rintro _ _ ⟨⟩
  | ok id =>
    cases operand : operandOf out with
    | error e => rintro _ _ ⟨⟩
    | ok p =>
      have admits : P.Admits s₁ held out c o.reach := reach ▸ admits
      exact .intro rfl (emits_operand h (i := ⟨o, id, p, []⟩) operand inPlace admits _)

/-- **An instruction that changes its operand.** -/
theorem emitUnary_conducts (h : Conduct P s₁ s registers held) {o : Opcode} {c : RegisterClass} {out : Location}
    (inPlace : o.inPlace? = some c) (admits : P.Admits s₁ held out c o.reach) (immediate : List UInt8) : Results (emitUnary o out immediate) s fun _ t => Conduct P s₁ t registers held := by
  unfold emitUnary
  cases operand : operandOf out with
  | error e => rintro _ _ ⟨⟩
  | ok p => exact .intro rfl (emits_operand h (i := ⟨o, 0, p, immediate⟩) operand inPlace admits _)

/-! ## Jumps -/

/-- The distances of older jumps stay as they are. -/
theorem map_setDistance_old {a : Assembly} (sound : a.Sound) {l : Nat} (young : a.labels < l) (d : Int) :
    a.entries.map (Assembly.setDistance l d) = a.entries := by
  refine (List.map_congr_left fun e he => ?_).trans (List.map_id _)
  cases e with
  | jump f m e =>
    have : m ≠ l := fun same => Nat.not_lt.2 (sound.jumps _ he m rfl) (same ▸ young)
    simp [Assembly.setDistance, this]
  | _ => rfl

/-- The entries of a jump over an instruction, once its label is bound. -/
theorem entries_skipped {a : Assembly} (sound : a.Sound) (form : JumpForm) (i : Instruction Nat) (text : String) (d : Int) :
    ((a.jump form).2.emit i text).entries.map (Assembly.setDistance (a.jump form).1 d) ++ [.mark (a.jump form).1] =
      a.entries ++ [.jump form (a.jump form).1 d, .instruction i text, .mark (a.jump form).1] := by
  have old := map_setDistance_old sound (Assembly.leads_jump sound form).2.2 d
  simp only [Assembly.emit, Assembly.write, Assembly.jump, List.map_append, List.append_assoc] at old ⊢
  rw [old]
  simp only [List.map_cons, List.map_nil, Assembly.setDistance, if_true]
  rfl

/-- **A jump over an instruction has been written** between two states. -/
structure Skips (s t : LoweringState) (form : JumpForm) (i : Instruction Nat) : Prop where
  layout : t.layout = s.layout
  constants : t.constants = s.constants
  transcript : t.transcript = .emitted i s.layout :: s.transcript
  code : ∃ label text d, t.assembly.entries =
    s.assembly.entries ++ [.jump form label d, .instruction i text, .mark label]

/-- **A jump over an instruction** that computes into a register. -/
theorem skip_conducts (h : Conduct P s₁ s registers held) (form : JumpForm) {o : Opcode} {c : RegisterClass}
    {reg l : Location} (written : o.written? = some c) (own : P.Own held c reg) (reads : P.Reads l)
    {k : Lower Unit} {Q : Unit → LoweringState → Prop}
    (next : ∀ t id p, reg = c.location id → operandOf l = .ok p → Skips s t form ⟨o, id, p, []⟩ →
      Conduct P s₁ t registers held → Results k t Q) :
    Results (do
      let label ← emitJump form
      emit o reg l
      bindLabel label
      k) s Q := by
  obtain ⟨leads, isOpen, young⟩ := Assembly.leads_jump h.leads.ok.assembly form
  refine .bind (.intro rfl ⟨rfl, rfl⟩ : Results (emitJump form) s fun label t =>
    label = (s.assembly.jump form).1 ∧ t = { s with assembly := (s.assembly.jump form).2 }) ?_
  rintro _ _ ⟨rfl, rfl⟩
  have h₁ := h.leads.step (.ofAssembly h.leads.ok leads s.transcript)
  refine (emit_emits s₁ written own reads [] _).bind ?_
  rintro _ _ ⟨id, p, text, register, operand, emits, rfl⟩
  have h₂ := h₁.step (leads_wrote h₁.ok ⟨o, id, p, []⟩ text)
  obtain ⟨j, d, here, bind⟩ := Assembly.bind_eq h₂.ok.assembly
    (isOpen.leads h₁.ok.assembly (leads_wrote h₁.ok ⟨o, id, p, []⟩ text).assembly)
  have old : P.start.assembly.labels < (s.assembly.jump form).1 :=
    Nat.lt_of_le_of_lt h.leads.assembly.labels young
  refine Results.bind (Q := fun _ t => Skips s t form ⟨o, id, p, []⟩ ∧ Conduct P s₁ t registers held) ?_
    fun _ t both => next t id p register operand both.1 both.2
  unfold bindLabel
  refine .bindGet ?_
  rw [bind]
  split
  · next fits =>
    have code := entries_skipped h.leads.ok.assembly form ⟨o, id, p, []⟩ text
    refine .intro rfl ⟨⟨rfl, rfl, rfl, ⟨_, text, _, code _⟩⟩, ?_⟩
    have assembly := h₂.assembly.bind old P.ok.assembly
      (isOpen.leads h₁.ok.assembly (leads_wrote h₁.ok ⟨o, id, p, []⟩ text).assembly) here rfl fits
    exact h.skip emits rfl rfl rfl { h₂ with
      ok := ⟨h₂.ok.layout, assembly.sound, h₂.ok.agrees, h₂.ok.ascending, h₂.ok.pooled, h₂.ok.division⟩
      assembly := assembly } form (s.assembly.jump form).1 text ⟨_, code _⟩
  · next outside =>
    rintro _ _ ⟨⟩

/-! ## Storage -/

theorem constant_leased (c : Constant) : Results (constant c) s fun _ t => t.layout.leased = s.layout.leased := by
  unfold constant
  refine .bindGet ?_
  split
  · exact .pure rfl
  · have slot : Results (allocateGlobal c.size) s fun _ t => t.layout.leased = s.layout.leased := .intro rfl rfl
    refine slot.bind fun l t h => ?_
    exact .bind (.modify h : Results (modify _) t fun _ u => u.layout.leased = s.layout.leased) fun _ _ h => .pure h

/-- **A constant is pooled.** -/
theorem constant_conducts (h : Conduct P s₁ s registers held) (c : Constant) :
    Results (constant c) s fun l t => Conduct P s₁ t registers held ∧ ∃ o, l = .globalMemory o ∧
      (c, o) ∈ t.constants.slots ∧ ∀ rsqrt L m₀ m, P.Comes t rsqrt L m₀ m → P.Comes s rsqrt L m₀ m := by
  have ends := constant_ends (E := fun _ => True) (.refl h.leads.ok) c
  refine ((Results.ofEnds ends).and ((constant_rests c).and (constant_leased c))).mono ?_
  rintro l t ⟨⟨leads, place⟩, ⟨assembly, transcript⟩, order⟩
  have rest := h.rest leads order [] (by rw [transcript, List.nil_append]) rfl assembly
  rw [List.append_nil] at rest
  obtain ⟨o, at_, pooled⟩ := place
  exact ⟨rest, o, at_, pooled, fun rsqrt L m₀ m comes => h.back_rest leads transcript assembly comes⟩

theorem leased_place {l l' : Layout} {ty : Ty} {r : Region} {out : Location} (run : l.place ty r = .ok (out, l')) :
    l'.leased = l.leased := by
  unfold Layout.place at run
  split at run
  · cases run
  split at run
  · next taken =>
    obtain ⟨c, -, take⟩ := Option.bind_eq_some_iff.1 taken
    unfold Layout.takeRegister? at take
    split at take
    · cases take
    · cases take
      cases run
      cases c <;> rfl
  · cases r <;> cases run <;> rfl

/-- **A temporary is placed**, in a register that was free or in local memory
behind what is in use. -/
theorem place_conducts (h : Conduct P s₁ s registers held) (ty : Ty) :
    Results (place ty) s fun out t => Conduct P s₁ t (registers ++ out.own) held ∧ Places s t ty out :=
  fun out t run => by
  obtain ⟨storage, -, assembly, transcript⟩ := place_rests h.leads.ok ty out t run
  obtain ⟨leads, places⟩ := (place_ends (E := fun _ => True) (.refl h.leads.ok) storage).of_ok run
  have order : t.layout.leased = s.layout.leased := by
    rcases Layout.place_eq h.leads.ok.layout storage .local with ⟨c, id, l, placed, -⟩ | ⟨offset, l, placed, -⟩
    · rw [place_eq placed (by simp)] at run
      cases run
      exact leased_place placed
    · rw [place_eq placed rfl] at run
      cases run
      exact leased_place placed
  exact ⟨h.rest leads order [.placed _ ty out] transcript rfl assembly, places⟩

end Lower

end Shading
