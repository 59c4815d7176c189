import Shading.Proofs.Object.Passages

/-!
# Packed operands are aligned

All packed instructions but `movups` want their operands in memory at
multiples of sixteen, and fault otherwise. Slots of vectors and rows of
matrices are aligned in their regions, and an address register holds such a
multiple wherever a packed instruction reads through it. An address that is
saved and loaded again has lost its upper half. Then what is left is no
address of a block that stands above the lower 4 GiB, and writing through it
would leave the regions. So a run that writes nothing outside the regions
reads each packed operand at a multiple of sixteen
(`Program.packed_aligned`).
-/

namespace Shading

open LoweringState Regime Relation

/-! ## Accesses -/

/-- **The next instruction of a machine has its operand in memory**, at an
address. -/
def Machine.Operates (m : Machine) (i : Instruction Nat) (x : Nat) : Prop :=
  ∃ rest, Decoded.read? m.upcoming = some (.op i, rest) ∧
    m.address? (m.ip + (m.upcoming.length - rest.length)) i.rm = some x

/-- **So many bytes at an address lie in a region** of an object: in the global
region, or in the local one. -/
def Program.Inside (p : Program) (l : ObjectLayout) (base x count : Nat) : Prop :=
  (base ≤ x ∧ x + count ≤ base + p.globalSize) ∨
    (base + l.localOffset ≤ x ∧ x + count ≤ base + l.localOffset + l.localSize)

instance (p : Program) (l : ObjectLayout) (base x count : Nat) : Decidable (p.Inside l base x count) :=
  inferInstanceAs (Decidable (_ ∨ _))

/-- **A step that writes nothing outside the regions.** -/
structure Program.Advances (p : Program) (l : ObjectLayout) (rsqrt : Word → Word) (a b : Machine) : Prop where
  next : a.Next rsqrt b
  inside : ∀ i x, a.Operates i x → i.opcode.writesOperand = true → p.Inside l a.base x i.opcode.reach

namespace Machine

variable {m : Machine} {start k : Nat} {es : List CodeEntry} {e : CodeEntry} {i : Instruction Nat} {x : Nat}

/-- **What the next instruction operates on**, by the entry that the machine
stands at. -/
theorem At.operates (at_ : m.At start es k e) (readable : e.Readable) (reaching : Assembly.Reaching start es)
    (operates : m.Operates i x) :
    ∃ j text, e = .instruction j text ∧ i.opcode = j.opcode ∧ m.operandAddress? j = some x := by
  obtain ⟨rest, read, address⟩ := operates
  rcases Decoded.mark_or_decoded readable m.ip with ⟨l, mark⟩ | ⟨d, decoded⟩
  · exact absurd mark (at_.unmarked l)
  · have holds := at_.holds.entry at_.here
    rw [← at_.ip] at holds
    obtain ⟨rest', read', length⟩ := read_upcoming holds readable decoded
    rw [read] at read'
    cases read'
    obtain ⟨j, text, eq, rfl⟩ := CodeEntry.instruction_of_decoded? decoded
    refine ⟨j, text, eq, rfl, ?_⟩
    rw [length] at address
    refine (address?_linked fun target rm => ?_).symm.trans address
    rw [at_.ip]
    exact reaching.entry at_.here j text target eq rm

/-- The instruction of an entry is the next one. -/
theorem At.operates_instruction {text : String} (at_ : m.At start es k (.instruction i text))
    (readable : (CodeEntry.instruction i text).Readable) (reaching : Assembly.Reaching start es)
    (address : m.operandAddress? i = some x) :
    m.Operates (i.linked (displacement (m.ip + (CodeEntry.instruction i text).size))) x := by
  have holds := at_.holds.entry at_.here
  rw [← at_.ip] at holds
  obtain ⟨rest, read, length⟩ := read_upcoming holds readable rfl
  refine ⟨rest, read, ?_⟩
  rw [length]
  refine (address?_linked fun target rm => ?_).trans address
  rw [at_.ip]
  exact reaching.entry at_.here i text target rfl rm

/-- The operand of an instruction does not depend on where the machine
stands. -/
theorem isMisaligned_standing (m : Machine) (p : Nat) (i : Instruction Nat) :
    (m.standing p).isMisaligned i = m.isMisaligned i := by
  simp only [Machine.isMisaligned, Machine.operandAddress?, Machine.address?_standing]

end Machine

/-! ## The regime of a run -/

/-- **The regime of the runs of a program** in a block at an address: the runs
of a pair are the same, and write nothing outside the regions. -/
def Program.running (p : Program) (l : ObjectLayout) (rsqrt : Word → Word) (base size : Nat) : Regime where
  rsqrt
  base
  size
  globalSize := p.globalSize
  localOffset := l.localOffset
  localSize := l.localSize
  globals := slotsOf (homesOf p.globals)
  constants := p.constants.slots
  assigned := fun _ => True
  start := fun a b => a = b ∧ a.base = base ∧ a.block.size = size ∧
    (a.general64 localBaseRegister).toNat = base + l.localOffset
  permits := fun m i _ => !i.opcode.writesOperand ||
    (m.operandAddress? i).all fun x => decide (p.Inside l base x i.opcode.reach)

namespace Program

variable {p : Program} {s : Shader} {u : LoweringState} {floor : Nat} {base : Nat}

theorem Lowered.running_suits (h : p.Lowered s u) (floor : Nat) (body : List Statement) (rsqrt : Word → Word) (size : Nat)
    (aligned : base % 16 = 0) :
    (p.running (p.objectLayout floor) rsqrt base size).Suits (homesOf p.globals) body := by
  have suits := h.regime_suits floor body (fun _ => True) fun _ _ => trivial
  have identical : (p.running (p.objectLayout floor) rsqrt base size).Identical := fun _ _ start => start.1
  refine ⟨⟨aligned, suits.sound.localAligned, suits.sound.behind, suits.sound.global, suits.sound.apart,
    suits.sound.pooled, ?_, .inl identical⟩, identical, rfl, fun _ _ => trivial⟩
  rintro a b ⟨rfl, base, size, localBase⟩
  exact ⟨⟨base, size, localBase⟩, ⟨base, size, localBase⟩⟩

variable {l : ObjectLayout} {rsqrt : Word → Word} {size : Nat}

/-- What does not write may be carried out. -/
theorem running_permits_of_reads {m : Machine} {i : Instruction Nat} {c : Option Slot} (reads : i.opcode.writesOperand = false) :
    (p.running l rsqrt base size).permits m i c = true := by
  simp only [running, reads, Bool.not_false, Bool.true_or]

/-- What writes inside the regions may be carried out. -/
theorem running_permits {m : Machine} {i : Instruction Nat} {c : Option Slot}
    (inside : i.opcode.writesOperand = true → ∀ x, m.operandAddress? i = some x → p.Inside l base x i.opcode.reach) :
    (p.running l rsqrt base size).permits m i c = true := by
  cases writes : i.opcode.writesOperand with
  | false => exact running_permits_of_reads writes
  | true =>
    simp only [running, writes, Bool.not_true, Bool.false_or]
    cases address : m.operandAddress? i with
    | none => rfl
    | some x => exact decide_eq_true (inside writes x address)

end Program

/-! ## Runs and pairs -/

namespace Regime

variable {R : Regime} {v : LoweringState}

/-- The code of a state is that of its assembly. -/
theorem Fine.code_entries (fine : R.Fine v) : (R.code v).map Prod.fst = v.assembly.entries := by
  have count : (v.assembly.entries.filterMap CodeEntry.instruction?).length =
      (Transcript.containers R.globals v.transcript).length := by
    rw [fine.instructions, Transcript.length_containers]
  have entries : ∀ (es : List CodeEntry) (cs : List (Option Slot)),
      (es.filterMap CodeEntry.instruction?).length = cs.length → (withContainers es cs).map Prod.fst = es := by
    intro es
    induction es with
    | nil => exact fun _ _ => rfl
    | cons e es ih =>
      intro cs count
      cases e with
      | instruction i text =>
        cases cs with
        | nil => cases count
        | cons c cs =>
          rw [withContainers, List.map_cons, ih cs (Nat.succ.inj count)]
      | _ =>
        rw [List.filterMap_cons_none rfl] at count
        rw [withContainers.eq_def, List.map_cons, ih cs count]
  exact entries _ _ count

/-- A pair that parts on the way has parted at the end. -/
theorem not_parted_of_admitted (admitted : ¬ R.Reaches v .parted) {m : Machine} (start : R.start m m) {n : Nat} :
    Pair.run R (.running m m) ((R.code v).take n) ≠ .parted := by
  intro parted
  refine admitted ⟨m, m, start, ?_⟩
  have stays (es : List Indexed) : Pair.run R .parted es = .parted := by
    induction es with
    | nil => rfl
    | cons e es ih => exact ih
  rw [← List.take_append_drop n (R.code v), Pair.run_append, parted, stays]

/-- **A run has come to a machine** in front of an entry: the pair that started
with the code has come to the same, wherever it stands. -/
def Traces (R : Regime) (code : List Indexed) (n : Nat) (m : Machine) : Prop :=
  ∃ first now, R.start first first ∧ Pair.run R (.running first first) (code.take n) = .running now now ∧
    now.standing m.ip = m

namespace Traces

variable {n n' : Nat} {m m' : Machine} {e : CodeEntry}

/-- **A packed operand that a run comes to** is aligned. -/
theorem aligned (h : R.Traces (R.code v) n m) (fine : R.Fine v) (covers : R.Covers v) (high : 2 ^ 32 ≤ R.base)
    {i : Instruction Nat} {text : String} (here : v.assembly.entries[n]? = some (.instruction i text))
    (permits : ∀ now c, now.standing m.ip = m → R.permits now i c = true) : m.isMisaligned i = false := by
  obtain ⟨first, now, start, run, same⟩ := h
  rw [← fine.code_entries, List.getElem?_map] at here
  obtain ⟨⟨e, c⟩, there, eq⟩ := Option.map_eq_some_iff.1 here
  obtain rfl : e = .instruction i text := eq
  rw [← same, Machine.isMisaligned_standing, ← Bool.not_eq_true]
  intro misaligned
  refine not_parted_of_admitted (n := n + 1) (fine.admitted covers) start ?_
  rw [List.take_add_one, there, Option.toList_some, Pair.run_concat, run]
  simp only [Pair.step, Pair.perform, permits now c same, misaligned, if_true, Bool.and_true, decide_eq_true_eq, high]

/-- **A run keeps up with a machine** that moves on. -/
theorem moves (h : R.Traces (R.code v) n m) (fine : R.Fine v) (covers : R.Covers v) (high : 2 ^ 32 ≤ R.base)
    {passed : List CodeEntry} (later : n ≤ n') (here : v.assembly.entries[n]? = some e)
    (eq : v.assembly.entries.take n' = v.assembly.entries.take n ++ e :: passed) (effect : m.Effect R.rsqrt e m')
    (passes : e.PassesOver m.registers.flags passed)
    (permits : ∀ i text, e = .instruction i text → ∀ now c, now.standing m.ip = m → R.permits now i c = true)
    (p : Nat) : R.Traces (R.code v) n' (m'.standing p) := by
  have calm (i : Instruction Nat) (text : String) (instruction : e = .instruction i text) : m.isMisaligned i = false :=
    h.aligned fine covers high (instruction ▸ here) (permits i text instruction)
  obtain ⟨first, now, start, run, same⟩ := h
  -- What the code has more than before is what the machine passes.
  have split : (R.code v).take n' = (R.code v).take n ++ ((R.code v).take n').drop n := by
    have front : ((R.code v).take n').take n = (R.code v).take n := by rw [List.take_take, Nat.min_eq_left later]
    rw [← front, List.take_append_drop]
  have more : (((R.code v).take n').drop n).map Prod.fst = e :: passed := by
    have entries := congrArg (List.map Prod.fst) split
    rw [List.map_append, List.map_take, List.map_take, fine.code_entries, eq] at entries
    exact (List.append_cancel_left entries).symm
  obtain ⟨⟨e', c⟩, rest, cons, first', passed'⟩ := List.map_eq_cons_iff.1 more
  obtain rfl : e' = e := first'
  have registers : (now.standing m.ip).registers = m.registers := congrArg Machine.registers same
  have back : m.standing now.ip = now := by rw [← same, Machine.standing_standing, Machine.standing_ip]
  have effect' : now.Effect R.rsqrt e' (m'.standing now.ip) := back ▸ effect.standing now.ip
  refine ⟨first, m'.standing now.ip, start, ?_, rfl⟩
  rw [split, Pair.run_append, run, cons]
  refine Pair.run_effect effect' (fun i text instruction => ⟨permits i text instruction now c same, ?_⟩) ?_
  · rw [← back, Machine.isMisaligned_standing]
    exact calm i text instruction
  · rw [passed']
    exact registers.symm ▸ passes

end Traces

end Regime

/-! ## Runs of an object -/

/-- **The regime of a run is that of its program.** -/
theorem Program.Lowered.running_covers {p : Program} {s : Shader} {u : LoweringState} {floor : Nat}
    {base size : Nat} {f : CompiledFunction} {d : Declarations} {g : FunctionId} {body : List Statement}
    {s' v t : LoweringState} (h : p.Lowered s u) (rsqrt : Word → Word)
    (written : f.Written (homesOf p.globals) (stagesOf p.globals) d g body s' v t) (precedes : t.Precedes u)
    (small : (p.objectLayout floor).localOffset + (p.objectLayout floor).localSize ≤ 2 ^ 32)
    (room : (p.objectLayout floor).localOffset + (p.objectLayout floor).localSize ≤ size)
    (whole : base + size ≤ 2 ^ 63) : (p.running (p.objectLayout floor) rsqrt base size).Covers v where
  fits := ⟨room, small, whole⟩
  constants := fun c hc => by
    obtain ⟨added, eq, -⟩ := (written.coded.precedes.trans precedes).constants
    have mem : c ∈ p.constants.slots := by
      rw [h.constants, eq]
      exact List.mem_append_left _ hc
    exact mem
  later := h.constants_later (written.coded.precedes.trans precedes)
  globalSize := Nat.le_trans (written.coded.precedes.trans precedes).globalSize (Nat.le_of_eq h.globalSize.symm)
  localSize := Nat.le_trans (Nat.le_trans (written.coded.precedes.trans precedes).localSize (Nat.le_of_eq h.localSize.symm))
    (Program.Lowered.objectLayout_bounds p floor).2.2.2

/-- **How far a run of a function has come**: it has not entered the body yet,
or it is in the body, a pair of runs has kept up with it, and the code is in
its place. -/
inductive Program.Traced (p : Program) (l : ObjectLayout) (f : CompiledFunction) (entry : Nat) (R : Regime)
    (v : LoweringState) (m : Machine) : Prop
  | before (running : p.Running l f entry m) (early : m.ip < entry + 5)
  | body {k : Nat} {e : CodeEntry} (at_ : m.At (entry + 5) f.assembly.entries.tail k e) (stack : m.stack = [])
      (deployed : p.Deployed l f entry m.block) (traces : R.Traces (R.code v) (k + 1) m)

namespace Program.Traced

variable {p : Program} {s : Shader} {u : LoweringState} {floor : Nat} {rsqrt : Word → Word} {base size : Nat}
  {f : CompiledFunction} {d : Declarations} {g : FunctionId} {body : List Statement} {s' v t : LoweringState}
  {entry : Nat} {m m' : Machine}

/-- **A step that writes nothing outside the regions** leaves the code. -/
theorem code_stays (site : p.Site (p.objectLayout floor) f entry) {k : Nat} {e : CodeEntry}
    (at_ : m.At (entry + 5) f.assembly.entries.tail k e)
    (inside : ∀ i x, m.Operates i x → i.opcode.writesOperand = true →
      p.Inside (p.objectLayout floor) m.base x i.opcode.reach)
    (effect : m.Effect rsqrt e m') {n : Nat} (low : (p.objectLayout floor).trampolineOffset ≤ n)
    (high : n < (p.objectLayout floor).localOffset) : m'.block.get n = m.block.get n := by
  cases effect with
  | @instruction i text _ run =>
    refine (Machine.execute_frames run).bytes _ ?_
    rintro ⟨writes, x, address, from_, to_⟩
    have operates := at_.operates_instruction (site.body.readable _ (List.mem_of_getElem? at_.here)) site.reaching address
    have bounds := (Program.Lowered.objectLayout_bounds p floor).1
    have to_ : m.base + n < x + i.opcode.reach := to_
    rcases inside _ x operates writes with ⟨-, stop⟩ | ⟨start, -⟩
    · have stop : x + i.opcode.reach ≤ m.base + p.globalSize := stop
      omega
    · omega
  | cdq => rfl
  | jump => rfl

/-- **The body is entered** with a pair of runs that starts there. -/
theorem enter (lowered : p.Lowered s u)
    (written : f.Written (homesOf p.globals) (stagesOf p.globals) d g body s' v t) (aligned : base % 16 = 0)
    (site : p.Site (p.objectLayout floor) f entry) (running : p.Running (p.objectLayout floor) f entry m)
    (there : m.ip = entry + 5) (stands : m.base = base) (length : m.block.size = size) :
    p.Traced (p.objectLayout floor) f entry (p.running (p.objectLayout floor) rsqrt base size) v m := by
  obtain ⟨fine, -⟩ := written.coded.complete _ (lowered.running_suits floor body rsqrt size aligned)
  cases running.stage with
  | called ip stack =>
    rw [ip] at there
    omega
  | loading at_ stack loaded localBase =>
    have early := (at_.inside site.trampoline).2
    have behind := site.behind
    omega
  | @body k e at_ stack localBase loaded =>
    refine .body at_ stack running.deployed ⟨m, m, ⟨rfl, stands, length, stands ▸ localBase⟩, ?_, rfl⟩
    have start : Assembly.startOf f.assembly.entries.tail 0 = Assembly.startOf f.assembly.entries.tail k := by
      have ip := at_.ip
      have zero : Assembly.startOf f.assembly.entries.tail 0 = 0 := rfl
      omega
    -- In front of the first entry of the body that is read there are marks.
    generalize eq : ((p.running (p.objectLayout floor) rsqrt base size).code v).take (k + 1) = es
    have entries := congrArg (List.map Prod.fst) eq
    rw [List.map_take, fine.code_entries, written.entries_eq, List.take_succ_cons] at entries
    obtain ⟨⟨call, c⟩, marks, rfl, first, rest⟩ := List.map_eq_cons_iff.1 entries.symm
    obtain rfl : call = .call "trampoline" := first
    change Pair.run _ _ marks = _
    refine Pair.run_marks fun x hx => ?_
    have mem : x.1 ∈ f.assembly.entries.tail.take k := rest ▸ List.mem_map_of_mem hx
    obtain ⟨n, hn⟩ := List.getElem?_of_mem mem
    rw [List.getElem?_take] at hn
    split at hn
    · next below => exact Assembly.mark_of_startOf_eq site.body.readable start (Nat.zero_le n) below hn
    · cases hn

/-- **A step that writes nothing outside the regions** leads on. -/
theorem next (lowered : p.Lowered s u)
    (written : f.Written (homesOf p.globals) (stagesOf p.globals) d g body s' v t) (aligned : base % 16 = 0)
    (high : 2 ^ 32 ≤ base) (covers : (p.running (p.objectLayout floor) rsqrt base size).Covers v)
    (site : p.Site (p.objectLayout floor) f entry) (stands : m.base = base) (length : m.block.size = size)
    (h : p.Traced (p.objectLayout floor) f entry (p.running (p.objectLayout floor) rsqrt base size) v m)
    (advances : p.Advances (p.objectLayout floor) rsqrt m m') :
    p.Traced (p.objectLayout floor) f entry (p.running (p.objectLayout floor) rsqrt base size) v m' ∧
      m'.base = base ∧ m'.block.size = size := by
  obtain ⟨step, inside⟩ := advances
  have step : m.step rsqrt = .ok (.running m') := step
  -- In the trampoline a step leads on or to the entry of the function. In the body it
  -- neither fails nor is the return, for the machine goes on.
  cases h with
  | before running early =>
    obtain ⟨m₁, step', continues⟩ := running.step_before site early rsqrt
    rw [step] at step'
    cases step'
    have stands' : m'.base = base := continues.base.trans stands
    have length' : m'.block.size = size := continues.sealed.size.trans length
    refine ⟨?_, stands', length'⟩
    rcases Nat.lt_or_eq_of_le (continues.enters early) with early' | there
    · exact .before continues.running early'
    · exact enter lowered written aligned site continues.running there stands' length'
  | @body k e at_ stack deployed traces =>
    obtain ⟨fine, -⟩ := written.coded.complete _ (lowered.running_suits floor body rsqrt size aligned)
    have readable := site.body.readable _ (List.mem_of_getElem? at_.here)
    have steps : _ ∨ (∃ m₁ j, m.Moves rsqrt (entry + 5) f.assembly.entries.tail k e m₁ j) ∨ _ :=
      Machine.step_forward site.body site.reaching at_
    rcases steps with ⟨i, text, x, rfl, run, fails⟩ | ⟨m₁, j, moves⟩ | rfl
    · rw [step] at fails
      cases fails
    · obtain rfl := Machine.Progress.running.inj (Except.ok.inj (step.symm.trans moves.step))
      obtain ⟨base', size', frame⟩ := moves.effect.frames
      have deployed' := deployed.of_same site size' fun n low high => code_stays site at_ inside moves.effect low high
      obtain ⟨passed, eq, passes⟩ := moves.passes site.body site.reaching written.marksOnce at_
      obtain ⟨e', at'⟩ := moves.at deployed'.body
      refine ⟨.body at' (frame.trans stack) deployed' ?_, base'.trans stands, size'.trans length⟩
      refine traces.moves fine covers high (Nat.succ_le_succ (Nat.le_of_lt moves.later)) ?_ ?_
        moves.effect passes (fun i text instruction now c same => running_permits fun writes x address => ?_) _
      · rw [written.entries_eq, List.getElem?_cons_succ]
        exact at_.here
      · rw [written.entries_eq, List.take_succ_cons, List.take_succ_cons, eq, List.cons_append]
      · subst instruction
        have here : m.operandAddress? i = some x := by
          rw [← same]
          exact (Machine.address?_standing _).trans address
        have fits := inside _ x (at_.operates_instruction readable site.reaching here) writes
        exact stands ▸ fits
    · have holds := at_.holds.entry at_.here
      rw [← at_.ip] at holds
      rw [(Machine.step_ret holds).1 stack] at step
      cases step

/-- **A packed operand is aligned** wherever a run comes to it. -/
theorem operand_aligned (lowered : p.Lowered s u)
    (written : f.Written (homesOf p.globals) (stagesOf p.globals) d g body s' v t) (aligned : base % 16 = 0)
    (high : 2 ^ 32 ≤ base) (covers : (p.running (p.objectLayout floor) rsqrt base size).Covers v)
    (site : p.Site (p.objectLayout floor) f entry)
    (h : p.Traced (p.objectLayout floor) f entry (p.running (p.objectLayout floor) rsqrt base size) v m)
    {i : Instruction Nat} {x : Nat} (operates : m.Operates i x) (packed : i.opcode.isAligned = true) : x % 16 = 0 := by
  obtain ⟨rest, read, address⟩ := operates
  cases h with
  | before running early =>
    cases running.stage with
    | called ip stack =>
      obtain ⟨rest', read', -⟩ := Machine.read_call (ip.symm ▸ running.deployed.call)
      rw [read] at read'
      cases read'
    | loading at_ stack loaded localBase =>
      obtain ⟨j, text, rfl, opcode, -⟩ := at_.operates
        (site.trampoline.readable _ (List.mem_of_getElem? at_.here)) site.loads ⟨rest, read, address⟩
      rw [opcode] at packed
      cases trampolineEntry_of_getElem? (fun g hg => (site.staged g hg).1) at_.here with
      | load known code =>
        obtain ⟨c, id, text, -, -, code', -⟩ := (site.staged _ (List.mem_of_getElem? known)).1.entry
        cases code.symm.trans code'
        cases c <;> cases packed
      | localBase => cases packed
    | body at_ stack localBase loaded => exact absurd (at_.inside site.body).1 (Nat.not_le.2 early)
  | @body k e at_ stack deployed traces =>
    obtain ⟨fine, -⟩ := written.coded.complete _ (lowered.running_suits floor body rsqrt size aligned)
    obtain ⟨j, text, rfl, opcode, there⟩ := at_.operates (site.body.readable _ (List.mem_of_getElem? at_.here))
      site.reaching ⟨rest, read, address⟩
    rw [opcode] at packed
    -- A packed instruction with an operand in memory writes a register only.
    have reads : j.opcode.writesOperand = false := by
      revert packed
      cases j.opcode <;> simp [Opcode.isAligned, Opcode.writesOperand]
    have here : v.assembly.entries[k + 1]? = some (.instruction j text) := by
      rw [written.entries_eq, List.getElem?_cons_succ]
      exact at_.here
    have calm := traces.aligned fine covers high here fun _ _ _ => running_permits_of_reads reads
    simpa [Machine.isMisaligned, packed, there] using calm

end Program.Traced

/-- **Where the system maps a block**: at a multiple of sixteen, above the lower
4 GiB of the address space, and in its lower half. -/
structure Host.Maps (h : Host) (b : Block) : Prop where
  aligned : h.base % 16 = 0
  high : 2 ^ 32 ≤ h.base
  whole : h.base + b.size ≤ 2 ^ 63

/-- **Packed operands in memory are aligned**: wherever a run of the entry point
comes to a packed instruction other than `movups`, the address of its operand
is a multiple of sixteen, whatever the globals and the registers held at the
start and whatever indices came up, as long as the run has written nothing
outside the regions. Offsets in the object have 32 bits. -/
theorem Program.packed_aligned {o : Options} {source : String} {p : Program} (compiled : compile o source = .ok p)
    {floor : Nat} {object : Object} (build : Object.build p floor = .ok object)
    (small : (p.objectLayout floor).localOffset + (p.objectLayout floor).localSize ≤ 2 ^ 32) {entry : Nat}
    (found : object.entry? = some entry) (h : Host) (b : Block) (carries : object.Carries p (p.objectLayout floor) b)
    (maps : h.Maps b) {m : Machine}
    (reaches : ReflTransGen (p.Advances (p.objectLayout floor) h.rsqrt)
      (Object.machine { object with block := b } h entry) m) :
    ∀ i x, m.Operates i x → i.opcode.isAligned = true → x % 16 = 0 := by
  obtain ⟨aligned, high, whole⟩ := maps
  obtain ⟨shader, u, -, lowered⟩ := lowered_of_compile compiled
  have short := Lowered.short_of_build floor small
  obtain ⟨built, -⟩ := lowered.built_of_build build short
  obtain ⟨f, entry', mem, -, -, found'⟩ :=
    built.exists_entry (p.objectLayout_ordered floor).2.2 (Object.main_of_build build)
  obtain rfl : entry = entry' := Option.some.inj (found.symm.trans found')
  obtain ⟨g, w, body, s, v, t, -, -, written, precedes⟩ := lowered.functions f (List.of_mem_zip mem).1
  have site := lowered.site build small mem
  have deployed := (built.deployed lowered short mem).of_same site carries.size carries.code
  have covers := lowered.running_covers h.rsqrt written precedes small deployed.room whole
  have start : p.Running (p.objectLayout floor) f entry (Object.machine { object with block := b } h entry) :=
    Running.start (o := { object with block := b }) deployed whole
  -- The induction is on the steps of the run.
  have traced : p.Traced (p.objectLayout floor) f entry (p.running (p.objectLayout floor) h.rsqrt h.base b.size) v m ∧
      m.base = h.base ∧ m.block.size = b.size := by
    induction reaches with
    | refl => exact ⟨.before start (Nat.lt_add_of_pos_right (by decide)), rfl, rfl⟩
    | tail _ last ih =>
      obtain ⟨before, stands, length⟩ := ih
      exact before.next lowered written aligned high covers site stands length last
  intro i x operates packed
  exact traced.1.operand_aligned lowered written aligned high covers site operates packed

/-! ## Running step by step -/

/-- The next instruction of a machine and where its operand in memory is. -/
def Machine.operation? (m : Machine) : Option (Instruction Nat × Nat) :=
  match Decoded.read? m.upcoming with
  | some (.op i, rest) => (m.address? (m.ip + (m.upcoming.length - rest.length)) i.rm).map fun x => (i, x)
  | _ => none

theorem Machine.operation?_eq_some {m : Machine} {i : Instruction Nat} {x : Nat} :
    m.operation? = some (i, x) ↔ m.Operates i x := by
  unfold Machine.operation? Machine.Operates
  constructor
  · intro operation
    split at operation
    · next j rest read =>
      obtain ⟨y, address, eq⟩ := Option.map_eq_some_iff.1 operation
      cases eq
      exact ⟨rest, read, address⟩
    · cases operation
  · rintro ⟨rest, read, address⟩
    simp only [read, address, Option.map_some]

namespace Program

/-- So many steps that write nothing outside the regions. -/
def advance (p : Program) (l : ObjectLayout) (rsqrt : Word → Word) : Nat → Machine → Option Machine
  | 0, m => some m
  | n + 1, m =>
    if m.operation?.all fun o => !o.1.opcode.writesOperand || decide (p.Inside l m.base o.2 o.1.opcode.reach) then
      match m.step rsqrt with
      | .ok (.running m') => p.advance l rsqrt n m'
      | _ => none
    else none

theorem reaches_of_advance {p : Program} {l : ObjectLayout} {rsqrt : Word → Word} :
    ∀ {n : Nat} {m m' : Machine}, p.advance l rsqrt n m = some m' → ReflTransGen (p.Advances l rsqrt) m m'
  | 0, _, _, same => by
    cases same
    exact .refl
  | n + 1, m, m', steps => by
    unfold advance at steps
    split at steps
    · next inside =>
      split at steps
      · next m₁ step =>
        refine .head ⟨step, fun i x operates writes => ?_⟩ (reaches_of_advance steps)
        simpa [Machine.operation?_eq_some.2 operates, writes] using inside
      · cases steps
    · cases steps

/-- A vector is added to itself where it is in memory. -/
def sumSource : String := "vec4 u; export void main() \x7b u + u; \x7d"

set_option maxRecDepth 100000 in
theorem packed_aligned_sumSource : ∃ p object entry m i x, compile {} sumSource = .ok p ∧
    Object.build p 0 = .ok object ∧ object.entry? = some entry ∧
    ReflTransGen (p.Advances (p.objectLayout 0) Binary32.rsqrt) (object.machine {} entry) m ∧
    m.Operates i x ∧ i.opcode = .addps ∧ x % 16 = 0 := by
  have run : (compile {} sumSource).toOption.any (fun p => (Object.build p 0).toOption.any fun object =>
      object.entry?.any fun entry =>
        decide ((p.objectLayout 0).localOffset + (p.objectLayout 0).localSize ≤ 2 ^ 32) &&
          (p.advance (p.objectLayout 0) Binary32.rsqrt 4 (object.machine {} entry)).any fun m =>
            m.operation?.any fun o => decide (o.1.opcode = .addps)) = true := by
    decide +kernel
  obtain ⟨p, compiled, run⟩ := exists_ok_of_any run
  obtain ⟨object, build, run⟩ := exists_ok_of_any run
  obtain ⟨entry, found, run⟩ := (Option.any_eq_true _ _).1 run
  obtain ⟨small, run⟩ := (Bool.and_eq_true _ _).mp run
  obtain ⟨m, steps, run⟩ := (Option.any_eq_true _ _).1 run
  obtain ⟨⟨i, x⟩, operation, packed⟩ := (Option.any_eq_true _ _).1 run
  have small := of_decide_eq_true small
  have packed : i.opcode = .addps := of_decide_eq_true packed
  obtain ⟨shader, u, -, lowered⟩ := lowered_of_compile compiled
  obtain ⟨built, -⟩ := lowered.built_of_build build (Lowered.short_of_build 0 small)
  have reaches := reaches_of_advance steps
  have operates := Machine.operation?_eq_some.1 operation
  refine ⟨p, object, entry, m, i, x, compiled, build, found, reaches, operates, packed, ?_⟩
  exact packed_aligned compiled build small found {} object.block ⟨rfl, fun _ _ _ => rfl⟩
    ⟨by decide, by decide, built.whole small⟩ reaches i x operates (by rw [packed]; rfl)

end Program

end Shading
