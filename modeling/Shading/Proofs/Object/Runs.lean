import Mathlib.Logic.Relation
import Shading.Object.Execution
import Shading.Proofs.Object.Execution

/-!
# Executions lead straight to the return

No jump leads back. In the code of a function each jump has one mark, which
stands further on, and from there on an instruction is read, the return at
the latest (`Assembly.JumpsForward`). So an execution of a function gets ahead
with each step (`Program.Running.ahead`): it carries out no instruction twice,
and it ends at the return with no call under way, unless an instruction
faults (`Program.RunsStraight`). What an execution does in the end does not
depend on what the globals and the registers hold, only that accesses through
address registers keep to the variables that they index.
-/

namespace Shading

open LoweringState Regime Relation

/-! ## Runs of a machine -/

/-- One machine comes to another in one step. -/
def Machine.Next (rsqrt : Word → Word) (a b : Machine) : Prop := a.step rsqrt = .ok (.running b)

/-- **All accesses of a run through address registers** stay inside
containers. -/
def Program.Keeps (p : Program) (l : ObjectLayout) (rsqrt : Word → Word) (m : Machine) : Prop :=
  ∀ a, ReflTransGen (Machine.Next rsqrt) m a → p.Contained l a

/-- **A run ends**, within so many steps: at the return of a function, or with
a fault of an instruction. -/
inductive Program.Ends (f : CompiledFunction) (entry : Nat) (rsqrt : Word → Word) (steps : Nat) (m : Machine) : Prop
  | returns {m' : Machine} (reaches : ReflTransGen (Machine.Next rsqrt) m m') (returns : Returns f entry m')
      (run : m.run rsqrt steps = .returned m')
  | faults {m' : Machine} {x : Fault} (reaches : ReflTransGen (Machine.Next rsqrt) m m')
      (step : m'.step rsqrt = .error x) (ofData : x.OfData) (run : m.run rsqrt steps = .fault x)

namespace Program

variable {p : Program} {l : ObjectLayout} {f : CompiledFunction} {entry : Nat} {m m' : Machine} {rsqrt : Word → Word}

theorem Keeps.next (keeps : p.Keeps l rsqrt m) (next : m.Next rsqrt m') : p.Keeps l rsqrt m' :=
  fun a reaches => keeps a (.head next reaches)

namespace Running

theorem next (running : p.Running l f entry m) (site : p.Site l f entry) (contained : p.Contained l m)
    (next : m.Next rsqrt m') : p.Continues l f entry m m' := by
  have next : m.step rsqrt = .ok (.running m') := next
  rcases running.step site contained rsqrt with ⟨x, step, -⟩ | ⟨m₂, step, continues⟩ | ⟨step, -⟩
  · rw [step] at next
    cases next
  · rw [step] at next
    cases next
    exact continues
  · rw [step] at next
    cases next

/-- **What a run keeps**: it stays an execution of the function, and sealed
bytes stay. -/
theorem reaches (running : p.Running l f entry m) (site : p.Site l f entry) (keeps : p.Keeps l rsqrt m)
    (reaches : ReflTransGen (Machine.Next rsqrt) m m') :
    p.Running l f entry m' ∧ m'.base = m.base ∧ m.block.Spares (p.Sealed l) m'.block := by
  induction reaches with
  | refl => exact ⟨running, rfl, .refl _⟩
  | tail before last ih =>
    obtain ⟨there, base, spares⟩ := ih
    have continues := there.next site (keeps _ before) last
    exact ⟨continues.running, continues.base.trans base, spares.trans continues.sealed⟩

/-- **A run gets ahead.** -/
theorem ahead (running : p.Running l f entry m) (site : p.Site l f entry) (keeps : p.Keeps l rsqrt m)
    (reaches : TransGen (Machine.Next rsqrt) m m') : progressAt entry m.ip < progressAt entry m'.ip := by
  induction reaches with
  | single next => exact (running.next site (keeps _ .refl) next).ahead
  | tail before last ih =>
    have there := (running.reaches site keeps before.to_reflTransGen).1
    exact Nat.lt_trans ih (there.next site (keeps _ before.to_reflTransGen) last).ahead

/-- An execution is within the code. -/
theorem progressAt_lt (running : p.Running l f entry m) (site : p.Site l f entry) :
    progressAt entry m.ip < l.localOffset := by
  have stop := site.stop
  cases running.stage with
  | called ip stack =>
    rw [ip, progressAt_self]
    omega
  | loading at_ stack loaded localBase =>
    have before := Nat.lt_of_lt_of_le (at_.inside site.trampoline).2 site.behind
    rw [progressAt_before before]
    omega
  | body at_ stack localBase loaded =>
    obtain ⟨low, high⟩ := at_.inside site.body
    rw [progressAt_behind (by omega)]
    omega

/-- **A run ends** within as many steps as there are bytes ahead. -/
theorem ends (site : p.Site l f entry) : ∀ {steps : Nat} {m : Machine}, p.Running l f entry m → p.Keeps l rsqrt m →
    l.localOffset ≤ progressAt entry m.ip + steps → Program.Ends f entry rsqrt steps m
  | 0, m, running, _, enough => absurd (running.progressAt_lt site) (Nat.not_lt.2 enough)
  | steps + 1, m, running, keeps, enough => by
    rcases running.step site (keeps _ .refl) rsqrt with ⟨x, step, ofData⟩ | ⟨m₂, step, continues⟩ | ⟨step, returns⟩
    · exact .faults .refl step ofData (by simp only [Machine.run, step])
    · have next : m.Next rsqrt m₂ := step
      have same : m.run rsqrt (steps + 1) = m₂.run rsqrt steps := by simp only [Machine.run, step]
      have ahead := continues.ahead
      -- The induction is on the steps that are left, and each step takes one of them.
      have enough : l.localOffset ≤ progressAt entry m₂.ip + steps := by omega
      cases ends site continues.running (keeps.next next) enough with
      | returns reaches returns run => exact .returns (.head next reaches) returns (same.trans run)
      | faults reaches fails ofData run => exact .faults (.head next reaches) fails ofData (same.trans run)
    · exact .returns .refl returns (by simp only [Machine.run, step])

end Running

/-- **A run leads straight to the return.** -/
structure RunsStraight (p : Program) (l : ObjectLayout) (f : CompiledFunction) (entry : Nat) (rsqrt : Word → Word)
    (steps : Nat) (m : Machine) : Prop where
  /-- It stands at the call, or at an entry of the trampoline or of the body. -/
  stands : ∀ a, ReflTransGen (Machine.Next rsqrt) m a → p.Stage l f entry a
  /-- No instruction is carried out twice. -/
  once : ∀ a b, ReflTransGen (Machine.Next rsqrt) m a → TransGen (Machine.Next rsqrt) a b → a.ip ≠ b.ip
  ends : Ends f entry rsqrt steps m

theorem Running.straight (running : p.Running l f entry m) (site : p.Site l f entry) (keeps : p.Keeps l rsqrt m)
    {steps : Nat} (enough : l.localOffset ≤ progressAt entry m.ip + steps) :
    p.RunsStraight l f entry rsqrt steps m where
  stands := fun a reaches => (running.reaches site keeps reaches).1.stage
  once := fun a b reaches later same => by
    have there := (running.reaches site keeps reaches).1
    have ahead := there.ahead site (fun c further => keeps c (reaches.trans further)) later
    rw [same] at ahead
    exact Nat.lt_irrefl _ ahead
  ends := running.ends site keeps enough

end Program

/-! ## Code without address registers -/

/-- Whether an entry has no operand at an address register. -/
def CodeEntry.isDirect : CodeEntry → Bool
  | .instruction i _ =>
    match i.rm with
    | .indirect _ => false
    | _ => true
  | _ => true

/-- What is read as an instruction was one. -/
theorem CodeEntry.instruction_of_decoded? {e : CodeEntry} {start : Nat} {i : Instruction Nat}
    (decoded : e.decoded? start = some (.op i)) :
    ∃ j text, e = .instruction j text ∧ i = j.linked (displacement (start + e.size)) := by
  cases e with
  | instruction j text =>
    cases decoded
    exact ⟨j, text, rfl, rfl⟩
  | _ => cases decoded

/-- The instruction at hand is that of the entry. -/
theorem Machine.At.instruction_of_read {m : Machine} {start k : Nat} {es : List CodeEntry} {e : CodeEntry}
    (at_ : m.At start es k e) (readable : e.Readable) {i : Instruction Nat} {rest : List UInt8}
    (read : Decoded.read? m.upcoming = some (.op i, rest)) :
    ∃ j text, e = .instruction j text ∧ ∀ id, i.rm = .indirect id → j.rm = .indirect id := by
  rcases Decoded.mark_or_decoded readable m.ip with ⟨l, mark⟩ | ⟨d, decoded⟩
  · exact absurd mark (at_.unmarked l)
  · obtain ⟨rest', read'⟩ := at_.read readable decoded
    rw [read] at read'
    cases read'
    obtain ⟨j, text, eq, rfl⟩ := CodeEntry.instruction_of_decoded? decoded
    refine ⟨j, text, eq, fun id rm => ?_⟩
    cases operand : j.rm <;> simp [Instruction.linked, Operand.map, operand] at rm
    rw [rm]

namespace Program.Running

variable {p : Program} {l : ObjectLayout} {f : CompiledFunction} {entry : Nat} {m : Machine} {rsqrt : Word → Word}

/-- A function without operands at address registers accesses nothing through
them. -/
theorem contained_of_direct (running : p.Running l f entry m) (site : p.Site l f entry)
    (direct : ∀ e ∈ f.assembly.entries.tail, e.isDirect = true) : p.Contained l m := by
  intro i rest read id rm access
  cases running.stage with
  | called ip stack =>
    obtain ⟨rest', read', -⟩ := Machine.read_call (ip.symm ▸ running.deployed.call)
    rw [read] at read'
    cases read'
  | loading at_ stack loaded localBase =>
    obtain ⟨j, text, rfl, same⟩ :=
      at_.instruction_of_read (site.trampoline.readable _ (List.mem_of_getElem? at_.here)) read
    have indirect := same id rm
    cases trampolineEntry_of_getElem? (fun g hg => (site.staged g hg).1) at_.here with
    | load known code =>
      obtain ⟨c, id, text, -, -, code', -⟩ := (site.staged _ (List.mem_of_getElem? known)).1.entry
      cases code.symm.trans code'
      cases indirect
    | localBase => cases indirect
  | body at_ stack localBase loaded =>
    have mem := List.mem_of_getElem? at_.here
    obtain ⟨j, text, rfl, same⟩ := at_.instruction_of_read (site.body.readable _ mem) read
    have plain := direct _ mem
    rw [CodeEntry.isDirect, same id rm] at plain
    cases plain

/-- **A function without operands at address registers** keeps to the
variables of the program. -/
theorem keeps_of_direct (running : p.Running l f entry m) (site : p.Site l f entry)
    (direct : ∀ e ∈ f.assembly.entries.tail, e.isDirect = true) : p.Keeps l rsqrt m := by
  intro a reaches
  have there : p.Running l f entry a := by
    induction reaches with
    | refl => exact running
    | tail before last ih => exact (ih.next site (ih.contained_of_direct site direct) last).running
  exact there.contained_of_direct site direct

end Program.Running

/-! ## Jumps -/

/-- **The jumps of some code lead forward**, each to its one mark. -/
structure Assembly.JumpsForward (a : Assembly) : Prop where
  /-- The return is the last entry. -/
  returns : ∃ front, a.entries = front ++ [.ret]
  /-- No two jumps share a label. -/
  own : ∀ (i j : Nat) form form' l d d', a.entries[i]? = some (.jump form l d) →
    a.entries[j]? = some (.jump form' l d') → i = j
  /-- A jump is bound once. -/
  bound : ∀ (i : Nat) form l d, a.entries[i]? = some (.jump form l d) → ∃! j : Nat, a.entries[j]? = some (.mark l)
  forward : ∀ (i : Nat) form l d, a.entries[i]? = some (.jump form l d) → 0 ≤ d
  /-- A jump lands where an instruction is read, in front of the return or on
  it. -/
  lands : ∀ (i : Nat) form l d, a.entries[i]? = some (.jump form l d) → ∃ n e, i < n ∧ a.entries[n]? = some e ∧
    (∀ m, e ≠ .mark m) ∧ (startOf a.entries (i + 1) : Int) + d = startOf a.entries n ∧
    startOf a.entries n ≤ startOf a.entries (a.entries.length - 1)

/-- **The jumps of a function lead forward.** -/
theorem CompiledFunction.Written.jumpsForward {f : CompiledFunction} {globals staging : List Holding}
    {d : Declarations} {g : FunctionId} {body : List Statement} {s v t : LoweringState}
    (h : f.Written globals staging d g body s v t) : f.assembly.JumpsForward := by
  obtain ⟨fine, bound⟩ := h.coded.complete _ (Lower.idle_suits h.standing body)
  have sound : f.assembly.Sound := h.assembly ▸ fine.ok.assembly
  obtain ⟨es, eq⟩ := h.coded.entries
  rw [← h.assembly] at bound eq
  -- Each jump has its mark, which stands further on.
  have marked (i : Nat) (form : JumpForm) (l : Nat) (d : Int) (here : f.assembly.entries[i]? = some (.jump form l d)) :
      ∃ j : Nat, f.assembly.entries[j]? = some (.mark l) := by
    obtain ⟨e, he, mark⟩ := bound l ⟨_, List.mem_of_getElem? here, rfl⟩
    rw [CodeEntry.mark?_eq_some.1 mark] at he
    exact List.getElem?_of_mem he
  refine ⟨⟨_, eq⟩, fun i j form form' l d d' hi hj => sound.oneJump i j _ _ l hi hj rfl rfl,
    fun i form l d here => ?_, fun i form l d here => ?_, fun i form l d here => ?_⟩
  · obtain ⟨j, hj⟩ := marked i form l d here
    exact ⟨j, hj, fun j' hj' => sound.oneMark j' j _ _ l hj' hj rfl rfl⟩
  · obtain ⟨j, hj⟩ := marked i form l d here
    obtain ⟨ahead, distance, -⟩ := sound.linked i j form l d here hj
    have above : Assembly.startOf f.assembly.entries (i + 1) ≤ Assembly.startOf f.assembly.entries j :=
      Assembly.startOf_mono ahead
    omega
  · obtain ⟨j, hj⟩ := marked i form l d here
    obtain ⟨ahead, distance, -⟩ := sound.linked i j form l d here hj
    obtain ⟨n, above, e, there, plain, same⟩ := Assembly.exists_rest ⟨_, eq⟩ (List.getElem?_eq_some_iff.1 hj).1
    have inside := (List.getElem?_eq_some_iff.1 there).1
    exact ⟨n, e, Nat.lt_of_lt_of_le ahead above, there, plain, by omega, Assembly.startOf_mono (by omega)⟩

/-! ## Executions of objects -/

/-- **The entry point of an object** is a function of its program. -/
theorem Object.Built.exists_entry {o : Object} {p : Program} {l : ObjectLayout} (built : o.Built p l)
    (length : l.functionOffsets.length = p.functions.length)
    (main : p.functions.any (fun f => f.isExported && f.name == entryPoint) = true) :
    ∃ f entry, (f, entry) ∈ p.functions.zip l.functionOffsets ∧ f.isExported = true ∧ f.name = entryPoint ∧
      o.entry? = some entry := by
  obtain ⟨f, hf, exported⟩ := List.any_eq_true.1 main
  have listed : ∃ x ∈ o.functions, (x.isExported && x.name == entryPoint) = true := by
    rw [← List.map_fst_zip (Nat.le_of_eq length.symm)] at hf
    obtain ⟨x, hx, rfl⟩ := List.mem_map.1 hf
    rw [built.functions]
    exact ⟨_, List.mem_map_of_mem hx, exported⟩
  obtain ⟨y, found⟩ := Option.isSome_iff_exists.1 (List.find?_isSome.2 listed)
  have holds := List.find?_some found
  have mem := List.mem_of_find?_eq_some found
  rw [built.functions] at mem
  obtain ⟨x, hx, rfl⟩ := List.mem_map.1 mem
  obtain ⟨exported, named⟩ := (Bool.and_eq_true _ _).mp holds
  exact ⟨x.1, x.2, hx, exported, eq_of_beq named, by rw [Object.entry?, found]; rfl⟩

/-- **What an execution needs to find in a block** to run the code of an
object: the code between the global and the local region. The globals may
hold anything. -/
structure Object.Carries (o : Object) (p : Program) (l : ObjectLayout) (b : Block) : Prop where
  size : b.size = o.block.size
  code : ∀ k, l.trampolineOffset ≤ k → k < l.localOffset → b.get k = o.block.get k

/-- An execution starts in front of the call. -/
theorem Program.Running.start {p : Program} {l : ObjectLayout} {f : CompiledFunction} {entry : Nat} {o : Object}
    {h : Host} (deployed : p.Deployed l f entry o.block) (whole : h.base + o.block.size ≤ 2 ^ 63) :
    p.Running l f entry (o.machine h entry) := ⟨whole, deployed, .called rfl rfl⟩

/-- **Every function leads straight to its return**, and so does each run of
the entry point in an object, whatever the globals and the registers hold:
offsets in the object have 32 bits, and the block is in the lower half of the
addresses. -/
theorem Program.runs_straight {o : Options} {source : String} {p : Program} (compiled : compile o source = .ok p) :
    (∀ f ∈ p.functions, f.assembly.JumpsForward) ∧
      ∀ floor object, Object.build p floor = .ok object →
        (p.objectLayout floor).localOffset + (p.objectLayout floor).localSize ≤ 2 ^ 32 →
        ∃ f entry, (f, entry) ∈ p.functions.zip (p.objectLayout floor).functionOffsets ∧
          f.isExported = true ∧ f.name = entryPoint ∧ object.entry? = some entry ∧
          ∀ (h : Host) (b : Block), object.Carries p (p.objectLayout floor) b → h.base + b.size ≤ 2 ^ 63 →
            p.Keeps (p.objectLayout floor) h.rsqrt (Object.machine { object with block := b } h entry) →
            p.RunsStraight (p.objectLayout floor) f entry h.rsqrt b.size
              (Object.machine { object with block := b } h entry) := by
  obtain ⟨shader, u, -, lowered⟩ := lowered_of_compile compiled
  refine ⟨fun f hf => ?_, fun floor object build small => ?_⟩
  · obtain ⟨g, w, body, s, v, t, -, -, written, -⟩ := lowered.functions f hf
    exact written.jumpsForward
  · have short := Lowered.short_of_build floor small
    obtain ⟨built, -⟩ := lowered.built_of_build build short
    obtain ⟨f, entry, mem, exported, named, found⟩ :=
      built.exists_entry (p.objectLayout_ordered floor).2.2 (Object.main_of_build build)
    have site := lowered.site build small mem
    refine ⟨f, entry, mem, exported, named, found, fun h b carries whole keeps => ?_⟩
    have deployed := (built.deployed lowered short mem).of_same site carries.size carries.code
    have running := Running.start (o := { object with block := b }) deployed whole
    refine running.straight site keeps ?_
    exact Nat.le_trans (Nat.le_of_add_right_le deployed.room) (Nat.le_add_left _ _)

/-- Where a host places blocks by default, there is room for an object. -/
theorem Object.Built.whole {o : Object} {p : Program} {l : ObjectLayout} (built : o.Built p l)
    (small : l.localOffset + l.localSize ≤ 2 ^ 32) : Host.base {} + o.block.size ≤ 2 ^ 63 := by
  have base : Host.base {} = 0x7F0000000000 := rfl
  rw [built.wrote.size, Block.new]
  simp only [pageSize]
  omega

namespace Program

/-- A choice without elements of vectors, with globals that live in
registers. -/
def directSource : String :=
  "float f; int i; export void main() \x7b if (i < 3) \x7b f = f * 2.0; \x7d else \x7b i = i / 2; \x7d \x7d"

set_option maxRecDepth 100000 in
theorem compiles_directSource : ∃ p, compile sampleOptions directSource = .ok p ∧
    p.functions.any (fun f => f.isExported && f.name == entryPoint) = true ∧
    (p.objectLayout 256).localOffset + (p.objectLayout 256).localSize < 2 ^ 31 ∧
    (∀ f ∈ p.functions, ∀ e ∈ f.assembly.entries, e.isDirect = true) ∧
    ∃ slot ∈ p.globals, slot.name = "i" ∧ slot.ty = .int ∧ slot.location = RegisterClass.general.location 0 := by
  have small : (compile sampleOptions directSource).toOption.any (fun p =>
      p.functions.any (fun f => f.isExported && f.name == entryPoint) &&
        (decide ((p.objectLayout 256).localOffset + (p.objectLayout 256).localSize < 2 ^ 31) &&
        (p.functions.all (fun f => f.assembly.entries.all CodeEntry.isDirect) &&
        p.globals.any (fun g => g.name == "i" && (decide (g.ty = .int) &&
          decide (g.location = RegisterClass.general.location 0)))))) = true := by
    decide +kernel
  cases compiled : compile sampleOptions directSource with
  | error e =>
    rw [compiled] at small
    cases small
  | ok p =>
    rw [compiled] at small
    refine ⟨p, rfl, ?_⟩
    simpa [Except.toOption] using small

theorem runs_straight_directSource : ∃ p object f entry, compile sampleOptions directSource = .ok p ∧
    Object.build p 256 = .ok object ∧ object.entry? = some entry ∧
    (∀ f ∈ p.functions, f.assembly.JumpsForward) ∧
    p.RunsStraight (p.objectLayout 256) f entry Binary32.rsqrt object.block.size (object.machine {} entry) := by
  obtain ⟨p, compiled, main, small, direct, -⟩ := compiles_directSource
  obtain ⟨shader, u, -, lowered⟩ := lowered_of_compile compiled
  obtain ⟨object, build, built⟩ := lowered.built main small
  obtain ⟨forward, runs⟩ := runs_straight compiled
  obtain ⟨f, entry, mem, -, -, found, straight⟩ := runs 256 object build (by omega)
  have whole := built.whole (by omega)
  refine ⟨p, object, f, entry, compiled, build, found, forward, straight {} object.block ⟨rfl, fun _ _ _ => rfl⟩ whole ?_⟩
  have site := lowered.site build (by omega) mem
  have running := Running.start (built.deployed lowered (Lowered.short_of_build 256 (by omega)) mem) whole
  exact running.keeps_of_direct site fun e he =>
    direct f (List.of_mem_zip mem).1 e (List.mem_of_mem_tail he)

end Program

end Shading
