import Shading.Proofs.Machine.Straight

/-!
# Code that leads forward

Some entries lead forward (`Assembly.Forward`): each jump has its mark
further on, and the last entry is a return. The code of every function is
so, and the trampoline. Where such code stands linked in the block of a
machine, each step takes it from one entry to a later one, or returns, or
faults (`Machine.step_forward`). This is what a step does, and all that later
modules use of one.
-/

namespace Shading

/-! ## Entries in their places -/

namespace Assembly

variable {es : List CodeEntry} {k start : Nat} {e : CodeEntry}

/-- An entry starts where the one before it stops. -/
theorem startOf_of_getElem? (here : es[k]? = some e) : startOf es (k + 1) = startOf es k + e.size := by
  rw [startOf, startOf, List.take_add_one, here, sizeOf_append, Option.toList_some, sizeOf_cons, sizeOf_nil,
    Nat.add_zero]

/-- The displacement of an entry holds its distance. -/
theorem Reaching.entry : ∀ {es : List CodeEntry} {k start : Nat}, Reaching start es → es[k]? = some e →
    ∀ i text target, e = .instruction i text → i.rm = .globalAt target →
      fitsSigned 32 ((target : Int) - (start + startOf es k + e.size : Nat)) = true
  | [], _, _, _, here => by cases here
  | _ :: _, 0, _, reaching, here => by
    cases here
    exact reaching.1
  | x :: es, k + 1, start, reaching, here => by
    have later := Reaching.entry (k := k) reaching.2 here
    have same : start + startOf (x :: es) (k + 1) = start + x.size + startOf es k := by
      rw [startOf, List.take_succ_cons, sizeOf_cons, ← Nat.add_assoc]
      rfl
    rwa [same]

end Assembly

namespace Block

variable {b : Block} {e : CodeEntry}

/-- Each entry of linked code stands in its place. -/
theorem Holds.entry : ∀ {es : List CodeEntry} {k start : Nat}, b.Holds start (Assembly.linkedCode start es) →
    es[k]? = some e → b.Holds (start + Assembly.startOf es k) (e.linkedBytes (start + Assembly.startOf es k))
  | [], _, _, _, here => by cases here
  | _ :: _, 0, _, holds, here => by
    cases here
    exact (holds_append.1 holds).1
  | x :: es, k + 1, start, holds, here => by
    have rest := (holds_append.1 holds).2
    rw [CodeEntry.length_linkedBytes] at rest
    have later := Holds.entry (k := k) rest here
    have same : start + Assembly.startOf (x :: es) (k + 1) = start + x.size + Assembly.startOf es k := by
      rw [Assembly.startOf, List.take_succ_cons, Assembly.sizeOf_cons, ← Nat.add_assoc]
      rfl
    rwa [same]

end Block

/-! ## Forward code -/

/-- **Code that leads forward** to its last entry, which is a return. -/
structure Assembly.Forward (es : List CodeEntry) : Prop where
  readable : ∀ e ∈ es, e.Readable
  /-- Each jump has its mark further on, and holds the distance to it. -/
  jumps : ∀ (k : Nat) form l d, es[k]? = some (.jump form l d) → ∃ j, k < j ∧ es[j]? = some (.mark l) ∧
    d = (startOf es j : Int) - startOf es (k + 1)
  returns : ∃ front, es = front ++ [.ret]

namespace Assembly

variable {es : List CodeEntry} {k : Nat}

/-- **Marks are passed over**: from every entry on there is one that is read
in its place. -/
theorem exists_rest (returns : ∃ front, es = front ++ [.ret]) (inside : k < es.length) :
    ∃ j, k ≤ j ∧ ∃ e, es[j]? = some e ∧ (∀ l, e ≠ .mark l) ∧ startOf es j = startOf es k := by
  obtain ⟨front, eq⟩ := returns
  have last : es[front.length]? = some .ret := by rw [eq, List.getElem?_concat_length]
  have length : es.length = front.length + 1 := by rw [eq, List.length_append, List.length_singleton]
  -- The induction is on the number of entries in front of the last one.
  induction rest : front.length - k generalizing k with
  | zero =>
    obtain rfl : k = front.length := by omega
    exact ⟨_, Nat.le_refl _, .ret, last, nofun, rfl⟩
  | succ n ih =>
    obtain ⟨e, here⟩ : ∃ e, es[k]? = some e := ⟨_, List.getElem?_eq_getElem inside⟩
    by_cases mark : ∃ l, e = .mark l
    · obtain ⟨l, rfl⟩ := mark
      obtain ⟨j, above, e, there, plain, start⟩ := ih (k := k + 1) (by omega) (by omega)
      refine ⟨j, Nat.le_of_succ_le above, e, there, plain, start.trans ?_⟩
      exact startOf_of_getElem? here
    · exact ⟨k, Nat.le_refl _, e, here, fun l eq => mark ⟨l, eq⟩, rfl⟩

/-- What has no return further on is the last entry. -/
theorem Forward.lt_length_of_ne_ret (forward : Forward es) {e : CodeEntry} (here : es[k]? = some e) (other : e ≠ .ret) :
    k + 1 < es.length := by
  obtain ⟨front, eq⟩ := forward.returns
  have inside := (List.getElem?_eq_some_iff.1 here).1
  have length : es.length = front.length + 1 := by rw [eq, List.length_append, List.length_singleton]
  by_contra last
  obtain rfl : k = front.length := by omega
  rw [eq, List.getElem?_concat_length] at here
  exact other (Option.some.inj here).symm

end Assembly

/-! ## Steps -/

namespace Machine

variable {m m' : Machine} {rsqrt : Word → Word} {start k : Nat} {es : List CodeEntry} {e : CodeEntry}

/-- **What an entry does to a machine** besides moving it on. -/
inductive Effect (rsqrt : Word → Word) (m : Machine) : CodeEntry → Machine → Prop where
  | instruction {i : Instruction Nat} {text : String} {m' : Machine} (run : m.perform rsqrt i = .ok m') :
      Effect rsqrt m (.instruction i text) m'
  | cdq : Effect rsqrt m .cdq m.extendSign
  | jump {form : JumpForm} {label : Nat} {distance : Int} : Effect rsqrt m (.jump form label distance) m

/-- The block stays where it is, and so do the calls under way. -/
theorem Effect.frames (h : m.Effect rsqrt e m') :
    m'.base = m.base ∧ m'.block.size = m.block.size ∧ m'.stack = m.stack := by
  cases h with
  | instruction run =>
    have frames := execute_frames run
    exact ⟨frames.base, frames.size, frames.stack⟩
  | cdq => exact ⟨rfl, rfl, rfl⟩
  | jump => exact ⟨rfl, rfl, rfl⟩

/-- A jump is carried out where its bytes stand. -/
theorem step_jump {form : JumpForm} {label : Nat} {distance : Int}
    (holds : m.block.Holds m.ip ((CodeEntry.jump form label distance).linkedBytes m.ip))
    (readable : (CodeEntry.jump form label distance).Readable) :
    m.step rsqrt = if form.taken m.registers.flags then
        (m.goto (m.ip + (CodeEntry.jump form label distance).size) distance).map .running
      else .ok (.running (m.standing (m.ip + (CodeEntry.jump form label distance).size))) := by
  obtain ⟨rest, read, length⟩ := read_upcoming (e := .jump form label distance) holds readable rfl
  simp only [step, read, length]
  cases form <;> rfl

/-- A return is carried out where its byte stands. -/
theorem step_ret (holds : m.block.Holds m.ip (CodeEntry.ret.linkedBytes m.ip)) :
    (m.stack = [] → m.step rsqrt = .ok (.returned m)) ∧
      ∀ r rs, m.stack = r :: rs → m.step rsqrt = .ok (.running { m with ip := r, stack := rs }) := by
  obtain ⟨rest, read, length⟩ := read_upcoming (e := .ret) holds trivial rfl
  refine ⟨fun stack => ?_, fun r rs stack => ?_⟩
  · simp only [step, read, stack]
  · simp only [step, read, stack]

/-- **A machine stands at an entry** of code that stands in its block. -/
structure At (m : Machine) (start : Nat) (es : List CodeEntry) (k : Nat) (e : CodeEntry) : Prop where
  ip : m.ip = start + Assembly.startOf es k
  here : es[k]? = some e
  unmarked : ∀ l, e ≠ .mark l
  holds : m.block.Holds start (Assembly.linkedCode start es)

/-- An entry is read at its place. -/
theorem At.read {d : Decoded} (at_ : m.At start es k e) (readable : e.Readable) (decoded : e.decoded? m.ip = some d) :
    ∃ rest, Decoded.read? m.upcoming = some (d, rest) := by
  have holds := at_.holds.entry at_.here
  rw [← at_.ip] at holds
  obtain ⟨rest, read, -⟩ := read_upcoming holds readable decoded
  exact ⟨rest, read⟩

/-- An instruction is carried out at its entry. -/
theorem At.step_instruction {i : Instruction Nat} {text : String} (at_ : m.At start es k (.instruction i text))
    (readable : (CodeEntry.instruction i text).Readable) (reaching : Assembly.Reaching start es) :
    m.step rsqrt = (m.perform rsqrt i).map fun m' => .running (m'.standing (start + Assembly.startOf es (k + 1))) := by
  have holds := at_.holds.entry at_.here
  rw [← at_.ip] at holds
  have step : m.step rsqrt = _ := Machine.step_instruction rfl readable holds fun target rm => by
    rw [at_.ip]
    exact reaching.entry at_.here i text target rfl rm
  rw [step, Assembly.startOf_of_getElem? at_.here, ← Nat.add_assoc, ← at_.ip]
  rfl

/-- **A machine moves on** from an entry to a later one. -/
structure Moves (rsqrt : Word → Word) (m : Machine) (start : Nat) (es : List CodeEntry) (k : Nat) (e : CodeEntry)
    (m' : Machine) (j : Nat) : Prop where
  effect : m.Effect rsqrt e m'
  later : k < j
  there : ∃ e', es[j]? = some e' ∧ ∀ l, e' ≠ .mark l
  step : m.step rsqrt = .ok (.running (m'.standing (start + Assembly.startOf es j)))

/-- **One step in code that leads forward**: the instruction at hand faults,
or the machine moves on to a later entry, or it stands at a return. -/
theorem step_forward (forward : Assembly.Forward es) (reaching : Assembly.Reaching start es)
    (at_ : m.At start es k e) :
    (∃ i text f, e = .instruction i text ∧ m.perform rsqrt i = .error f ∧ m.step rsqrt = .error f) ∨
      (∃ m' j, m.Moves rsqrt start es k e m' j) ∨ e = .ret := by
  have here := at_.here
  have readable := forward.readable e (List.mem_of_getElem? here)
  have holds := at_.holds.entry here
  rw [← at_.ip] at holds
  have next := Assembly.startOf_of_getElem? here
  -- From the end of an entry the machine comes to the next one that is read.
  have moves {m' : Machine} {n : Nat} (other : e ≠ .ret) (effect : m.Effect rsqrt e m') (later : k < n)
      (inside : n < es.length) (step : m.step rsqrt = .ok (.running (m'.standing (start + Assembly.startOf es n)))) :
      ∃ m' j, m.Moves rsqrt start es k e m' j := by
    obtain ⟨j, above, e', there, plain, same⟩ := Assembly.exists_rest forward.returns inside
    exact ⟨m', j, effect, Nat.lt_of_lt_of_le later above, ⟨e', there, plain⟩, same ▸ step⟩
  cases e with
  | instruction i text =>
    have step : m.step rsqrt = _ := at_.step_instruction readable reaching
    cases run : m.perform rsqrt i with
    | error f => exact .inl ⟨i, text, f, rfl, run, by rw [step, run]; rfl⟩
    | ok m' =>
      refine .inr (.inl (moves nofun (.instruction run) (Nat.lt_succ_self k)
        (forward.lt_length_of_ne_ret here nofun) ?_))
      rw [step, run]
      rfl
  | cdq =>
    refine .inr (.inl (moves nofun .cdq (Nat.lt_succ_self k) (forward.lt_length_of_ne_ret here nofun) ?_))
    rw [step_cdq rfl holds, next, ← Nat.add_assoc, ← at_.ip]
    rfl
  | jump form label distance =>
    have step : m.step rsqrt = _ := step_jump holds readable
    by_cases taken : form.taken m.registers.flags = true
    · obtain ⟨j, ahead, mark, distance_eq⟩ := forward.jumps k form label distance here
      refine .inr (.inl (moves nofun .jump ahead (List.getElem?_eq_some_iff.1 mark).1 ?_))
      have target : ((m.ip + (CodeEntry.jump form label distance).size : Nat) : Int) + distance =
          (start + Assembly.startOf es j : Nat) := by
        rw [at_.ip, Nat.add_assoc, ← next]
        omega
      rw [step, if_pos taken, goto]
      simp only [target]
      rw [if_pos (Int.natCast_nonneg _)]
      rfl
    · refine .inr (.inl (moves nofun .jump (Nat.lt_succ_self k) (forward.lt_length_of_ne_ret here nofun) ?_))
      rw [step, if_neg taken, next, ← Nat.add_assoc, ← at_.ip]
  | ret => exact .inr (.inr rfl)
  | mark l => exact absurd rfl (at_.unmarked l)
  | raw bytes text => exact readable.elim
  | call target => exact readable.elim

/-- An entry that is read has bytes. -/
theorem At.size_pos (forward : Assembly.Forward es) (at_ : m.At start es k e) : 0 < e.size := by
  rcases Decoded.mark_or_decoded (forward.readable e (List.mem_of_getElem? at_.here)) start with ⟨l, mark⟩ | ⟨d, some⟩
  · exact absurd mark (at_.unmarked l)
  · exact Decoded.size_pos some

/-- A machine that stands at an entry stands within the code. -/
theorem At.inside (forward : Assembly.Forward es) (at_ : m.At start es k e) :
    start ≤ m.ip ∧ m.ip < start + Assembly.sizeOf es := by
  have bytes := at_.size_pos forward
  have next := Assembly.startOf_of_getElem? at_.here
  have stop : Assembly.startOf es (k + 1) ≤ Assembly.startOf es es.length :=
    Assembly.startOf_mono (List.getElem?_eq_some_iff.1 at_.here).1
  rw [Assembly.startOf_length] at stop
  have ip := at_.ip
  omega

/-- **A machine moves ahead.** -/
theorem Moves.ahead (at_ : m.At start es k e) {m' : Machine} {j : Nat}
    (moves : m.Moves rsqrt start es k e m' j) : m.ip + e.size ≤ start + Assembly.startOf es j := by
  have next := Assembly.startOf_of_getElem? at_.here
  have above : Assembly.startOf es (k + 1) ≤ Assembly.startOf es j := Assembly.startOf_mono moves.later
  have ip := at_.ip
  omega

/-- Where a machine has moved, it stands at an entry, if the code is still
there. -/
theorem Moves.at {m' : Machine} {j : Nat} (moves : m.Moves rsqrt start es k e m' j)
    (holds : m'.block.Holds start (Assembly.linkedCode start es)) :
    ∃ e', (m'.standing (start + Assembly.startOf es j)).At start es j e' := by
  obtain ⟨e', there, plain⟩ := moves.there
  exact ⟨e', rfl, there, plain, holds⟩

end Machine

end Shading
