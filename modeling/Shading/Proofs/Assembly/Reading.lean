import Shading.Proofs.Object.Linking

/-!
# Assembled code is read back

The bytes of assembled code and its relocations together tell what was
emitted. A reader goes through the bytes from the front; where it meets a
global operand, whose displacement is still open, it takes the next
relocation instead, and this one has to stand for the very four bytes
(`Decoded.resolve?`). No instruction begins another one, so the reader
cannot go astray: it fills the bytes with the steps that were emitted, in
their order, and uses up the relocations
(`Assembly.Tellable.read`).

What is emitted is shown by `Assembly.Action.decoded?`: an instruction
with the register field that is written, which is the digit of its
opcode if it has one. The distance of a jump is zero until the label of
the jump is bound, so across bindings the steps are compared up to these
distances (`Decoded.unbound`).
-/

namespace Shading

/-! ## Reading with relocations -/

namespace Decoded

/-- **The step that ends at an offset**, with the target of its relocation
in place of an open displacement, and the relocations behind it. The
relocation has to stand for the bytes of the displacement, which the
immediate separates from the end. -/
def resolve? (next : Nat) (relocations : List Relocation) :
    Decoded → Option (Decoded × List Relocation)
  | .op i =>
    match i.rm, relocations with
    | .globalAt _, r :: rs =>
      if r.next = next ∧ r.position + 4 + i.immediate.length = next then
        some (.op { i with rm := .globalAt r.target }, rs)
      else none
    | .globalAt _, [] => none
    | _, rs => some (.op i, rs)
  | d => some (d, relocations)

/-- Reads steps from an offset on to the end of the bytes, at most as many
as `budget` says. No relocation may be left over. -/
def readReferringWithin : (budget position : Nat) → List Relocation → List UInt8 →
    Option (List Decoded)
  | _, _, rs, [] => if rs.isEmpty then some [] else none
  | 0, _, _, _ => none
  | budget + 1, position, rs, bs => do
    let (d, rest) ← read? bs
    let next := position + (bs.length - rest.length)
    let (d, rs) ← d.resolve? next rs
    let ds ← readReferringWithin budget next rs rest
    return d :: ds

/-- **Reads code with its relocations** as a sequence of steps that fills
the bytes and uses up the relocations. -/
def readReferring? (relocations : List Relocation) (code : List UInt8) : Option (List Decoded) :=
  readReferringWithin code.length 0 relocations code

/-- A step without the distance of its jump. -/
def unbound : Decoded → Decoded
  | .jump form _ => .jump form 0
  | d => d

end Decoded

/-! ## What is emitted -/

/-- **An instruction as it is told by its bytes**: an opcode with a digit
has the digit in its register field. -/
def Instruction.told (i : Instruction Nat) : Instruction Nat := { i with reg := i.field }

/-- An entry as it is read. A mark has no bytes. -/
def CodeEntry.told? : CodeEntry → Option Decoded
  | .instruction i _ => some (.op i.told)
  | .ret => some .ret
  | .cdq => some .cdq
  | .call _ => some (.call 0)
  | .jump form _ distance => some (.jump form distance)
  | .raw _ _ | .mark _ => none

/-- An entry whose bytes tell it: any but raw bytes, if the operands of an
instruction and the distance of a jump can be told. -/
def CodeEntry.Tellable : CodeEntry → Prop
  | .instruction i _ => i.Encodable = true
  | .jump form _ distance => fitsSigned (8 * form.width) distance = true
  | .ret | .cdq | .call _ | .mark _ => True
  | .raw _ _ => False

namespace Assembly.Action

/-- **The step that an act of writing emits**, with the distance that a
jump has as long as its label is not bound. -/
def decoded? : Action → Option Decoded
  | .emit i _ => some (.op i.told)
  | .ret => some .ret
  | .cdq => some .cdq
  | .call _ => some (.call 0)
  | .jump form => some (.jump form 0)
  | .raw _ _ | .bind _ => none

/-- **An act whose bytes can be told**: registers below eight, of which
the stack pointer and the frame pointer hold no address, an offset of 32
bits into the local region, and an immediate of the length that the
opcode takes. Raw bytes may be anything. -/
def Tellable : Action → Bool
  | .emit i _ => i.Encodable
  | .raw _ _ => false
  | .ret | .cdq | .call _ | .jump _ | .bind _ => true

end Assembly.Action

/-! ## One entry -/

namespace Decoded

theorem read?_call (rest : List UInt8) :
    read? ((0xE8 :: wordBytes 0) ++ rest) = some (.call 0, rest) := by
  have word := take?_word 0 rest
  have zero : signedValue 32 (ofLittleEndian (wordBytes 0)) = 0 := by decide
  simp [read?, readControl?, word, zero]

/-- **The relocation of an instruction is the one it needs**: it gives the
instruction its target back. -/
theorem resolve?_linked (start : Nat) (i : Instruction Nat) (rs : List Relocation) :
    resolve? (start + i.encode.length) ((i.relocation? start).toList ++ rs)
      (.op (i.linked fun _ => 0)) = some (.op i.told, rs) := by
  obtain ⟨o, reg, rm, immediate⟩ := i
  cases rm with
  | globalAt target =>
    have room : 4 + immediate.length ≤ (Instruction.encode ⟨o, reg, .globalAt target, immediate⟩).length := by
      simp [Instruction.encode, Instruction.encodeWith, Operand.encode, wordBytes]
      omega
    simp only [Instruction.relocation?, Option.toList_some, List.singleton_append, Instruction.linked,
      Operand.map, resolve?, true_and]
    rw [if_pos (by omega)]
    rfl
  | _ => rfl

/-- **An entry is read back** with its relocation, and what follows it. -/
theorem read?_told {e : CodeEntry} (tellable : e.Tellable) {d : Decoded} (told : e.told? = some d)
    (start : Nat) (rs : List Relocation) (rest : List UInt8) :
    ∃ x, read? (e.bytes ++ rest) = some (x, rest) ∧
      x.resolve? (start + e.size) (Assembly.relocationsFrom start [e] ++ rs) = some (d, rs) := by
  cases e with
  | instruction i text =>
    cases told
    refine ⟨_, read?_encode (by simp) tellable rest, ?_⟩
    simpa [Assembly.relocationsFrom, CodeEntry.size, CodeEntry.bytes] using resolve?_linked start i rs
  | jump form label distance =>
    cases told
    exact ⟨_, read?_jump label tellable rest, rfl⟩
  | ret =>
    cases told
    exact ⟨_, rfl, rfl⟩
  | cdq =>
    cases told
    exact ⟨_, rfl, rfl⟩
  | call target =>
    cases told
    exact ⟨_, read?_call rest, rfl⟩
  | raw bytes text => cases told
  | mark label => cases told

/-- What is told has bytes. -/
theorem size_pos_of_told {e : CodeEntry} {d : Decoded} (told : e.told? = some d) : 0 < e.size := by
  cases e with
  | instruction i text => exact size_pos (rfl : CodeEntry.decoded? 0 (.instruction i text) = _)
  | jump form label distance =>
    exact size_pos (rfl : CodeEntry.decoded? 0 (.jump form label distance) = _)
  | ret => decide
  | cdq => decide
  | call target => exact Nat.succ_pos _
  | raw bytes text => cases told
  | mark label => cases told

/-- An entry that tells nothing is a mark. -/
theorem eq_mark_of_told? {e : CodeEntry} (tellable : e.Tellable) (told : e.told? = none) :
    ∃ label, e = .mark label := by
  cases e with
  | mark label => exact ⟨label, rfl⟩
  | raw bytes text => exact tellable.elim
  | _ => cases told

/-! ## All entries -/

theorem relocationsFrom_cons (start : Nat) (e : CodeEntry) (es : List CodeEntry) :
    Assembly.relocationsFrom start (e :: es) =
      Assembly.relocationsFrom start [e] ++ Assembly.relocationsFrom (start + e.size) es := by
  cases e <;> simp [Assembly.relocationsFrom]

/-- **Entries are read back** with their relocations, from wherever they
start. -/
theorem readReferringWithin_entries : ∀ {es : List CodeEntry} (budget start : Nat),
    (∀ e ∈ es, e.Tellable) → Assembly.sizeOf es ≤ budget →
    readReferringWithin budget start (Assembly.relocationsFrom start es) (es.flatMap CodeEntry.bytes) =
      some (es.filterMap CodeEntry.told?)
  | [], budget, start, _, _ => by cases budget <;> rfl
  | e :: es, budget, start, tellable, enough => by
    rw [Assembly.sizeOf_cons] at enough
    have tail : ∀ x ∈ es, x.Tellable := fun x hx => tellable x (List.mem_cons_of_mem _ hx)
    have later (budget : Nat) (enough : Assembly.sizeOf es ≤ budget) :=
      readReferringWithin_entries budget (start + e.size) tail enough
    rw [relocationsFrom_cons, List.flatMap_cons]
    cases told : e.told? with
    | none =>
      obtain ⟨label, rfl⟩ := eq_mark_of_told? (tellable e List.mem_cons_self) told
      rw [List.filterMap_cons_none told]
      exact later budget (by omega)
    | some d =>
      have some := size_pos_of_told told
      obtain ⟨budget, rfl⟩ : ∃ b, budget = b + 1 := ⟨budget - 1, by omega⟩
      obtain ⟨x, read, resolve⟩ := read?_told (tellable e List.mem_cons_self) told start
        (Assembly.relocationsFrom (start + e.size) es) (es.flatMap CodeEntry.bytes)
      have length : start + ((e.bytes ++ es.flatMap CodeEntry.bytes).length -
          (es.flatMap CodeEntry.bytes).length) = start + e.size := by
        simp [CodeEntry.size]
      have nonempty : e.bytes ++ es.flatMap CodeEntry.bytes ≠ [] := by
        intro empty
        have : e.size = 0 := by simp [CodeEntry.size, (List.append_eq_nil_iff.1 empty).1]
        omega
      rw [List.filterMap_cons_some told, readReferringWithin]
      · simp only [read, length, resolve, later budget (by omega), bind, Option.bind, pure]
      · exact nonempty

end Decoded

/-! ## All acts of writing -/

namespace Assembly

/-- **Code that can be told.** Besides its entries, the jumps to one label
have one form, so that a distance that fits one of them fits all. -/
structure Tellable (a : Assembly) : Prop where
  entries : ∀ e ∈ a.entries, e.Tellable
  labels : ∀ form l d, .jump form l d ∈ a.entries → l ≤ a.labels
  oneForm : ∀ form form' l d d', .jump form l d ∈ a.entries → .jump form' l d' ∈ a.entries →
    form = form'

theorem tellable_nil (keepListing : Bool) : Tellable { keepListing := keepListing } where
  entries _ he := nomatch he
  labels _ _ _ mem := nomatch mem
  oneForm _ _ _ _ _ mem := nomatch mem

variable {a b : Assembly}

/-- An entry that is no jump is written. -/
theorem Tellable.write (h : a.Tellable) {e : CodeEntry} (tellable : e.Tellable)
    (noJump : ∀ form l d, e ≠ .jump form l d) : (a.write e).Tellable := by
  have old {form : JumpForm} {l : Nat} {d : Int} (mem : .jump form l d ∈ a.entries ++ [e]) :
      .jump form l d ∈ a.entries :=
    (List.mem_append.1 mem).resolve_right fun last => noJump _ _ _ (List.mem_singleton.1 last).symm
  exact
    { entries := List.forall_mem_append.2 ⟨h.entries, List.forall_mem_singleton.2 tellable⟩
      labels := fun form l d mem => h.labels form l d (old mem)
      oneForm := fun form form' l d d' mem mem' => h.oneForm form form' l d d' (old mem) (old mem') }

/-- A jump is written with a label of its own. -/
theorem Tellable.jump (h : a.Tellable) (form : JumpForm) : (a.jump form).2.Tellable := by
  have cases_of {form' : JumpForm} {l : Nat} {d : Int}
      (mem : .jump form' l d ∈ a.entries ++ [.jump form (a.labels + 1) 0]) :
      (.jump form' l d ∈ a.entries ∧ l ≤ a.labels) ∨ (form' = form ∧ l = a.labels + 1) := by
    rcases List.mem_append.1 mem with old | new
    · exact .inl ⟨old, h.labels _ _ _ old⟩
    · cases List.mem_singleton.1 new
      exact .inr ⟨rfl, rfl⟩
  refine
    { entries := List.forall_mem_append.2 ⟨h.entries, List.forall_mem_singleton.2 ?_⟩
      labels := fun form' l d mem => ?_
      oneForm := fun f f' l d d' mem mem' => ?_ }
  · cases form <;> simp [CodeEntry.Tellable, JumpForm.width, fitsSigned]
  · change l ≤ a.labels + 1
    rcases cases_of mem with ⟨-, old⟩ | ⟨-, rfl⟩ <;> omega
  · rcases cases_of mem with ⟨old, le⟩ | ⟨rfl, rfl⟩ <;> rcases cases_of mem' with ⟨old', le'⟩ | ⟨rfl, same⟩
    · exact h.oneForm f f' l d d' old old'
    · omega
    · omega
    · rfl

/-- The jump that a label is looked up for. -/
theorem mem_of_findJump? {label : Nat} {form : JumpForm} {stop : Nat} :
    ∀ {es : List CodeEntry} {start : Nat}, findJump? label start es = some (form, stop) →
      ∃ d, .jump form label d ∈ es
  | [], _, h => by cases h
  | e :: es, start, h => by
    have later (h : findJump? label (start + e.size) es = some (form, stop)) :
        ∃ d, .jump form label d ∈ e :: es := by
      obtain ⟨d, mem⟩ := mem_of_findJump? h
      exact ⟨d, List.mem_cons_of_mem _ mem⟩
    cases e with
    | jump form' l d =>
      rw [findJump?] at h
      split at h
      · next here =>
        cases h
        exact ⟨d, here ▸ List.mem_cons_self⟩
      · exact later h
    | _ => exact later h

theorem jump_of_setDistance {label l : Nat} {distance d : Int} {form : JumpForm} {e : CodeEntry}
    (h : setDistance label distance e = .jump form l d) :
    ∃ d', e = .jump form l d' ∧ d = if l = label then distance else d' := by
  cases e with
  | jump form' l' d' =>
    cases h
    exact ⟨d', rfl, rfl⟩
  | _ => cases h

/-- Binding a label leaves code that can be told. -/
theorem Tellable.bind (h : a.Tellable) {label : Nat} (run : a.bind label = .ok b) : b.Tellable := by
  rw [Assembly.bind] at run
  split at run
  · cases run
    exact h
  · next form stop found =>
    obtain ⟨d₀, target⟩ := mem_of_findJump? found
    dsimp only at run
    split at run
    · next fits =>
      cases run
      have old {form' : JumpForm} {l : Nat} {d : Int} (mem : .jump form' l d ∈
          a.entries.map (setDistance label ((a.size : Int) - stop)) ++ [.mark label]) :
          ∃ d', .jump form' l d' ∈ a.entries := by
        rcases List.mem_append.1 mem with mem | mem
        · obtain ⟨e, he, same⟩ := List.mem_map.1 mem
          obtain ⟨d', rfl, -⟩ := jump_of_setDistance same
          exact ⟨d', he⟩
        · cases List.mem_singleton.1 mem
      refine
        { entries := fun e he => ?_
          labels := fun form' l d mem => ?_
          oneForm := fun f f' l d d' mem mem' => ?_ }
      · rcases List.mem_append.1 he with he | he
        · obtain ⟨e, known, rfl⟩ := List.mem_map.1 he
          have tellable := h.entries e known
          cases e with
          | jump form' l d =>
            by_cases same : l = label
            · subst same
              rw [h.oneForm _ _ _ _ _ known target]
              simpa [setDistance, CodeEntry.Tellable] using fits
            · simpa [setDistance, CodeEntry.Tellable, same] using tellable
          | _ => exact tellable
        · rw [List.mem_singleton.1 he]
          trivial
      · obtain ⟨d', mem⟩ := old mem
        exact h.labels form' l d' mem
      · obtain ⟨e, mem⟩ := old mem
        obtain ⟨e', mem'⟩ := old mem'
        exact h.oneForm f f' l e e' mem mem'
    · cases run

/-- The steps that code tells, without the distances of its jumps. -/
def steps (a : Assembly) : List Decoded := a.entries.filterMap CodeEntry.told?

theorem steps_write (a : Assembly) (e : CodeEntry) : (a.write e).steps = a.steps ++ e.told?.toList := by
  cases told : e.told? <;> simp [steps, write, told]

theorem unbound_setDistance (label : Nat) (distance : Int) (es : List CodeEntry) :
    ((es.map (setDistance label distance)).filterMap CodeEntry.told?).map Decoded.unbound =
      (es.filterMap CodeEntry.told?).map Decoded.unbound := by
  rw [List.map_filterMap, List.map_filterMap, List.filterMap_map]
  congr 1
  funext e
  cases e <;> rfl

/-- Binding a label changes distances alone. -/
theorem steps_bind {label : Nat} (run : a.bind label = .ok b) :
    b.steps.map Decoded.unbound = a.steps.map Decoded.unbound := by
  rw [Assembly.bind] at run
  split at run
  · cases run
    rfl
  · dsimp only at run
    split at run
    · cases run
      rw [steps, List.filterMap_append, List.map_append, unbound_setDistance]
      exact List.append_nil _
    · cases run

/-- **One act of writing** keeps the code such that it can be told, and
tells one step more, if it emits one. -/
theorem Tellable.step (h : a.Tellable) {action : Action} (ok : action.Tellable = true)
    (run : a.step action = .ok b) :
    b.Tellable ∧ b.steps.map Decoded.unbound =
        a.steps.map Decoded.unbound ++ action.decoded?.toList ∧
      ((∀ l, action ≠ .bind l) → b.steps = a.steps ++ action.decoded?.toList) := by
  -- all but binding only adds to the steps, without a distance
  have adds (b : Assembly) (tellable : b.Tellable) (more : b.steps = a.steps ++ action.decoded?.toList) :
      b.Tellable ∧ b.steps.map Decoded.unbound =
          a.steps.map Decoded.unbound ++ action.decoded?.toList ∧
        ((∀ l, action ≠ .bind l) → b.steps = a.steps ++ action.decoded?.toList) := by
    refine ⟨tellable, ?_, fun _ => more⟩
    rw [more, List.map_append]
    cases action <;> rfl
  cases action with
  | emit i text =>
    cases run
    exact adds _ (h.write ok nofun) (steps_write a _)
  | raw bytes text => cases ok
  | ret =>
    cases run
    exact adds _ (h.write trivial nofun) (steps_write a _)
  | cdq =>
    cases run
    exact adds _ (h.write trivial nofun) (steps_write a _)
  | call target =>
    cases run
    exact adds _ (h.write trivial nofun) (steps_write a _)
  | jump form =>
    cases run
    exact adds _ (h.jump form) (steps_write a _)
  | bind label =>
    refine ⟨h.bind run, ?_, fun none => absurd rfl (none label)⟩
    rw [steps_bind run]
    exact (List.append_nil _).symm

/-- Only binding fails, and it tells nothing. -/
theorem step_error {action : Action} {e : Error} (run : a.step action = .error e) :
    ∃ l, action = .bind l := by
  cases action with
  | bind l => exact ⟨l, rfl⟩
  | _ => cases run

/-- **All acts of writing** tell their steps. -/
theorem Tellable.afterAll (h : a.Tellable) {actions : List Action}
    (ok : ∀ action ∈ actions, action.Tellable = true) :
    (a.afterAll actions).Tellable ∧
      (a.afterAll actions).steps.map Decoded.unbound =
        a.steps.map Decoded.unbound ++ actions.filterMap Action.decoded? ∧
      ((∀ l, .bind l ∉ actions) →
        (a.afterAll actions).steps = a.steps ++ actions.filterMap Action.decoded?) := by
  induction actions generalizing a with
  | nil => simpa [Assembly.afterAll] using h
  | cons action actions ih =>
    have later := fun x hx => ok x (List.mem_cons_of_mem action hx)
    cases run : a.step action with
    | error e =>
      obtain ⟨l, rfl⟩ := step_error run
      obtain ⟨tellable, unbound, -⟩ := ih h later
      have same : a.afterAll (.bind l :: actions) = a.afterAll actions := by
        simp [Assembly.afterAll, run]
      rw [same]
      exact ⟨tellable, unbound, fun none => absurd List.mem_cons_self (none l)⟩
    | ok b =>
      obtain ⟨one, two, three⟩ := h.step (ok action List.mem_cons_self) run
      obtain ⟨tellable, unbound, plain⟩ := ih one later
      have same : a.afterAll (action :: actions) = b.afterAll actions := by
        simp [Assembly.afterAll, run]
      have split : (action :: actions).filterMap Action.decoded? =
          action.decoded?.toList ++ actions.filterMap Action.decoded? := by
        cases told : action.decoded? <;> simp [told]
      rw [same, split]
      refine ⟨tellable, by rw [unbound, two, List.append_assoc], fun none => ?_⟩
      rw [plain fun l mem => none l (List.mem_cons_of_mem _ mem),
        three fun l same => none l (same ▸ List.mem_cons_self), List.append_assoc]

/-- What can be told is read back from its bytes and relocations. -/
theorem Tellable.read (h : a.Tellable) :
    Decoded.readReferring? a.relocations a.code = some a.steps :=
  Decoded.readReferringWithin_entries _ 0 h.entries (Nat.le_of_eq a.length_code.symm)

/-- **The encoding is uniquely decodable.** Whatever is written, its bytes
and relocations are read to their end, as the steps that were emitted, in
their order. Where labels are bound in between, the distances of their
jumps are those they were bound to, and without a binding they are the
zeros that were written. -/
theorem readReferring?_afterAll (keepListing : Bool) {actions : List Action}
    (ok : ∀ action ∈ actions, action.Tellable = true) :
    ∃ steps, Decoded.readReferring? (afterAll { keepListing } actions).relocations
        (afterAll { keepListing } actions).code = some steps ∧
      steps.map Decoded.unbound = actions.filterMap Action.decoded? ∧
      ((∀ l, .bind l ∉ actions) → steps = actions.filterMap Action.decoded?) := by
  obtain ⟨tellable, unbound, plain⟩ := (tellable_nil keepListing).afterAll ok
  exact ⟨_, tellable.read, unbound, plain⟩

/-- A store to local memory, a comparison of a global with a byte behind
its displacement, a jump over a call, and shifts that only their digits
tell apart. -/
def sampleActions : List Action :=
  [.emit ⟨.movssStore, 3, .localAt 16, []⟩ "", .emit ⟨.cmpImm8, 0, .globalAt 64, [5]⟩ "",
    .jump (.shortWhen .less), .call "f", .bind 1, .emit ⟨.psrldq, 0, .register 2, [4]⟩ "",
    .emit ⟨.pslldq, 0, .register 2, [4]⟩ "", .emit ⟨.add64, 1, .indirect 7, []⟩ "", .jump .always,
    .cdq, .ret]

theorem readReferring?_sampleActions :
    (∀ action ∈ sampleActions, action.Tellable = true) ∧
      ∃ steps, Decoded.readReferring? (afterAll { keepListing := false } sampleActions).relocations
          (afterAll { keepListing := false } sampleActions).code = some steps ∧
        steps.length = 10 ∧
        steps.map Decoded.unbound = sampleActions.filterMap Action.decoded? := by
  have ok : ∀ action ∈ sampleActions, action.Tellable = true := by decide
  obtain ⟨steps, read, unbound, -⟩ := readReferring?_afterAll false ok
  refine ⟨ok, steps, read, ?_, unbound⟩
  have := congrArg List.length unbound
  rw [List.length_map] at this
  exact this

/-- **Code and relocations determine what was emitted**, when no label is
bound. -/
theorem decoded?_inj (keepListing keepListing' : Bool) {actions actions' : List Action}
    (ok : ∀ action ∈ actions, action.Tellable = true)
    (ok' : ∀ action ∈ actions', action.Tellable = true)
    (unbound : ∀ l, .bind l ∉ actions) (unbound' : ∀ l, .bind l ∉ actions')
    (code : (afterAll { keepListing } actions).code =
      (afterAll { keepListing := keepListing' } actions').code)
    (relocations : (afterAll { keepListing } actions).relocations =
      (afterAll { keepListing := keepListing' } actions').relocations) :
    actions.filterMap Action.decoded? = actions'.filterMap Action.decoded? := by
  obtain ⟨tellable, -, plain⟩ := (tellable_nil keepListing).afterAll ok
  obtain ⟨tellable', -, plain'⟩ := (tellable_nil keepListing').afterAll ok'
  have same := tellable.read
  rw [code, relocations, tellable'.read, plain unbound, plain' unbound'] at same
  exact (Option.some.inj same).symm

end Assembly

end Shading
