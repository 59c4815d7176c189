import Shading.Program
import Shading.Proofs.Discipline.Jumps

/-!
# Masks

An instruction that combines the bits of a register with those of an operand
in memory reads a mask. The code tells by the entry in front of it which mask
that has to be (`maskBehind`):

| instruction | behind              | mask                               |
|-------------|---------------------|------------------------------------|
| `xorps`     | anything            | the sign bits                      |
| `andps`     | `mulps`             | the first three lanes              |
| `andps`     | `pslldq` by 4·*k*   | all lanes but lane *k*             |
| `andps`     | `andps`             | all lanes but the first            |
| `andps`     | any other entry     | the first lane                     |

The masks that some code reads are listed in their order (`masksRead`), by
the code alone. Whether the pool has them is another question.
-/

namespace Shading

/-! ## Masks -/

/-- Whether an opcode combines bits. -/
def Opcode.isBitwise : Opcode → Bool
  | andps | orps | xorps => true
  | _ => false

/-- Whether an operand is in memory. -/
def Operand.isInMemory : Operand Nat → Bool
  | register _ => false
  | _ => true

/-- **Whether an instruction reads a mask**: it combines the bits of a
register with those of an operand in memory. -/
def Instruction.readsMask (i : Instruction Nat) : Bool := i.opcode.isBitwise && i.rm.isInMemory

/-- The mask for the lanes that an `andps` keeps behind another
instruction. -/
def laneMaskBehind (before : Instruction Nat) : Lanes :=
  match before.opcode with
  | .mulps => xyzMask
  | .pslldq => clearMask (ofLittleEndian before.immediate / 4)
  | .andps => clearMask 0
  | _ => lane0Mask

/-- **The mask that a bitwise instruction calls for** behind an entry. -/
def maskBehind (before : Option CodeEntry) : Opcode → Option Lanes
  | .xorps => some signMask
  | .andps => some (((before.bind CodeEntry.instruction?).map laneMaskBehind).getD lane0Mask)
  | _ => none

/-- The mask that an entry reads behind another one, if it reads one. -/
def maskRead (before : Option CodeEntry) (e : CodeEntry) : Option Lanes :=
  e.instruction?.bind fun i => if i.readsMask then maskBehind before i.opcode else none

/-- **The masks that some code reads**, in order, behind an entry. -/
def masksRead (before : Option CodeEntry) : List CodeEntry → List Lanes
  | [] => []
  | e :: es => (maskRead before e).toList ++ masksRead (some e) es

theorem maskRead_eq_none {e : CodeEntry} (plain : ∀ i, e.instruction? = some i → i.readsMask = false)
    (before : Option CodeEntry) : maskRead before e = none := by
  cases written : e.instruction? with
  | none => simp [maskRead, written]
  | some i => simp [maskRead, written, plain i written]

/-- Only the instruction of the entry in front matters. -/
theorem maskBehind_congr {before before' : Option CodeEntry}
    (same : before.bind CodeEntry.instruction? = before'.bind CodeEntry.instruction?) (o : Opcode) :
    maskBehind before o = maskBehind before' o := by
  unfold maskBehind
  rw [same]

/-- The masks do not depend on distances. -/
theorem masksRead_map {f : CodeEntry → CodeEntry} (same : ∀ e, (f e).instruction? = e.instruction?) :
    ∀ (es : List CodeEntry) (before : Option CodeEntry), masksRead (before.map f) (es.map f) = masksRead before es
  | [], _ => rfl
  | e :: es, before => by
    have front : (before.map f).bind CodeEntry.instruction? = before.bind CodeEntry.instruction? := by
      cases before with
      | none => rfl
      | some x => exact same x
    have here : maskRead (before.map f) (f e) = maskRead before e := by
      simp only [maskRead, same e, maskBehind_congr front]
    rw [List.map_cons, masksRead, masksRead, here]
    exact congrArg _ (masksRead_map same es (some e))

/-- An entry behind some code may read one more. -/
theorem masksRead_concat (e : CodeEntry) : ∀ (es : List CodeEntry) (before : Option CodeEntry),
    masksRead before (es ++ [e]) = masksRead before es ++ (maskRead (es.getLast?.or before) e).toList
  | [], before => by simp [masksRead]
  | x :: es, before => by
    rw [List.cons_append, masksRead, masksRead, masksRead_concat e es (some x), List.append_assoc]
    cases es with
    | nil => rfl
    | cons y es =>
      rw [List.getLast?_cons_cons, List.getLast?_cons]
      rfl

namespace Lower

variable {s : LoweringState}

/-! ## The code so far -/

/-- The code so far ends with an instruction of an opcode. -/
def EndsWith (o : Opcode) (s : LoweringState) : Prop :=
  ∃ i text, s.assembly.entries.getLast? = some (.instruction i text) ∧ i.opcode = o

theorem endsWith_wrote (s : LoweringState) (i : Instruction Nat) (text : String) : EndsWith i.opcode (wrote s i text) :=
  ⟨i, text, List.getLast?_concat, rfl⟩

/-- Behind most instructions an `andps` keeps the first lane. -/
theorem maskBehind_of_endsWith {o : Opcode} (ends : EndsWith o s) {lanes : Lanes}
    (behind : ∀ i : Instruction Nat, i.opcode = o → laneMaskBehind i = lanes) :
    maskBehind s.assembly.entries.getLast? .andps = some lanes := by
  obtain ⟨i, text, last, opcode⟩ := ends
  rw [maskBehind, last]
  exact congrArg some (behind i opcode)

/-! ## Emission -/

/-- **An instruction that is emitted** has the fields of its places. -/
theorem emit_results (o : Opcode) (reg rm : Location) (immediate : List UInt8) :
    Results (emit o reg rm immediate) s fun _ t => ∃ id p text, registerField reg = .ok id ∧
      operandOf rm = .ok p ∧ t = wrote s ⟨o, id, p, immediate⟩ text := by
  intro u t run
  unfold emit at run
  obtain ⟨id, s₁, field, run⟩ := bind_eq_ok.1 run
  obtain ⟨p, s₂, operand, run⟩ := bind_eq_ok.1 run
  cases hf : registerField reg with
  | error e => rw [hf] at field; cases field
  | ok id' =>
    cases hp : operandOf rm with
    | error e => rw [hp] at operand; cases operand
    | ok p' =>
      rw [hf] at field
      rw [hp] at operand
      cases field
      cases operand
      cases run
      exact ⟨_, _, _, rfl, rfl, rfl⟩

theorem emitUnary_results (o : Opcode) (rm : Location) (immediate : List UInt8) :
    Results (emitUnary o rm immediate) s fun _ t => ∃ p text, operandOf rm = .ok p ∧
      t = wrote s ⟨o, 0, p, immediate⟩ text := by
  intro u t run
  unfold emitUnary at run
  obtain ⟨p, s₁, operand, run⟩ := bind_eq_ok.1 run
  cases hp : operandOf rm with
  | error e => rw [hp] at operand; cases operand
  | ok p' =>
    rw [hp] at operand
    cases operand
    cases run
    exact ⟨_, _, rfl, rfl⟩

/-! ## Constants -/

theorem constant_known {c : Constant} {offset : Nat} (known : s.constants.offset? c = some offset) :
    constant c s = .ok (.globalMemory offset, s) := by
  refine bind_eq_ok.2 ⟨s, s, rfl, ?_⟩
  rw [known]
  rfl

theorem constant_new {c : Constant} (absent : s.constants.offset? c = none) :
    ∃ offset layout, constant c s =
      .ok (.globalMemory offset, { s with layout, constants := s.constants.add c offset }) := by
  refine ⟨(s.layout.globalRegion.allocate c.size).1, (s.layout.allocate .global c.size).2, ?_⟩
  refine bind_eq_ok.2 ⟨s, s, rfl, ?_⟩
  rw [absent]
  rfl

/-- **A constant is looked up or joins the pool**, behind all that were
used before it. -/
theorem constant_eq_ok {c : Constant} {l : Location} {t : LoweringState} (run : constant c s = .ok (l, t)) :
    ∃ offset, l = .globalMemory offset ∧ t.assembly = s.assembly ∧
      ((s.constants.offset? c = some offset ∧ t = s) ∨
        s.constants.offset? c = none ∧ ∃ layout, t = { s with layout, constants := s.constants.add c offset }) := by
  cases known : s.constants.offset? c with
  | some offset =>
    rw [constant_known known] at run
    cases run
    exact ⟨offset, rfl, rfl, .inl ⟨rfl, rfl⟩⟩
  | none =>
    obtain ⟨offset, layout, eq⟩ := constant_new known
    rw [eq] at run
    cases run
    exact ⟨offset, rfl, rfl, .inr ⟨rfl, layout, rfl⟩⟩

theorem isBitwise_load (w : Width) : w.load.isBitwise = false := by cases w <;> rfl

theorem isBitwise_store (w : Width) : w.store.isBitwise = false := by cases w <;> rfl

/-! ## Lanes -/

/-- A lease is for a register that no location to avoid occupies. -/
theorem avoids_of_lease {l l' : Layout} {c : RegisterClass} {avoid : List Location} {x : Lease}
    (leased : l.lease c avoid = .ok (x, l')) : ∃ id, x.location = c.location id ∧ ∀ a ∈ avoid, a.occupies c id = false := by
  unfold Layout.lease at leased
  split at leased
  · next id found =>
    cases leased
    have free := List.find?_some found
    exact ⟨id, rfl, by simpa [Layout.conflicts] using free⟩
  · split at leased
    · next id found =>
      cases leased
      have apart := List.find?_some found
      exact ⟨id, rfl, by simpa [Layout.conflicts] using (Bool.and_eq_true_iff.1 apart).1⟩
    · cases leased

/-- **A leased register** is none that was to be avoided. -/
theorem acquire_avoids (c : RegisterClass) (avoid : List Location) :
    Results (acquire c avoid) s fun x _ => ∃ id, x.location = c.location id ∧ ∀ a ∈ avoid, a.occupies c id = false := by
  unfold acquire
  refine .bindGet ?_
  have granted : Results (liftM (s.layout.lease c avoid) : Lower (Lease × Layout)) s fun p _ =>
      ∃ id, p.1.location = c.location id ∧ ∀ a ∈ avoid, a.occupies c id = false := by
    intro p t run
    cases leased : s.layout.lease c avoid with
    | error e =>
      rw [leased] at run
      cases run
    | ok q =>
      rw [leased] at run
      cases run
      exact avoids_of_lease leased
  refine granted.bind ?_
  rintro ⟨x, l⟩ t known
  refine .bind (Q := fun _ _ => True) (fun _ _ _ => trivial) fun _ _ _ => ?_
  refine .bind (Q := fun _ _ => True) (fun _ _ _ => trivial) fun _ u _ => ?_
  dsimp only
  split
  · exact .bind (Q := fun _ _ => True) (fun _ _ _ => trivial) fun _ _ _ => .pure known
  · exact .pure known

/-- The byte that a lane is shifted by tells the lane. -/
theorem clearMask_ofNat (shift : Nat) :
    clearMask (ofLittleEndian [UInt8.ofNat shift] / 4) = clearMask (shift / 4) := by
  have lane : ofLittleEndian [UInt8.ofNat shift] / 4 % 4 = shift / 4 % 4 := by
    simp only [ofLittleEndian, UInt8.toNat_ofNat']
    omega
  rw [clearMask, clearMask, lane]

/-- What an `andps` behind a load or a conversion keeps is the first lane. -/
theorem maskBehind_of_plain {o : Opcode} (ends : EndsWith o s) (mulps : o ≠ .mulps) (pslldq : o ≠ .pslldq)
    (andps : o ≠ .andps) : maskBehind s.assembly.entries.getLast? .andps = some lane0Mask := by
  refine maskBehind_of_endsWith ends ?_
  rintro ⟨opcode, reg, rm, immediate⟩ rfl
  cases opcode <;> first | rfl | contradiction

/-- The last instruction of a store into an SSE register that the value is
not in. -/
theorem storeFloat_ends_plain {id : Nat} {v : Value} (apart : v.location.occupies .simd id = false) :
    Results (storeWhole (.simdRegister id) .float v) s fun _ t =>
      maskBehind t.assembly.entries.getLast? .andps = some lane0Mask := by
  have emitted (o : Opcode) (rm : Location) (mulps : o ≠ .mulps) (pslldq : o ≠ .pslldq) (andps : o ≠ .andps) :
      Results (emit o (.simdRegister id) rm) s fun _ t =>
        maskBehind t.assembly.entries.getLast? .andps = some lane0Mask := by
    refine (emit_results o _ _ []).mono ?_
    rintro _ _ ⟨_, p, text, -, -, rfl⟩
    exact maskBehind_of_plain (endsWith_wrote s _ text) mulps pslldq andps
  unfold storeWhole
  split
  · refine .bind (Q := fun r t => r = (.simdRegister id, none) ∧ t = s) (.pure ⟨rfl, rfl⟩) ?_
    rintro _ _ ⟨rfl, rfl⟩
    exact (emitted .cvtsi2ss _ nofun nofun nofun).bind fun _ t h => .pure h
  · next eq _ => cases eq
  · rw [if_neg (by decide), transfer, if_neg ?_, if_pos (show (Location.simdRegister id).isRegister = true from rfl)]
    · exact emitted .movssLoad _ nofun nofun nofun
    · rintro same
      rw [← same] at apart
      simp [Location.occupies, Location.registerOf?] at apart

end Lower

end Shading
