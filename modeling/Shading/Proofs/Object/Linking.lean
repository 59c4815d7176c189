import Shading.Assembly
import Shading.Proofs.Assembly.Labels
import Shading.Proofs.Instruction.Encoding

/-!
# Linked code

When code gets its place in an object its open references are filled in,
each in the four bytes that the instruction left for it
(`applyRelocations_eq_ok`). What comes out is the code with the displacement
of every global operand in place (`Assembly.linkedCode`), and it reads
back as the instructions that were emitted (`Decoded.readAllWithin_linkedCode`):
a displacement leads from the end of its instruction to the target that was
recorded, whatever immediate stands between (`reach_displacement`).
-/

namespace Shading

/-! ## Displacements -/

/-- The field of a displacement from the end of an instruction to a
place. -/
def displacement (stop target : Nat) : Nat := wordOfInt ((target : Int) - stop)

theorem displacement_lt (stop target : Nat) : displacement stop target < 2 ^ 32 := by
  simp only [displacement, wordOfInt]
  omega

/-- **A displacement leads to its place** if it holds the distance. -/
theorem reach_displacement {stop target : Nat} (fits : fitsSigned 32 ((target : Int) - stop) = true) :
    (stop : Int) + signedValue 32 (displacement stop target) = target := by
  simp only [fitsSigned, Bool.and_eq_true, decide_eq_true_eq] at fits
  simp only [signedValue, displacement, wordOfInt, Int.bmod_def]
  split <;> omega

theorem fitsSigned_distance {stop target : Nat} (hs : stop < 2 ^ 31) (ht : target < 2 ^ 31) :
    fitsSigned 32 ((target : Int) - stop) = true := by
  simp only [fitsSigned, Bool.and_eq_true, decide_eq_true_eq]
  omega

/-! ## Relocations -/

theorem overwrite_append (xs : List UInt8) {ys ys' : List UInt8} (zs : List UInt8) (same : ys.length = ys'.length) :
    overwrite (xs ++ ys ++ zs) xs.length ys' = xs ++ ys' ++ zs := by
  rw [overwrite, ← same]
  simp [List.drop_append]

namespace CodeEntry

/-- The bytes of an entry at an offset of the object, with the displacement
of a global operand. -/
def linkedBytes (start : Nat) (e : CodeEntry) : List UInt8 :=
  match e with
  | .instruction i _ => i.encodeWith (displacement (start + e.size))
  | e => e.bytes

theorem length_encodeWith {γ : Type} (place place' : γ → Nat) (i : Instruction γ) :
    (i.encodeWith place).length = (i.encodeWith place').length := by
  obtain ⟨o, reg, rm, immediate⟩ := i
  cases rm <;> simp [Instruction.encodeWith, Operand.encode, wordBytes]

@[simp] theorem length_linkedBytes (start : Nat) (e : CodeEntry) : (e.linkedBytes start).length = e.size := by
  cases e with
  | instruction i text => exact length_encodeWith _ _ i
  | _ => rfl

end CodeEntry

namespace Assembly

/-- **The bytes of code at an offset of the object**, with the displacements
of its global operands. -/
def linkedCode : Nat → List CodeEntry → List UInt8
  | _, [] => []
  | start, e :: es => e.linkedBytes start ++ linkedCode (start + e.size) es

@[simp] theorem length_linkedCode (start : Nat) (es : List CodeEntry) :
    (linkedCode start es).length = sizeOf es := by
  induction es generalizing start with
  | nil => rfl
  | cons e es ih => simp [linkedCode, ih]

/-- The global operands of some entries lie within reach. -/
def Near (es : List CodeEntry) : Prop :=
  ∀ i text target, .instruction i text ∈ es → i.rm = .globalAt target → target < 2 ^ 31

/-- **Filling in the references** of an instruction. -/
theorem overwrite_instruction {i : Instruction Nat} {target : Nat} (rm : i.rm = .globalAt target) (base : Nat)
    (front behind : List UInt8) :
    overwrite (front ++ i.encode ++ behind) (front.length + i.encode.length - i.immediate.length - 4)
        (wordBytes (wordOfInt ((target : Int) - (base + (front.length + i.encode.length) : Nat)))) =
      front ++ i.encodeWith (displacement (base + front.length + i.encode.length)) ++ behind := by
  obtain ⟨o, reg, _, immediate⟩ := i
  obtain rfl := rm
  have position : front.length + (Instruction.encode ⟨o, reg, .globalAt target, immediate⟩).length -
      immediate.length - 4 =
        (front ++ o.header ++ [UInt8.ofNat (8 * Instruction.field ⟨o, reg, .globalAt target, immediate⟩ + 5)]).length := by
    simp [Instruction.encode, Instruction.encodeWith, Operand.encode, wordBytes]
    omega
  rw [position]
  have fill (n : Nat) : front ++ Instruction.encodeWith (fun _ => n) ⟨o, reg, .globalAt target, immediate⟩ ++ behind =
      (front ++ o.header ++ [UInt8.ofNat (8 * Instruction.field ⟨o, reg, .globalAt target, immediate⟩ + 5)]) ++
        wordBytes n ++ (immediate ++ behind) := by
    simp [Instruction.encodeWith, Operand.encode]
  rw [Instruction.encode, fill, overwrite_append _ _ (by simp [wordBytes]), ← fill, ← Nat.add_assoc]
  rfl

/-- **Every displacement holds its distance**: from the end of an instruction
of code at an offset of the object to the place that it refers to. -/
def Reaching : Nat → List CodeEntry → Prop
  | _, [] => True
  | start, e :: es =>
    (∀ i text target, e = .instruction i text → i.rm = .globalAt target →
      fitsSigned 32 ((target : Int) - (start + e.size : Nat)) = true) ∧ Reaching (start + e.size) es

/-- Displacements within two gigabytes hold their distances. -/
theorem reaching_of_near : ∀ {es : List CodeEntry} {start : Nat}, Near es → start + sizeOf es < 2 ^ 31 →
    Reaching start es
  | [], _, _, _ => trivial
  | e :: es, start, near, small => by
    rw [sizeOf_cons] at small
    refine ⟨fun i text target here rm => fitsSigned_distance (by omega) ?_, reaching_of_near ?_ (by omega)⟩
    · exact near i text target (here ▸ List.mem_cons_self) rm
    · exact fun i text target mem => near i text target (List.mem_cons_of_mem _ mem)

/-- **The references of code are filled in**, between other bytes, just when
every displacement holds its distance. -/
theorem applyRelocations_eq_ok (base : Nat) : ∀ {es : List CodeEntry} (front behind : List UInt8) {out : List UInt8},
    applyRelocations base (relocationsFrom front.length es) (front ++ es.flatMap CodeEntry.bytes ++ behind) = .ok out ↔
      Reaching (base + front.length) es ∧ out = front ++ linkedCode (base + front.length) es ++ behind
  | [], front, behind, out => by simp [relocationsFrom, applyRelocations, linkedCode, Reaching, eq_comm]
  | e :: es, front, behind, out => by
    -- The induction goes along the entries, with the bytes in front of the current one
    -- as they are after their relocations.
    have later (bytes : List UInt8) (length : bytes.length = e.size) :
        applyRelocations base (relocationsFrom (front.length + e.size) es)
            (front ++ bytes ++ (es.flatMap CodeEntry.bytes ++ behind)) = .ok out ↔
          Reaching (base + front.length + e.size) es ∧
            out = front ++ bytes ++ (linkedCode (base + front.length + e.size) es ++ behind) := by
      have size : (front ++ bytes).length = front.length + e.size := by simp [length]
      have ih := @applyRelocations_eq_ok base es (front ++ bytes) behind out
      rw [size, ← Nat.add_assoc, List.append_assoc, List.append_assoc (front ++ bytes)] at ih
      exact ih
    rw [linkedCode, List.flatMap_cons, Reaching]
    have plain (same : e.linkedBytes (base + front.length) = e.bytes)
        (noReference : ∀ i text target, e = .instruction i text → i.rm = .globalAt target → False) :
        applyRelocations base (relocationsFrom (front.length + e.size) es)
            (front ++ (e.bytes ++ es.flatMap CodeEntry.bytes) ++ behind) = .ok out ↔
          ((∀ i text target, e = .instruction i text → i.rm = .globalAt target →
              fitsSigned 32 ((target : Int) - (base + front.length + e.size : Nat)) = true) ∧
            Reaching (base + front.length + e.size) es) ∧
          out = front ++ (e.linkedBytes (base + front.length) ++ linkedCode (base + front.length + e.size) es) ++
            behind := by
      have first : ∀ i text target, e = .instruction i text → i.rm = .globalAt target →
          fitsSigned 32 ((target : Int) - (base + front.length + e.size : Nat)) = true :=
        fun i text target here rm => (noReference i text target here rm).elim
      rw [same, and_iff_right first]
      simpa [List.append_assoc] using later e.bytes rfl
    cases e with
    | instruction i text =>
      -- Only an operand in the global region is relocated; its four bytes stand in
      -- front of the immediate.
      cases rm : i.rm with
      | globalAt target =>
        have list : (i.relocation? front.length).toList = [⟨front.length + i.encode.length - i.immediate.length - 4,
            target, front.length + i.encode.length⟩] := by
          simp [Instruction.relocation?, rm]
        have filled := overwrite_instruction rm base front (es.flatMap CodeEntry.bytes ++ behind)
        have code : front ++ ((CodeEntry.instruction i text).bytes ++ es.flatMap CodeEntry.bytes) ++ behind =
            front ++ i.encode ++ (es.flatMap CodeEntry.bytes ++ behind) := by
          simp [CodeEntry.bytes]
        have first : (∀ j text' target', CodeEntry.instruction i text = .instruction j text' →
            j.rm = .globalAt target' → fitsSigned 32
              ((target' : Int) - (base + front.length + (CodeEntry.instruction i text).size : Nat)) = true) ↔
            fitsSigned 32 ((target : Int) - (base + (front.length + i.encode.length) : Nat)) = true := by
          rw [← Nat.add_assoc]
          refine ⟨fun all => all i text target rfl rm, fun fits j text' target' here rm' => ?_⟩
          cases here
          rw [rm] at rm'
          cases rm'
          exact fits
        change applyRelocations base ((i.relocation? front.length).toList ++ _) _ = _ ↔ _
        rw [list, code, List.singleton_append, applyRelocations, first]
        split
        · next fits =>
          have rest := later (i.encodeWith (displacement (base + front.length + i.encode.length)))
            (CodeEntry.length_encodeWith _ _ i)
          rw [filled, and_iff_right fits]
          simpa [CodeEntry.linkedBytes, CodeEntry.size, CodeEntry.bytes, List.append_assoc] using rest
        · next far => exact iff_of_false (by rintro ⟨⟩) fun both => far both.1.1
      | _ =>
        have none : i.relocation? front.length = .none := by simp [Instruction.relocation?, rm]
        change applyRelocations base ((i.relocation? front.length).toList ++ _) _ = _ ↔ _
        rw [none]
        refine plain ?_ fun j text' target here rm' => ?_
        · simp [CodeEntry.linkedBytes, CodeEntry.bytes, Instruction.encode, Instruction.encodeWith, rm, Operand.encode]
        · cases here
          rw [rm] at rm'
          cases rm'
    | _ => exact plain rfl (by rintro _ _ _ ⟨⟩)

end Assembly

/-! ## Reading -/

/-- **An entry as it is read** at an offset of the object. A mark has no
bytes, and the call of a function is not linked yet. -/
def CodeEntry.decoded? (start : Nat) (e : CodeEntry) : Option Decoded :=
  match e with
  | .instruction i _ => some (.op (i.linked (displacement (start + e.size))))
  | .jump form _ distance => some (.jump form distance)
  | .ret => some .ret
  | .cdq => some .cdq
  | _ => none

/-- Entries as they are read. -/
def Assembly.decoded : Nat → List CodeEntry → List Decoded
  | _, [] => []
  | start, e :: es => (e.decoded? start).toList ++ decoded (start + e.size) es

/-- An entry that its bytes can tell. -/
def CodeEntry.Readable : CodeEntry → Prop
  | .instruction i _ => i.Encodable = true
  | .jump form _ distance => fitsSigned (8 * form.width) distance = true
  | .ret | .cdq | .mark _ => True
  | .raw _ _ | .call _ => False

namespace Decoded

theorem signedValue_wordOfInt {d : Int} (fits : fitsSigned 32 d = true) :
    signedValue 32 (ofLittleEndian (wordBytes (wordOfInt d))) = d := by
  simp only [fitsSigned, Bool.and_eq_true, decide_eq_true_eq] at fits
  rw [wordBytes, ofLittleEndian_littleEndian]
  simp only [signedValue, wordOfInt, Int.bmod_def]
  split <;> omega

theorem ofCode?_code (c : Condition) : Condition.ofCode? c.code = some c := by cases c <;> rfl

/-- **A jump is read back.** -/
theorem read?_jump {form : JumpForm} (label : Nat) {d : Int} (fits : fitsSigned (8 * form.width) d = true)
    (rest : List UInt8) :
    read? ((CodeEntry.jump form label d).bytes ++ rest) = some (.jump form d, rest) := by
  cases form with
  | always =>
    have word := take?_word (wordOfInt d) rest
    have value := signedValue_wordOfInt fits
    rw [wordBytes] at word value
    simp [read?, CodeEntry.bytes, JumpForm.header, JumpForm.width, readControl?, word, value]
  | when c =>
    have word := take?_word (wordOfInt d) rest
    have value := signedValue_wordOfInt fits
    rw [wordBytes] at word value
    have mode : (0x80 + c.code).toNat / 16 = 8 := by cases c <;> decide
    have code : 0x80 + c.code - 0x80 = c.code := by cases c <;> decide
    simp only [read?, CodeEntry.bytes, JumpForm.header, JumpForm.width, List.cons_append, List.nil_append,
      readControl?, mode, if_true, code, ofCode?_code, word, bind, Option.bind, pure, value]
  | shortWhen c =>
    have byte : signedValue 8 (wordOfInt d % 256) = d := by
      have bounds : -128 ≤ d ∧ d < 128 := by simpa [fitsSigned, JumpForm.width] using fits
      simp only [signedValue, wordOfInt, Int.bmod_def]
      split <;> omega
    cases c <;>
      simp [read?, CodeEntry.bytes, JumpForm.header, JumpForm.width, readControl?, littleEndian, byte,
        Condition.code, Condition.ofCode?, Condition.all]

/-- **An entry is read back**, and what follows it. -/
theorem read?_linkedBytes {e : CodeEntry} (readable : e.Readable) (start : Nat) (rest : List UInt8)
    {x : Decoded} (some : e.decoded? start = some x) :
    read? (e.linkedBytes start ++ rest) = .some (x, rest) := by
  cases e with
  | instruction i text =>
    cases some
    exact read?_encode (displacement_lt _) readable rest
  | jump form label d =>
    cases some
    exact read?_jump label readable rest
  | ret =>
    cases some
    rfl
  | cdq =>
    cases some
    rfl
  | _ => cases some

/-- Only marks have no bytes. -/
theorem mark_or_decoded {e : CodeEntry} (readable : e.Readable) (start : Nat) :
    (∃ l, e = .mark l) ∨ ∃ x, e.decoded? start = some x := by
  cases e with
  | mark l => exact .inl ⟨l, rfl⟩
  | raw bytes text => exact readable.elim
  | call target => exact readable.elim
  | _ => exact .inr ⟨_, rfl⟩

theorem size_pos {e : CodeEntry} {start : Nat} {x : Decoded} (some : e.decoded? start = some x) : 0 < e.size := by
  cases e with
  | instruction i text =>
    obtain ⟨mode, tail, eq⟩ := encode_eq (fun _ => 0) i.field i.rm
    simp only [CodeEntry.size, CodeEntry.bytes, Instruction.encode, Instruction.encodeWith, eq, List.length_append,
      List.length_cons]
    omega
  | jump form l d => cases form <;> simp [CodeEntry.size, CodeEntry.bytes, JumpForm.header]
  | ret => decide
  | cdq => decide
  | _ => cases some

/-- **Linked code reads back** as what was emitted. -/
theorem readAllWithin_linkedCode : ∀ {es : List CodeEntry} (start budget : Nat), (∀ e ∈ es, e.Readable) →
    Assembly.sizeOf es ≤ budget →
    readAllWithin budget (Assembly.linkedCode start es) = some (Assembly.decoded start es)
  | [], start, budget, _, _ => by cases budget <;> rfl
  | e :: es, start, budget, readable, enough => by
    rw [Assembly.sizeOf_cons] at enough
    have later (budget : Nat) (enough : Assembly.sizeOf es ≤ budget) :=
      readAllWithin_linkedCode (start + e.size) _ (fun x hx => readable x (List.mem_cons_of_mem _ hx))
        enough
    rcases mark_or_decoded (readable e List.mem_cons_self) start with ⟨l, rfl⟩ | ⟨x, decoded⟩
    · simpa [Assembly.linkedCode, Assembly.decoded, CodeEntry.linkedBytes, CodeEntry.bytes, CodeEntry.decoded?,
        CodeEntry.size] using later budget (by omega)
    · have some := size_pos decoded
      obtain ⟨budget, rfl⟩ : ∃ b, budget = b + 1 := ⟨budget - 1, by omega⟩
      have read := read?_linkedBytes (readable e List.mem_cons_self) start
        (Assembly.linkedCode (start + e.size) es) decoded
      have nonempty : Assembly.linkedCode start (e :: es) ≠ [] := by
        intro empty
        have := congrArg List.length empty
        rw [Assembly.length_linkedCode] at this
        simp at this
        omega
      rw [Assembly.decoded, decoded, Option.toList_some, List.singleton_append]
      rw [readAllWithin]
      · rw [Assembly.linkedCode, read]
        simp [later budget (by omega)]
      · exact nonempty

end Decoded

end Shading
