import Shading.Lowering.Arithmetic
import Shading.Parser.Expression
import Shading.Proofs.Lowering.Move

/-!
# Operations succeed

Every operation and every intrinsic function succeeds on operands of the
types that the parser lets through, and leaves nothing behind. Only the
integer operations need a general register beside their operands
(`RoomFor`). The two short jumps of `clamp` pass over a single instruction,
so their distances always fit.
-/

namespace Shading.Lower

open LoweringState

variable {s₀ s : LoweringState} {registers : List Location} {held : List Lease} {E : Error → Prop}
  {out : Location} {lhs rhs v : Value}

/-! ## Vectors and matrices -/

/-- An operation in an accumulator: a value is moved there, changed by
`change`, and settled. -/
theorem accumulate_ends (change : Location → Lower Unit) (h : s₀.Leads s registers held)
    {dest src : Location} (hd : dest.IsOperand) (hs : src.IsOperand) {c : RegisterClass}
    {avoid : List Location}
    (room : (∃ id, dest = c.location id) ∨ s.layout.Room c avoid ∨ E (.layout (.noRegister c)))
    {w : Width}
    (step : ∀ id (t : LoweringState) hs, s.Leads t [] hs →
      Ends (change (c.location id)) t (fun _ t' => s.Leads t' [] hs) E) :
    Ends (do
      let (acc, lease) ← accumulator dest c avoid
      transfer w acc src
      change acc
      settle dest acc lease w : Lower Unit) s (fun _ s' => s₀.Leads s' registers held) E := by
  refine Steady.after ?_ h
  refine .bind (accumulator_ends (.refl h.ok) room) ?_
  rintro ⟨acc, lease⟩ t ⟨h₁, ⟨id, rfl⟩, -⟩
  have register := RegisterClass.isRegister_location c id
  refine .bind ((transfer_steady h₁.ok w (RegisterClass.isOperand_location c id) hs
    (.inl register)).after h₁) fun _ t h₂ => ?_
  refine .bind (step id t _ h₂) fun _ _ h₃ => ?_
  exact settle_ends h₃ hd ⟨c, id, rfl⟩

/-- Adding and subtracting rows. -/
theorem packed_steady (ok : s.Ok) (quiet : s.Quiet) {op : BinaryOp}
    (linear : op = .add ∨ op = .subtract) (hout : out.IsOperand) (hl : lhs.location.IsOperand)
    (hr : rhs.location.IsOperand) : Steady (packed op out lhs rhs) s E := by
  have rows (o : Opcode) : Ends (forRows (rowCount lhs.ty) fun row => do
      let (acc, lease) ← accumulator (out.offsetBy (row * 16)) .simd
        [out.offsetBy (row * 16), lhs.location.offsetBy (row * 16),
          rhs.location.offsetBy (row * 16)]
      transfer .packed acc (lhs.location.offsetBy (row * 16))
      emit o acc (rhs.location.offsetBy (row * 16))
      settle (out.offsetBy (row * 16)) acc lease .packed) s (fun _ s' => s.Leads s' [] []) E := by
    refine forRows_ends _ (.refl ok) fun row t h => ?_
    refine accumulate_ends (fun acc => emit o acc (rhs.location.offsetBy (row * 16))) h
      (by simpa using hout) (by simpa using hl) (.inr (.inl ((quiet.step h).room (.refl h.ok)
        (by simp) (by simp)))) fun id u hs h' => ?_
    exact emit_ends h' o rfl (by simpa using hr) []
  unfold Steady packed
  rcases linear with rfl | rfl
  · exact rows .addps
  · exact rows .subps

/-- Scaling a vector. -/
theorem vectorScalar_steady (ok : s.Ok) (quiet : s.Quiet) (hout : out.IsOperand)
    (hl : lhs.location.IsOperand) (hr : rhs.location.IsOperand) :
    Steady (vectorScalar out lhs rhs) s E := by
  have h := Leads.refl ok
  unfold Steady vectorScalar
  refine .bind (acquireSimd_ends quiet h (by simp) (by simp)) ?_
  rintro scalar t ⟨h₁, id, grants⟩
  have register := isRegister_of_grants grants
  have operand := Location.isOperand_of_isRegister register
  refine .bind (storeFloat_ends h₁ hr ⟨id, grants.location⟩) fun _ t h₂ => ?_
  refine .bind (emit_ends h₂ _ register operand _) fun _ t h₃ => ?_
  refine .bind (accumulatorSimd_ends quiet h₃ (by simp) (by simp)) ?_
  rintro ⟨acc, lease⟩ t ⟨h₄, ⟨a, rfl⟩, -⟩
  have simd : (Location.simdRegister a).isRegister = true := rfl
  refine .bind ((transfer_steady h₄.ok _ (Location.isOperand_of_isRegister simd) hl
    (.inl simd)).after h₄) fun _ t h₅ => ?_
  refine .bind (emit_ends h₅ _ simd operand []) fun _ t h₆ => ?_
  refine .bind (settle_ends h₆ hout ⟨.simd, a, rfl⟩) fun _ t h₇ => ?_
  exact release_last_ends h₇

/-- Leasing several SSE registers. -/
theorem acquireSimdAll_ends (quiet : s₀.Quiet) (count : Nat) {avoid : List Location}
    (h : s₀.Leads s registers held) (few : avoid.length + count ≤ 8)
    (named : ∀ x ∈ held, x.location ∈ avoid) :
    Ends (acquireSimd count avoid) s (fun leases s' =>
      s₀.Leads s' registers (held ++ leases) ∧ leases.length = count ∧
      ∀ x ∈ leases, ∃ id, x.location = .simdRegister id) E := by
  induction count generalizing s held avoid with
  | zero => exact .pure ⟨by simpa using h, rfl, by simp⟩
  | succ count ih =>
    unfold acquireSimd
    refine .bind (acquireSimd_ends quiet h (by omega) named) ?_
    rintro x t ⟨h₁, id, grants⟩
    have named' : ∀ y ∈ held ++ [x], y.location ∈ avoid ++ [x.location] := fun y hy => by
      rcases List.mem_append.1 hy with hy | hy
      · exact List.mem_append_left _ (named y hy)
      · rw [List.mem_singleton.1 hy]
        exact List.mem_append_right _ (List.mem_singleton_self _)
    refine .bind (ih h₁ (by simp; omega) named') ?_
    rintro xs u ⟨h₂, count, simd⟩
    refine .pure ⟨by simpa using h₂, by simp [count], fun y hy => ?_⟩
    rcases List.mem_cons.1 hy with rfl | hy
    · exact ⟨id, grants.location⟩
    · exact simd y hy

/-- Ending leases in the reverse of the order they were granted in. -/
theorem releaseAll_ends (leases : List Lease)
    (h : s₀.Leads s registers (held ++ leases.reverse)) :
    Ends (releaseAll leases) s (fun _ s' => s₀.Leads s' registers held) E := by
  induction leases generalizing s with
  | nil => exact .pure (by simpa using h)
  | cons x xs ih =>
    rw [List.reverse_cons, ← List.append_assoc] at h
    exact .bind (release_last_ends h) fun _ t h' => ih h'

/-- Applying a matrix to a vector. -/
theorem matrixVector_steady (ok : s.Ok) (quiet : s.Quiet) (hout : out.IsOperand)
    (hl : lhs.location.IsOperand) (hr : rhs.location.IsOperand) :
    Steady (matrixVector out lhs rhs) s E := by
  have h := Leads.refl ok
  unfold Steady matrixVector
  refine .bind (acquireSimdAll_ends quiet 4 h (by simp) (by simp)) ?_
  rintro leases t ⟨h₁, four, simd⟩
  rw [List.nil_append] at h₁
  obtain ⟨a, b, c, d, rfl⟩ : ∃ a b c d, leases = [a, b, c, d] := by
    rcases leases with - | ⟨a, - | ⟨b, - | ⟨c, - | ⟨d, - | ⟨e, rest⟩⟩⟩⟩⟩ <;> simp at four
    exact ⟨a, b, c, d, rfl⟩
  have register {x : Lease} (hx : x ∈ [a, b, c, d]) : x.location.isRegister = true := by
    obtain ⟨id, eq⟩ := simd x hx
    rw [eq]
    rfl
  have ra := register (x := a) (by simp)
  have rb := register (x := b) (by simp)
  have rc := register (x := c) (by simp)
  have rd := register (x := d) (by simp)
  -- The sum of the four products is the same for either size of matrix; the loop before
  -- it fills one register for each row.
  have tail {t : LoweringState} (h : s.Leads t [] [a, b, c, d]) :
      Ends (do
        emit .haddps a.location b.location
        emit .haddps c.location d.location
        emit .haddps a.location c.location
        transfer .packed out a.location
        releaseAll [d, c, b, a]) t (fun _ s' => s.Leads s' [] []) E := by
    refine .bind (emit_ends h _ ra (Location.isOperand_of_isRegister rb) []) fun _ t h => ?_
    refine .bind (emit_ends h _ rc (Location.isOperand_of_isRegister rd) []) fun _ t h => ?_
    refine .bind (emit_ends h _ ra (Location.isOperand_of_isRegister rc) []) fun _ t h => ?_
    refine .bind ((transfer_steady h.ok _ hout (Location.isOperand_of_isRegister ra)
      (.inr (.inl ra))).after h) fun _ t h => ?_
    exact releaseAll_ends [d, c, b, a] h
  simp only [List.map_cons, List.map_nil]
  -- Each row takes a register of its own, multiplies it by the vector and, with three
  -- columns, clears the fourth lane.
  refine .bind (forM_ends _ h₁ ?_) fun _ t h₂ => ?_
  · rintro ⟨r, row⟩ mem u h₂
    have hr' : r ∈ [a, b, c, d].map Lease.location :=
      List.mem_of_mem_take (List.fst_mem_of_mem_zipIdx mem)
    obtain ⟨x, hx, rfl⟩ := List.mem_map.1 hr'
    have rx := register hx
    refine .bind ((transfer_steady h₂.ok _ (Location.isOperand_of_isRegister rx)
      (by simpa using hl) (.inl rx)).after h₂) fun _ t h₃ => ?_
    refine .bind (emit_ends h₃ _ rx hr []) fun _ t h₄ => ?_
    split
    · refine .bind (constantOperand_ends h₄ _) ?_
      rintro mask t ⟨h₅, hmask⟩
      exact emit_ends h₅ _ rx hmask []
    · exact .pure h₄
  split
  · exact .bind (emit_ends h₂ _ rd (Location.isOperand_of_isRegister rd) []) fun _ t h₃ => tail h₃
  · exact tail h₂

/-- Multiplying matrices. -/
theorem matrixProduct_steady (ok : s.Ok) (quiet : s.Quiet) (hout : out.IsOperand)
    (hl : lhs.location.IsOperand) (hr : rhs.location.IsOperand) :
    Steady (matrixProduct out lhs rhs) s E := by
  have h := Leads.refl ok
  unfold Steady matrixProduct
  refine .bind (acquireSimd_ends quiet h (by simp) (by simp)) ?_
  rintro a t ⟨h₁, i, accGrants⟩
  refine .bind (acquireSimd_ends quiet h₁ (by simp) (by simp)) ?_
  rintro b t ⟨h₂, j, termGrants⟩
  have ra := isRegister_of_grants accGrants
  have rb := isRegister_of_grants termGrants
  have oa := Location.isOperand_of_isRegister ra
  have ob := Location.isOperand_of_isRegister rb
  refine .bind (forRows_ends _ h₂ fun row t h => ?_) fun _ t h₃ => ?_
  · refine .bind (emit_ends h _ ra oa []) fun _ t h => ?_
    refine .bind (forRows_ends _ h fun column t h => ?_) fun _ t h => ?_
    · refine .bind (emit_ends h _ rb (by simpa using hl) []) fun _ t h => ?_
      refine .bind (emit_ends h _ rb ob _) fun _ t h => ?_
      refine .bind (emit_ends h _ rb (by simpa using hr) []) fun _ t h => ?_
      exact emit_ends h _ ra ob []
    · exact (transfer_steady h.ok _ (by simpa using hout) oa (.inr (.inl ra))).after h
  · exact .bind (release_last_ends h₃) fun _ t h₄ => release_last_ends h₄

/-! ## Scalars -/

/-- An operation between two floats: the left operand is moved to a
register, the right one is converted if it is an integer, and `change`
works on both. -/
theorem floats_ends (change : Location → Location → Lower Unit) (ok : s.Ok) (quiet : s.Quiet)
    (hout : out.IsOperand) (hl : lhs.location.IsOperand) (hr : rhs.location.IsOperand)
    (step : ∀ id right, right.IsOperand → ∀ (t : LoweringState) hs, s.Leads t [] hs →
      Ends (change (.simdRegister id) right) t (fun _ t' => s.Leads t' [] hs) E) :
    Ends (do
      let (acc, lease) ← accumulator out .simd [out, lhs.location, rhs.location]
      store acc .float lhs
      let (right, rightLease) ← floatOperand rhs [acc, out, lhs.location, rhs.location]
      change acc right
      releaseOption rightLease
      settle out acc lease .single : Lower Unit) s (fun _ s' => s.Leads s' [] []) E := by
  refine .bind (accumulatorSimd_ends quiet (.refl ok) (by simp) (by simp)) ?_
  rintro ⟨acc, lease⟩ t ⟨h₁, ⟨id, rfl⟩, named⟩
  refine .bind (storeFloat_ends h₁ hl ⟨id, rfl⟩) fun _ t h₂ => ?_
  refine .bind (floatOperand_ends quiet h₂ hr (by simp) ?_) ?_
  · intro x hx
    rw [List.nil_append, Option.mem_toList] at hx
    rw [named x hx]
    exact List.mem_cons_self
  rintro ⟨right, rightLease⟩ t ⟨h₃, operand, -⟩
  refine .bind (step id right operand t _ h₃) fun _ t h₄ => ?_
  refine .bind (releaseOption_ends h₄) fun _ t h₅ => ?_
  exact settle_ends h₅ hout ⟨.simd, id, rfl⟩

/-- Computing with floats. -/
theorem scalarFloat_steady (ok : s.Ok) (quiet : s.Quiet) (op : BinaryOp) (hout : out.IsOperand)
    (hl : lhs.location.IsOperand) (hr : rhs.location.IsOperand) :
    Steady (scalarFloat op out lhs rhs) s E :=
  floats_ends (emit (floatOpcode op)) ok quiet hout hl hr fun _ _ operand _ _ h =>
    emit_ends h _ rfl operand []

/-- The larger of two floats. -/
theorem larger_steady (ok : s.Ok) (quiet : s.Quiet) (hout : out.IsOperand)
    (hl : lhs.location.IsOperand) (hr : rhs.location.IsOperand) :
    Steady (larger out lhs rhs) s E :=
  floats_ends (emit .maxss) ok quiet hout hl hr fun _ _ operand _ _ h =>
    emit_ends h _ rfl operand []

/-- Dividing integers needs no register. -/
theorem integerDivision_steady (ok : s.Ok) (hout : out.IsOperand) (hl : lhs.location.IsOperand)
    (hr : rhs.location.IsOperand) : Steady (integerDivision out lhs rhs) s E := by
  have h := Leads.refl ok
  have register (id : Nat) : (Location.register id).isRegister = true := rfl
  have memory (offset : Nat) : (Location.globalMemory offset).IsOperand := trivial
  unfold Steady integerDivision
  refine .bind (divisionSlots_ends h) ?_
  rintro _ t ⟨h₁, -, x, rfl⟩
  refine .bind (emitStore_ends h₁ _ (memory x) (register 0)) fun _ t h₂ => ?_
  refine .bind (emitStore_ends h₂ _ (memory (x + 4)) (register 2)) fun _ t h₃ => ?_
  have divide {t : LoweringState} (h : s.Leads t [] []) {divisor : Location}
      (operand : divisor.IsOperand) : Ends (do
        transfer .dword (.register 0) lhs.location
        modifyAssembly fun a => a.write .cdq
        emitUnary .idiv divisor
        if out.isRegister then
          emitStore .movStore (.globalMemory (x + 8)) (.register 0)
          emit .movLoad (.register 0) (.globalMemory x)
          emit .movLoad (.register 2) (.globalMemory (x + 4))
          emit .movLoad out (.globalMemory (x + 8))
        else
          emitStore .movStore out (.register 0)
          emit .movLoad (.register 0) (.globalMemory x)
          emit .movLoad (.register 2) (.globalMemory (x + 4))) t
        (fun _ s' => s.Leads s' [] []) E := by
    refine .bind ((transfer_steady h.ok _ (Location.isOperand_of_isRegister (register 0)) hl
      (.inl (register 0))).after h) fun _ t h => ?_
    refine .bind (write_ends h ⟨rfl, rfl⟩) fun _ t h => ?_
    refine .bind (emitUnary_ends h _ operand []) fun _ t h => ?_
    split
    · next own =>
      refine .bind (emitStore_ends h _ (memory _) (register 0)) fun _ t h => ?_
      refine .bind (emit_ends h _ (register 0) (memory _) []) fun _ t h => ?_
      refine .bind (emit_ends h _ (register 2) (memory _) []) fun _ t h => ?_
      exact emit_ends h _ own (memory _) []
    · refine .bind (emitStore_ends h _ hout (register 0)) fun _ t h => ?_
      refine .bind (emit_ends h _ (register 0) (memory _) []) fun _ t h => ?_
      exact emit_ends h _ (register 2) (memory _) []
  dsimp only
  split
  · next own =>
    refine .bind (emitStore_ends h₃ _ (memory (x + 8)) own) fun _ t h₄ => ?_
    exact divide h₄ (memory (x + 8))
  · exact divide h₃ hr

/-- Computing with integers. -/
theorem scalarInt_steady (ok : s.Ok) (op : BinaryOp) {ty : Ty} (integral : ty.isIntegral = true)
    (hout : out.IsOperand) (fits : out.Fits ty) (hl : lhs.location.IsOperand)
    (hr : rhs.location.IsOperand)
    (room : op ≠ .divide → s.RoomFor E out [lhs.location, rhs.location]) :
    Steady (scalarInt op out lhs rhs) s E := by
  have compute (o : Opcode) (h : op ≠ .divide) : Ends (do
      let (acc, lease) ← accumulator out .general [out, lhs.location, rhs.location]
      transfer .dword acc lhs.location
      emit o acc rhs.location
      settle out acc lease .dword) s (fun _ s' => s.Leads s' [] []) E :=
    accumulate_ends (fun acc => emit o acc rhs.location) (.refl ok) hout hl
      ((room h).imp (Fits.general fits integral) id) fun _ _ _ h' => emit_ends h' o rfl hr []
  cases op with
  | add => exact compute .add (by decide)
  | subtract => exact compute .sub (by decide)
  | multiply => exact compute .imul (by decide)
  | divide => exact integerDivision_steady ok hout hl hr

/-- **A binary operation succeeds** on operands that the parser joins, if
there is room for one on integers. -/
theorem binary_steady (ok : s.Ok) (quiet : s.Quiet) {op : BinaryOp}
    (joins : Parser.joins op lhs.ty rhs.ty = true) (hout : out.IsOperand)
    (fits : out.Fits (lhs.ty.arith rhs.ty)) (hl : lhs.location.IsOperand)
    (hr : rhs.location.IsOperand)
    (room : op ≠ .divide → lhs.ty.arith rhs.ty = .int → s.RoomFor E out [lhs.location, rhs.location]) :
    Steady (binary op out (lhs.ty.arith rhs.ty) lhs rhs) s E := by
  unfold binary
  split
  · exact matrixProduct_steady ok quiet hout hl hr
  split
  · exact matrixVector_steady ok quiet hout hl hr
  split
  · exact vectorScalar_steady ok quiet hout hl hr
  split
  · next notProduct notApply notScale vector =>
    refine packed_steady ok quiet ?_ hout hl hr
    revert joins notProduct notApply notScale vector
    generalize lhs.ty = l, rhs.ty = r
    cases op <;> cases l <;> cases r <;> decide
  split
  · exact scalarFloat_steady ok quiet op hout hl hr
  · next notVector notFloat =>
    have int : lhs.ty.arith rhs.ty = .int := by
      revert joins notVector notFloat
      generalize lhs.ty = l, rhs.ty = r
      cases op <;> cases l <;> cases r <;> decide
    exact scalarInt_steady ok op (int ▸ rfl) hout fits hl hr fun h => room h int

/-- Negation succeeds. -/
theorem negate_steady (ok : s.Ok) (quiet : s.Quiet) (hout : out.IsOperand) (fits : out.Fits v.ty)
    (hv : v.location.IsOperand) (room : v.ty.isIntegral = true → s.RoomFor E out [v.location]) :
    Steady (negate out v) s E := by
  unfold Steady negate
  split
  · next integral =>
    refine accumulate_ends (fun acc => emitUnary .neg acc) (.refl ok) hout hv
      ((room integral).imp (Fits.general fits integral) id) fun id t _ h => ?_
    exact emitUnary_ends h _ (RegisterClass.isOperand_location _ id) []
  · refine .bind (constantOperand_ends (.refl ok) _) ?_
    rintro mask t ⟨h₁, hmask⟩
    refine forRows_ends _ h₁ fun row t h => ?_
    refine accumulate_ends (fun acc => emit .xorps acc mask) h (by simpa using hout)
      (by simpa using hv) (.inr (.inl ((quiet.step h).room (.refl h.ok)
        (by simp) (by simp)))) fun id u hs h' => ?_
    exact emit_ends h' _ rfl hmask []

/-- Inverting a truth value succeeds. -/
theorem invert_steady (ok : s.Ok) (hout : out.IsOperand) (fits : out.Fits .bool)
    (hv : v.location.IsOperand) (room : s.RoomFor E out [v.location]) :
    Steady (invert out v) s E :=
  accumulate_ends (fun acc => emitUnary .xorImm8 acc [1]) (.refl ok) hout hv
    (room.imp (Fits.general fits rfl) id) fun id _ _ h =>
      emitUnary_ends h _ (RegisterClass.isOperand_location _ id) _

/-! ## Intrinsic functions -/

/-- A dot product of three lanes in a register. -/
theorem dotProduct_ends (h : s₀.Leads s registers held) {acc a : Location} {b : Option Location}
    (register : acc.isRegister = true) (ha : a.IsOperand) (hb : ∀ l ∈ b, l.IsOperand) :
    Ends (dotProduct acc a b) s (fun _ s' => s₀.Leads s' registers held) E := by
  have operand := Location.isOperand_of_isRegister register
  have factor : (b.getD acc).IsOperand := by
    cases b with
    | none => exact operand
    | some l => exact hb l rfl
  unfold dotProduct
  refine .bind ((transfer_steady h.ok _ operand ha (.inl register)).after h) fun _ t h₁ => ?_
  refine .bind (emit_ends h₁ _ register factor []) fun _ t h₂ => ?_
  refine .bind (constantOperand_ends h₂ _) ?_
  rintro mask t ⟨h₃, hmask⟩
  refine .bind (emit_ends h₃ _ register hmask []) fun _ t h₄ => ?_
  refine .bind (emit_ends h₄ _ register operand []) fun _ t h₅ => ?_
  exact emit_ends h₅ _ register operand []

/-- Normalizing succeeds. -/
theorem normalize_steady (ok : s.Ok) (quiet : s.Quiet) (hout : out.IsOperand)
    (hv : v.location.IsOperand) : Steady (normalize out v) s E := by
  unfold Steady normalize
  refine .bind (acquireSimd_ends quiet (.refl ok) (by simp) (by simp)) ?_
  rintro x t ⟨h₁, i, vectorGrants⟩
  refine .bind (acquireSimd_ends quiet h₁ (by simp) (by simp)) ?_
  rintro y t ⟨h₂, j, scaleGrants⟩
  have rx := isRegister_of_grants vectorGrants
  have ry := isRegister_of_grants scaleGrants
  have ox := Location.isOperand_of_isRegister rx
  have oy := Location.isOperand_of_isRegister ry
  refine .bind ((transfer_steady h₂.ok _ ox hv (.inl rx)).after h₂) fun _ t h₃ => ?_
  refine .bind (dotProduct_ends h₃ ry ox (by simp)) fun _ t h₄ => ?_
  refine .bind (emit_ends h₄ _ ry oy []) fun _ t h₅ => ?_
  refine .bind (emit_ends h₅ _ rx oy []) fun _ t h₆ => ?_
  refine .bind ((transfer_steady h₆.ok _ hout ox (.inr (.inl rx))).after h₆) fun _ t h₇ => ?_
  refine .bind (release_last_ends h₇) fun _ t h₈ => ?_
  exact release_last_ends h₈

/-- A dot product in a leased register, with some more work done there. -/
theorem dotted_ends (change : Location → Lower Unit) (ok : s.Ok) (quiet : s.Quiet)
    (hout : out.IsOperand) {a : Location} {b : Option Location} (ha : a.IsOperand)
    (hb : ∀ l ∈ b, l.IsOperand) {avoid : List Location} (few : avoid.length < 8)
    (step : ∀ id (t : LoweringState) hs, s.Leads t [] hs →
      Ends (change (.simdRegister id)) t (fun _ t' => s.Leads t' [] hs) E) :
    Ends (do
      let scratch ← acquire .simd avoid
      dotProduct scratch.location a b
      change scratch.location
      transfer .single out scratch.location
      release scratch : Lower Unit) s (fun _ s' => s.Leads s' [] []) E := by
  refine .bind (acquireSimd_ends quiet (.refl ok) few (by simp)) ?_
  rintro x t ⟨h₁, i, grants⟩
  have rx := isRegister_of_grants grants
  refine .bind (dotProduct_ends h₁ rx ha hb) fun _ t h₂ => ?_
  have changed := step i t _ h₂
  rw [← show x.location = .simdRegister i from grants.location] at changed
  refine .bind changed fun _ t h₃ => ?_
  refine .bind ((transfer_steady h₃.ok _ hout (Location.isOperand_of_isRegister rx)
    (.inr (.inl rx))).after h₃) fun _ t h₄ => ?_
  exact release_last_ends h₄

/-- Taking the length of a vector succeeds. -/
theorem vectorLength_steady (ok : s.Ok) (quiet : s.Quiet) (hout : out.IsOperand)
    (hv : v.location.IsOperand) : Steady (vectorLength out v) s E :=
  dotted_ends (fun r => emit .sqrtss r r) ok quiet hout hv (by simp) (by simp)
    fun id _ _ h => emit_ends h _ rfl (Location.isOperand_simdRegister id) []

/-- Taking a dot product succeeds. -/
theorem dot3_steady (ok : s.Ok) (quiet : s.Quiet) (hout : out.IsOperand)
    (hl : lhs.location.IsOperand) (hr : rhs.location.IsOperand) :
    Steady (dot3 out lhs rhs) s E :=
  dotted_ends (fun _ => pure ()) ok quiet hout hl (by simpa using hr) (by simp)
    fun _ _ _ h => .pure h

/-- A state after a jump to a new label. -/
def jumped (s : LoweringState) (form : JumpForm) : LoweringState :=
  { s with assembly := (s.assembly.jump form).2 }

/-- **A short jump passes over one instruction.** -/
theorem bindOver_ends (h : s₀.Leads s registers held) (c : Condition) (i : Instruction Nat)
    (text : String) (short : i.encode.length < 128) :
    Ends (bindLabel (s.assembly.labels + 1)) (wrote (jumped s (.shortWhen c)) i text)
      (fun _ s' => s₀.Leads s' registers held) E := by
  obtain ⟨jump, isOpen, new⟩ := Assembly.leads_jump h.ok.assembly (.shortWhen c)
  have h₁ : s.Leads (jumped s (.shortWhen c)) [] [] := .ofAssembly h.ok jump s.transcript
  have h₂ := h₁.step (leads_wrote h₁.ok i text)
  have open₂ := isOpen.leads h₁.ok.assembly (leads_wrote h₁.ok i text).assembly
  have step : Ends (bindLabel (s.assembly.labels + 1)) (wrote (jumped s (.shortWhen c)) i text)
      (fun _ s' => s.Leads s' [] []) E := by
    refine (bindLabel_ends h₂ h.ok open₂ new fun j d found outside => ?_).mono (fun _ _ h' => h'.1)
      fun _ h' => h'
    have first : (wrote (jumped s (.shortWhen c)) i text).assembly.entries[
        s.assembly.entries.length]? = some (.jump (.shortWhen c) (s.assembly.labels + 1) 0) := by
      simp [wrote, jumped, Assembly.emit, Assembly.write, Assembly.jump]
    obtain rfl := h₂.ok.assembly.oneJump _ _ _ _ _ found first rfl rfl
    have distance : ((wrote (jumped s (.shortWhen c)) i text).assembly.size : Int) -
        Assembly.startOf (wrote (jumped s (.shortWhen c)) i text).assembly.entries
          (s.assembly.entries.length + 1) = i.encode.length := by
      have all := List.take_of_length_le (Nat.le_succ s.assembly.entries.length)
      simp only [wrote, jumped, Assembly.emit, Assembly.write, Assembly.jump, Assembly.size,
        Assembly.startOf, CodeEntry.size, CodeEntry.bytes, List.append_assoc, List.cons_append,
        List.nil_append, Assembly.sizeOf_append, Assembly.sizeOf_cons, Assembly.sizeOf_nil,
        List.length_append, List.take_append, all, Nat.add_sub_cancel_left, List.take_succ_cons,
        List.take_zero]
      omega
    rw [distance] at outside
    simp [fitsSigned, JumpForm.width] at outside
    omega
  exact step.mono (fun _ _ h' => h.step h') fun _ h' => h'

theorem length_movss_le (field : Nat) (p : Operand Nat) :
    (⟨.movssLoad, field, p, []⟩ : Instruction Nat).encode.length ≤ 8 := by
  have header : Opcode.movssLoad.header.length = 3 := by decide
  have operand : (p.encode (fun _ => 0) (Instruction.field ⟨.movssLoad, field, p, []⟩)).length ≤ 5 := by
    cases p <;> simp [Operand.encode, wordBytes]
  simp only [Instruction.encode, Instruction.encodeWith, List.length_append, List.length_nil]
  omega

/-- One bound of `clamp`: a jump over the instruction that takes it. -/
theorem takeBound_ends {k : Lower Unit} {R : Unit → LoweringState → Prop}
    (h : s₀.Leads s registers held) (c : Condition) {acc bound : Location}
    (register : acc.isRegister = true) (operand : bound.IsOperand)
    (next : ∀ t, s₀.Leads t registers held → Ends k t R E) :
    Ends (do
      let label ← emitJump (.shortWhen c)
      emit .movssLoad acc bound
      bindLabel label
      k) s R E := by
  refine .bind (.intro rfl ⟨rfl, rfl⟩ : Ends (emitJump (.shortWhen c)) s
    (fun l t => l = s.assembly.labels + 1 ∧ t = jumped s (.shortWhen c)) E) ?_
  rintro _ _ ⟨rfl, rfl⟩
  obtain ⟨i, field⟩ := registerField_of_isRegister register
  obtain ⟨p, hp⟩ := operandOf_of_isOperand operand
  obtain ⟨text, run⟩ := emit_eq (s := jumped s (.shortWhen c)) .movssLoad field hp []
  refine .bind (.intro run rfl : Ends _ _ (fun _ t => t = _) E) ?_
  rintro _ _ rfl
  have short := length_movss_le i p
  exact .bind (bindOver_ends h c _ text (by omega)) fun _ t h' => next t h'

/-- Clamping succeeds. -/
theorem clamp_steady (ok : s.Ok) (quiet : s.Quiet) {lo hi : Value} (hout : out.IsOperand)
    (hv : v.location.IsOperand) (hlo : lo.location.IsOperand) (hhi : hi.location.IsOperand) :
    Steady (clamp out v lo hi) s E := by
  unfold Steady clamp
  refine .bind (accumulatorSimd_ends quiet (.refl ok) (by simp) (by simp)) ?_
  rintro ⟨acc, lease⟩ t ⟨h₁, ⟨id, rfl⟩, named⟩
  have register : (Location.simdRegister id).isRegister = true := rfl
  refine .bind (storeFloat_ends h₁ hv ⟨id, rfl⟩) fun _ t h₂ => ?_
  have named₁ : ∀ x ∈ ([] ++ lease.toList : List Lease), x.location = .simdRegister id := by
    intro x hx
    rw [List.nil_append, Option.mem_toList] at hx
    exact named x hx
  refine .bind (floatOperand_ends quiet h₂ hlo (by simp) fun x hx => ?_) ?_
  · rw [named₁ x hx]
    exact List.mem_cons_self
  rintro ⟨low, lowLease⟩ t ⟨h₃, lowOperand, lowNamed⟩
  refine .bind (floatOperand_ends quiet h₃ hhi (by simp) fun x hx => ?_) ?_
  · rcases List.mem_append.1 hx with hx | hx
    · rw [named₁ x hx]
      exact List.mem_cons_self
    · rw [lowNamed x (Option.mem_toList.1 hx)]
      exact List.mem_cons_of_mem _ List.mem_cons_self
  rintro ⟨high, highLease⟩ t ⟨h₄, highOperand, -⟩
  refine .bind (emit_ends h₄ _ register lowOperand []) fun _ t h₅ => ?_
  refine takeBound_ends h₅ _ register lowOperand fun t h₆ => ?_
  refine .bind (emit_ends h₆ _ register highOperand []) fun _ t h₇ => ?_
  refine takeBound_ends h₇ _ register highOperand fun t h₈ => ?_
  refine .bind (releaseOption_ends h₈) fun _ t h₉ => ?_
  refine .bind (releaseOption_ends h₉) fun _ t h₁₀ => ?_
  exact settle_ends h₁₀ hout ⟨.simd, id, rfl⟩

/-- **An intrinsic function succeeds** on as many operands as it has
parameters. -/
theorem intrinsic_steady (ok : s.Ok) (quiet : s.Quiet) {f : StageFunction}
    (known : f ∈ stageFunctions) {args : List Value} (count : args.length = f.parameters.length)
    (hout : f.returnTy ≠ .void → out.IsOperand) (operands : ∀ a ∈ args, a.location.IsOperand) :
    Steady (intrinsic f.name out args) s E := by
  simp only [stageFunctions, List.mem_cons, List.not_mem_nil, or_false] at known
  rcases known with rfl | rfl | rfl | rfl | rfl | rfl
  · obtain ⟨a, rfl⟩ := List.length_eq_one_iff.1 count
    exact normalize_steady ok quiet (hout (by decide)) (operands a (by simp))
  · obtain ⟨a, rfl⟩ := List.length_eq_one_iff.1 count
    exact vectorLength_steady ok quiet (hout (by decide)) (operands a (by simp))
  · obtain ⟨a, b, rfl⟩ := List.length_eq_two.1 count
    exact larger_steady ok quiet (hout (by decide)) (operands a (by simp)) (operands b (by simp))
  · obtain ⟨a, b, rfl⟩ := List.length_eq_two.1 count
    exact dot3_steady ok quiet (hout (by decide)) (operands a (by simp)) (operands b (by simp))
  · obtain ⟨a, b, c, rfl⟩ := List.length_eq_three.1 count
    exact clamp_steady ok quiet (hout (by decide)) (operands a (by simp)) (operands b (by simp))
      (operands c (by simp))
  · obtain ⟨a, rfl⟩ := List.length_eq_one_iff.1 count
    exact .pure (.refl ok)

end Shading.Lower
