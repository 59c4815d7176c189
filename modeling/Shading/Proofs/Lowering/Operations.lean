import Shading.Proofs.Lowering.Closure

/-!
# What operations on values respect

No arithmetic, intrinsic function or comparison pools a float: each respects every relation that the steps do
which read masks (`Lower.Masking`). The masks are the sign bits of a negation,
which all rows of a matrix share, and the first three lanes of a product.
-/

namespace Shading.Lower

namespace Masking

variable {R : LoweringState → LoweringState → Prop} {α : Type} {s : LoweringState} (closed : Masking R)

include closed

/-! ## Arithmetic -/

theorem packed (op : BinaryOp) (out : Location) (lhs rhs : Value) : Respects R (Lower.packed op out lhs rhs) := by
  have rows {o : Opcode} (plain : o.isBitwise = false) : Respects R (Lower.forRows (rowCount lhs.ty) fun row => do
      let dest := out.offsetBy (row * 16)
      let l := lhs.location.offsetBy (row * 16)
      let r := rhs.location.offsetBy (row * 16)
      let acc ← Lower.accumulator dest .simd [dest, l, r]
      Lower.transfer .packed acc.1 l
      Lower.emit o acc.1 r
      Lower.settle dest acc.1 acc.2 .packed) :=
    closed.forRows _ fun _ => closed.step (closed.accumulator _ _ _) fun _ => closed.step (closed.transfer _ _ _)
      fun _ => closed.step (closed.emit _ _ [] plain) fun _ => closed.settle _ _ _ _
  unfold Lower.packed
  cases op with
  | add => exact rows (o := .addps) rfl
  | subtract => exact rows (o := .subps) rfl
  | multiply => rintro _ _ _ ⟨⟩
  | divide => rintro _ _ _ ⟨⟩

theorem vectorScalar (out : Location) (lhs rhs : Value) : Respects R (Lower.vectorScalar out lhs rhs) :=
  closed.step (closed.acquire _ _) fun _ => closed.step (closed.storeWhole _ _ _) fun _ =>
    closed.step (closed.emit _ _ _ rfl) fun _ => closed.step (closed.accumulator _ _ _) fun _ =>
      closed.step (closed.transfer _ _ _) fun _ => closed.step (closed.emit _ _ [] rfl) fun _ =>
        closed.step (closed.settle _ _ _ _) fun _ => closed.release _

theorem acquireSimd : ∀ (count : Nat) (avoid : List Location), Respects R (Lower.acquireSimd count avoid)
  | 0, _ => closed.pure _
  | count + 1, _ => closed.step (closed.acquire _ _) fun _ => closed.step (acquireSimd count _) fun _ =>
    closed.pure _

theorem releaseAll (leases : List Lease) : Respects R (Lower.releaseAll leases) := closed.forM closed.release leases

/-- A product of which the first three lanes are kept. -/
theorem keepThree (acc other : Location) {k : Lower Unit} (hk : Respects R k) : Respects R (do
    Lower.emit .mulps acc other
    Lower.emit .andps acc (← Lower.constant (.vector xyzMask))
    k) := by
  intro s
  refine ((closed.emit acc other [] rfl s).and (emit_results .mulps acc other [])).bind ?_
  rintro _ t ⟨led, id, p, text, -, -, rfl⟩
  have calls : maskBehind (Lower.wrote s ⟨.mulps, id, p, []⟩ text).assembly.entries.getLast? .andps =
      some xyzMask := by
    refine maskBehind_of_endsWith (endsWith_wrote s _ text) ?_
    rintro ⟨opcode, reg, rm, immediate⟩ rfl
    rfl
  exact closed.emitPooled rfl _ calls fun _ led' _ => closed.follow (closed.trans led led') hk

theorem matrixVector (out : Location) (matrix vector : Value) :
    Respects R (Lower.matrixVector out matrix vector) := by
  refine closed.step (closed.acquireSimd _ _) fun leases => ?_
  have ended : Respects R (Lower.releaseAll leases.reverse) := closed.releaseAll _
  split
  · next r0 r1 r2 r3 _ =>
    refine closed.step (closed.forM (fun p => ?_) _) fun _ => ?_
    · obtain ⟨r, row⟩ := p
      refine closed.step (closed.transfer _ _ _) fun _ => ?_
      split
      · simpa only [bind_pure_unit] using closed.keepThree r vector.location (closed.pure ())
      · exact closed.step (closed.emit _ _ [] rfl) fun _ => closed.pure _
    · have sums : Respects R (do
          Lower.emit .haddps r0 r1
          Lower.emit .haddps r2 r3
          Lower.emit .haddps r0 r2
          Lower.transfer .packed out r0
          Lower.releaseAll leases.reverse) :=
        closed.step (closed.emit _ _ [] rfl) fun _ => closed.step (closed.emit _ _ [] rfl) fun _ =>
          closed.step (closed.emit _ _ [] rfl) fun _ => closed.step (closed.transfer _ _ _) fun _ => ended
      exact closed.optional (closed.emitSame .xorps r3) sums
  · exact ended

theorem matrixProduct (out : Location) (lhs rhs : Value) : Respects R (Lower.matrixProduct out lhs rhs) := by
  refine closed.step (closed.acquire _ _) fun acc => closed.step (closed.acquire _ _) fun term => ?_
  have row (i : Nat) : Respects R (do
      Lower.emit .xorps acc.location acc.location
      Lower.forRows lhs.ty.elementCount fun j => do
        Lower.emit .movssLoad term.location (lhs.location.offsetBy (i * 16 + j * 4))
        Lower.emit .shufps term.location term.location [0]
        Lower.emit .mulps term.location (rhs.location.offsetBy (j * 16))
        Lower.emit .addps acc.location term.location
      Lower.transfer .packed (out.offsetBy (i * 16)) acc.location) :=
    closed.step (closed.emitSame _ _) fun _ => closed.step (closed.forRows _ fun _ =>
      closed.step (closed.emit _ _ [] rfl) fun _ => closed.step (closed.emit _ _ _ rfl) fun _ =>
        closed.step (closed.emit _ _ [] rfl) fun _ => closed.emit _ _ [] rfl) fun _ => closed.transfer _ _ _
  exact closed.step (closed.forRows _ row) fun _ => closed.step (closed.release _) fun _ => closed.release _

/-- An operation on a float and the other operand as a float. -/
theorem floats {out : Location} {avoid : List Location} {lhs rhs : Value} {o : Opcode}
    (beside : Location → List Location) (plain : o.isBitwise = false) : Respects R (do
      let (acc, lease) ← Lower.accumulator out .simd avoid
      Lower.store acc .float lhs
      let (right, rightLease) ← Lower.floatOperand rhs (beside acc)
      Lower.emit o acc right
      Lower.releaseOption rightLease
      Lower.settle out acc lease .single) :=
  closed.step (closed.accumulator _ _ _) fun _ => closed.step (closed.store _ _ _) fun _ =>
    closed.step (closed.floatOperand _ _) fun _ => closed.step (closed.emit _ _ [] plain) fun _ =>
      closed.step (closed.releaseOption _) fun _ => closed.settle _ _ _ _

theorem scalarFloat (op : BinaryOp) (out : Location) (lhs rhs : Value) :
    Respects R (Lower.scalarFloat op out lhs rhs) :=
  closed.floats (fun acc => [acc, out, lhs.location, rhs.location]) (by cases op <;> rfl)

theorem larger (out : Location) (a b : Value) : Respects R (Lower.larger out a b) :=
  closed.floats (fun acc => [acc, out, a.location, b.location]) rfl

theorem integerDivision (out : Location) (lhs rhs : Value) : Respects R (Lower.integerDivision out lhs rhs) := by
  refine closed.step closed.divisionSlots fun slots => ?_
  refine closed.step (closed.emitStore _ _ rfl) fun _ => closed.step (closed.emitStore _ _ rfl) fun _ => ?_
  have divide (divisor : Location) : Respects R (do
      Lower.transfer .dword (.register 0) lhs.location
      modifyAssembly fun a => a.write .cdq
      Lower.emitUnary .idiv divisor
      if out.isRegister then
        Lower.emitStore .movStore slots.divisor (.register 0)
        Lower.emit .movLoad (.register 0) slots.eax
        Lower.emit .movLoad (.register 2) slots.edx
        Lower.emit .movLoad out slots.divisor
      else
        Lower.emitStore .movStore out (.register 0)
        Lower.emit .movLoad (.register 0) slots.eax
        Lower.emit .movLoad (.register 2) slots.edx) := by
    refine closed.step (closed.transfer _ _ _) fun _ => closed.step (closed.write rfl) fun _ =>
      closed.step (closed.emitUnary _ [] rfl) fun _ => Plain.ite ?_ ?_
    · exact closed.step (closed.emitStore _ _ rfl) fun _ => closed.step (closed.emit _ _ [] rfl) fun _ =>
        closed.step (closed.emit _ _ [] rfl) fun _ => closed.emit _ _ [] rfl
    · exact closed.step (closed.emitStore _ _ rfl) fun _ => closed.step (closed.emit _ _ [] rfl) fun _ =>
        closed.emit _ _ [] rfl
  exact Plain.ite (p := rhs.location.isRegister = true) (closed.step (closed.emitStore _ _ rfl) fun _ => divide _) (divide _)

theorem scalarInt (op : BinaryOp) (out : Location) (lhs rhs : Value) :
    Respects R (Lower.scalarInt op out lhs rhs) := by
  have compute {o : Opcode} (plain : o.isBitwise = false) : Respects R (do
      let (acc, lease) ← Lower.accumulator out .general [out, lhs.location, rhs.location]
      Lower.transfer .dword acc lhs.location
      Lower.emit o acc rhs.location
      Lower.settle out acc lease .dword) :=
    closed.step (closed.accumulator _ _ _) fun _ => closed.step (closed.transfer _ _ _) fun _ =>
      closed.step (closed.emit _ _ [] plain) fun _ => closed.settle _ _ _ _
  cases op with
  | add => exact compute (o := .add) rfl
  | subtract => exact compute (o := .sub) rfl
  | multiply => exact compute (o := .imul) rfl
  | divide => exact closed.integerDivision out lhs rhs

theorem binary (op : BinaryOp) (out : Location) (ty : Ty) (lhs rhs : Value) :
    Respects R (Lower.binary op out ty lhs rhs) :=
  Plain.ite (closed.matrixProduct _ _ _) <| Plain.ite (closed.matrixVector _ _ _) <| Plain.ite (closed.vectorScalar _ _ _) <|
    Plain.ite (closed.packed _ _ _ _) <| Plain.ite (closed.scalarFloat _ _ _ _) (closed.scalarInt _ _ _ _)

/-- **The signs of a row are flipped** by the mask that waits for it. -/
theorem flip {t : LoweringState} {offset : Nat} (out src : Location) (w : Width) (pending : Pending R signMask offset s t) :
    Results (do
      let (acc, lease) ← Lower.accumulator out .simd [out, src]
      Lower.transfer w acc src
      Lower.emit .xorps acc (.globalMemory offset)
      Lower.settle out acc lease w) t fun _ u => R s u ∧ u.constants = t.constants := by
  refine ((plain_plainly.accumulator out .simd [out, src] t).and (plain_constants.accumulator _ _ _ t)).bind ?_
  rintro ⟨acc, lease⟩ u ⟨plainly, same⟩
  refine ((plain_plainly.transfer w acc src u).and (plain_constants.transfer w acc src u)).bind ?_
  rintro _ v ⟨plainly', same'⟩
  refine (closed.emitMask rfl acc rfl ((pending.behind plainly).behind plainly')).bind ?_
  rintro _ x ⟨led, -, same₂⟩
  refine ((closed.settle out acc lease w x).and (plain_constants.settle out acc lease w x)).mono ?_
  rintro _ y ⟨led', same₃⟩
  exact ⟨closed.trans led led', same₃.trans (same₂.trans (same'.trans same))⟩

/-- The rows behind the first one read the mask where it is pooled. -/
theorem flipRows {offset : Nat} (out src : Location) (w : Width) : ∀ (rows : List Nat) {t : LoweringState},
    t.constants.offset? (.vector signMask) = some offset → Results (rows.forM fun row => do
      let dest := out.offsetBy (row * 16)
      let src := src.offsetBy (row * 16)
      let (acc, lease) ← Lower.accumulator dest .simd [dest, src]
      Lower.transfer w acc src
      Lower.emit .xorps acc (.globalMemory offset)
      Lower.settle dest acc lease w) t fun _ u => R t u
  | [], t, _ => .pure (closed.refl t)
  | row :: rows, t, known => by
    refine (closed.flip (out.offsetBy (row * 16)) (src.offsetBy (row * 16)) w (closed.pending_known known)).bind ?_
    rintro _ u ⟨led, same⟩
    exact (flipRows out src w rows (same ▸ known)).mono fun _ _ led' => closed.trans led led'

theorem negate (out : Location) (v : Value) : Respects R (Lower.negate out v) := by
  unfold Lower.negate
  split
  · exact closed.step (closed.accumulator _ _ _) fun _ => closed.step (closed.transfer _ _ _) fun _ =>
      closed.step (closed.emitUnary _ [] rfl) fun _ => closed.settle _ _ _ _
  · intro s
    refine (closed.constant_pending signMask).bind ?_
    rintro _ t ⟨offset, rfl, pending, -, known⟩
    -- There is a first row, for which the mask may have joined the pool.
    have some : rowCount v.ty ≠ 0 := by cases v.ty <;> decide
    obtain ⟨n, rows⟩ := Nat.exists_eq_succ_of_ne_zero some
    rw [rows, Lower.forRows, List.range_succ_eq_map]
    refine (closed.flip (out.offsetBy (0 * 16)) (v.location.offsetBy (0 * 16)) _ pending).bind ?_
    rintro _ u ⟨led, same⟩
    exact (closed.flipRows out v.location _ _ (same ▸ known)).mono fun _ _ led' => closed.trans led led'

theorem invert (out : Location) (v : Value) : Respects R (Lower.invert out v) :=
  closed.step (closed.accumulator _ _ _) fun _ => closed.step (closed.transfer _ _ _) fun _ =>
    closed.step (closed.emitUnary _ _ rfl) fun _ => closed.settle _ _ _ _

/-! ## Intrinsic functions -/

theorem dotProduct (acc a : Location) (b : Option Location) : Respects R (Lower.dotProduct acc a b) :=
  closed.step (closed.transfer _ _ _) fun _ => closed.keepThree acc _ <|
    closed.step (closed.emit _ _ [] rfl) fun _ => closed.emit _ _ [] rfl

theorem normalize (out : Location) (v : Value) : Respects R (Lower.normalize out v) :=
  closed.step (closed.acquire _ _) fun _ => closed.step (closed.acquire _ _) fun _ =>
    closed.step (closed.transfer _ _ _) fun _ => closed.step (closed.dotProduct _ _ _) fun _ =>
      closed.step (closed.emit _ _ [] rfl) fun _ => closed.step (closed.emit _ _ [] rfl) fun _ =>
        closed.step (closed.transfer _ _ _) fun _ => closed.step (closed.release _) fun _ => closed.release _

theorem vectorLength (out : Location) (v : Value) : Respects R (Lower.vectorLength out v) :=
  closed.step (closed.acquire _ _) fun _ => closed.step (closed.dotProduct _ _ _) fun _ =>
    closed.step (closed.emit _ _ [] rfl) fun _ => closed.step (closed.transfer _ _ _) fun _ => closed.release _

theorem dot3 (out : Location) (a b : Value) : Respects R (Lower.dot3 out a b) :=
  closed.step (closed.acquire _ _) fun _ => closed.step (closed.dotProduct _ _ _) fun _ =>
    closed.step (closed.transfer _ _ _) fun _ => closed.release _

/-- A bound is taken where a float is beyond it. -/
theorem takeBound (acc bound : Location) (form : JumpForm) {k : Lower Unit} (hk : Respects R k) : Respects R (do
    Lower.emit .comiss acc bound
    let within ← Lower.emitJump form
    Lower.emit .movssLoad acc bound
    Lower.bindLabel within
    k) :=
  closed.step (closed.emit _ _ [] rfl) fun _ => closed.step (closed.emitJump form) fun _ =>
    closed.step (closed.emit _ _ [] rfl) fun _ => closed.step (closed.bindLabel _) fun _ => hk

theorem clamp (out : Location) (x lo hi : Value) : Respects R (Lower.clamp out x lo hi) :=
  closed.step (closed.accumulator _ _ _) fun _ => closed.step (closed.store _ _ _) fun _ =>
    closed.step (closed.floatOperand _ _) fun _ => closed.step (closed.floatOperand _ _) fun _ =>
      closed.takeBound _ _ _ <| closed.takeBound _ _ _ <| closed.step (closed.releaseOption _) fun _ =>
        closed.step (closed.releaseOption _) fun _ => closed.settle _ _ _ _

theorem intrinsic (name : String) (out : Location) (args : List Value) :
    Respects R (Lower.intrinsic name out args) := by
  unfold Lower.intrinsic
  split
  · exact closed.normalize _ _
  · exact closed.vectorLength _ _
  · exact closed.dot3 _ _ _
  · exact closed.larger _ _ _
  · exact closed.clamp _ _ _ _
  · exact closed.pure ()
  · exact Plain.fail _

/-! ## Comparisons -/

theorem compareInts (lhs rhs : Value) : Respects R (Lower.compareInts lhs rhs) :=
  Plain.ite (closed.emit _ _ [] rfl) <| Plain.ite (closed.emitStore _ _ rfl) <|
    closed.step (closed.acquire _ _) fun _ => closed.step (closed.transfer _ _ _) fun _ =>
      closed.step (closed.emit _ _ [] rfl) fun _ => closed.release _

theorem compareFloats (lhs rhs : Value) : Respects R (Lower.compareFloats lhs rhs) := by
  have rest (left : Location × Option Lease) : Respects R (do
      let (right, rightLease) ← Lower.floatOperand rhs [left.1, lhs.location, rhs.location]
      Lower.emit .comiss left.1 right
      Lower.releaseOption rightLease
      Lower.releaseOption left.2) :=
    closed.step (closed.floatOperand _ _) fun _ => closed.step (closed.emit _ _ [] rfl) fun _ =>
      closed.step (closed.releaseOption _) fun _ => closed.releaseOption _
  exact Plain.ite (p := lhs.ty = .float ∧ lhs.location.isRegister = true) (closed.step (closed.pure _) rest)
    (closed.step (closed.acquire _ _) fun _ => closed.step (closed.store _ _ _) fun _ =>
      closed.step (closed.pure _) rest)

theorem compare (op : RelationalOp) (lhs rhs : Value) : Respects R (Lower.compare op lhs rhs) :=
  Plain.ite (Plain.fail _) <| Plain.ite (closed.step (closed.compareInts _ _) fun _ => closed.pure _)
    (closed.step (closed.compareFloats _ _) fun _ => closed.pure _)

theorem emitReturn : Respects R Lower.emitReturn := closed.write rfl

end Masking

end Shading.Lower
