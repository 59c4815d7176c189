import Shading.Lowering.Statement
import Shading.Proofs.Frames.Emission

/-!
# What the operations change

Each way of moving a value, and each operation on values, writes the place of
its result and nothing else that it may not: it computes in registers that it
has leased, and gives each of them back. There is one lemma for each, and
what it asks of the place of the result is that it may be written as a value
of its type (`Permit.AdmitsValue`).
-/

namespace Shading

open LoweringState Permit

namespace Permit

/-- **A place that may be written as a value of a type**, row by row. -/
def AdmitsValue (P : Permit) (s₁ : LoweringState) (held : List Lease) (out : Location) (ty : Ty) : Prop :=
  ∀ row < Lower.rowCount ty, P.Admits s₁ held (out.offsetBy (16 * row)) (Width.ofTy ty).registerClass
    (4 * (Width.ofTy ty).words)

variable {P : Permit} {s₁ : LoweringState} {held held' : List Lease} {out : Location} {ty : Ty}

theorem offsetBy_zero (l : Location) : l.offsetBy 0 = l := by cases l <;> rfl

theorem rowCount_pos (ty : Ty) : 0 < Lower.rowCount ty := by cases ty <;> decide

theorem AdmitsValue.first (h : P.AdmitsValue s₁ held out ty) :
    P.Admits s₁ held out (Width.ofTy ty).registerClass (4 * (Width.ofTy ty).words) := by
  have := h 0 (rowCount_pos ty)
  rwa [Nat.mul_zero, offsetBy_zero] at this

/-- A register that may be written, as the place of a value that fits into
it. -/
theorem Own.admitsValue (ty : Ty) (h : P.Own held (Width.ofTy ty).registerClass out) :
    P.AdmitsValue s₁ held out ty :=
  fun row _ => by
  have same : out.offsetBy (16 * row) = out := by
    obtain ⟨id, rfl, -⟩ := h
    cases (Width.ofTy ty).registerClass <;> rfl
  rw [same]
  exact h.admits _

/-- The rows of a value are within its bytes. -/
theorem row_within {ty : Ty} (storage : ty.size ≠ 0) {row : Nat} (small : row < Lower.rowCount ty) :
    16 * row + 4 * (Width.ofTy ty).words ≤ ty.size := by
  cases ty <;> simp [Lower.rowCount, Ty.size, Ty.isMatrix, Ty.elementCount, Width.words, Width.ofTy] at storage small ⊢ <;>
    omega

/-- **A place for a value may be written** if it is a register that may, or
memory all of whose bytes may. -/
theorem admitsValue_of (storage : ty.size ≠ 0)
    (whole : out.isRegister = true → P.Own held (Width.ofTy ty).registerClass out)
    (memory : out.isInMemory = true → ∀ b n, b + n ≤ ty.size →
      P.memory (out.offsetBy b) n ∧ P.Bounds s₁ n (out.offsetBy b))
    (reads : P.Reads out) : P.AdmitsValue s₁ held out ty := fun row small => by
  refine ⟨fun register => ?_, fun inMemory => ?_, reads.offsetBy _⟩
  · cases out with
    | register id => exact whole rfl
    | simdRegister id => exact whole rfl
    | _ => cases register
  · refine memory ?_ _ _ (row_within storage small)
    cases out <;> first | rfl | cases inMemory

theorem own_of_grants {l l' : Layout} {c : RegisterClass} {avoid : List Location} {x : Lease} {id : Nat}
    (grants : l.Grants l' c avoid x id) : P.Own (held ++ [x]) c x.location :=
  ⟨id, grants.location, grants.pool, .inl ⟨x, List.mem_append_right _ (List.mem_singleton_self x), grants.location⟩⟩

end Permit

namespace Lower

variable {P : Permit} {s₁ s t : LoweringState} {registers : List Location} {held : List Lease}
  {out dest src : Location} {ty : Ty} {v lhs rhs : Value}

/-! ## Repetition -/

/-- An action for each of some values. -/
theorem forM_conducts {α : Type} {action : α → Lower Unit} (xs : List α) (h : Conduct P s₁ s registers held)
    (each : ∀ x ∈ xs, ∀ t, Conduct P s₁ t registers held →
      Results (action x) t fun _ u => Conduct P s₁ u registers held) :
    Results (xs.forM action) s fun _ t => Conduct P s₁ t registers held := by
  induction xs generalizing s with
  | nil => exact .pure h
  | cons x xs ih =>
    refine (each x List.mem_cons_self s h).bind fun _ t h' => ?_
    exact ih h' fun y hy => each y (List.mem_cons_of_mem _ hy)

theorem forRows_conducts {action : Nat → Lower Unit} (rows : Nat) (h : Conduct P s₁ s registers held)
    (each : ∀ row < rows, ∀ t, Conduct P s₁ t registers held →
      Results (action row) t fun _ u => Conduct P s₁ u registers held) :
    Results (forRows rows action) s fun _ t => Conduct P s₁ t registers held :=
  forM_conducts (List.range rows) h fun row hr => each row (List.mem_range.1 hr)

/-! ## Moves -/

theorem load_written (w : Width) : w.load.written? = some w.registerClass := by cases w <;> rfl

/-- **Moving a value** writes the place it goes to. -/
theorem transfer_conducts (h : Conduct P s₁ s registers held) (w : Width)
    (admits : P.Admits s₁ held dest w.registerClass (4 * w.words)) (reads : P.Reads src) :
    Results (transfer w dest src) s fun _ t => Conduct P s₁ t registers held := by
  unfold transfer
  split
  · exact .pure h
  split
  · next whole => exact emit_conducts h (load_written w) (admits.register whole) reads []
  split
  · exact emitStore_conducts h src (store_stored w) admits
  · refine (acquire_conducts h _ _).bind ?_
    rintro x t ⟨h₁, id, grants⟩
    have own : P.Own (held ++ [x]) w.registerClass x.location := own_of_grants grants
    refine (emit_conducts h₁ (load_written w) own reads []).bind fun _ t h₂ => ?_
    refine (emitStore_conducts h₂ x.location (store_stored w)
      (admits.mono (List.subset_append_left _ _))).bind fun _ t h₃ => ?_
    exact release_last_conducts h₃

/-- **The register that a result is computed in** may be written. -/
theorem accumulator_conducts (h : Conduct P s₁ s registers held) {c : RegisterClass} {n : Nat}
    (admits : P.Admits s₁ held out c n) (avoid : List Location) :
    Results (accumulator out c avoid) s fun r t => Conduct P s₁ t registers (held ++ r.2.toList) ∧
      P.Own (held ++ r.2.toList) c r.1 := by
  unfold accumulator
  split
  · next own =>
    simp only [Bool.and_eq_true] at own
    refine .pure ⟨by simpa using h, ?_⟩
    simpa using admits.register own.1
  · refine (acquire_conducts h c avoid).bind ?_
    rintro x t ⟨h₁, id, grants⟩
    exact .pure ⟨h₁, own_of_grants grants⟩

/-- Moving a result from a register to its place. -/
theorem settle_conducts {acc : Location} {lease : Option Lease} {c : RegisterClass}
    (h : Conduct P s₁ s registers (held ++ lease.toList)) (w : Width)
    (admits : P.Admits s₁ held out w.registerClass (4 * w.words)) (own : P.Own (held ++ lease.toList) c acc) :
    Results (settle out acc lease w) s fun _ t => Conduct P s₁ t registers held := by
  cases lease with
  | none =>
    rw [Option.toList_none, List.append_nil] at h
    exact .pure h
  | some x =>
    refine (transfer_conducts h w (admits.mono (List.subset_append_left _ _)) own.reads).bind fun _ t h' => ?_
    exact release_last_conducts h'

/-- **Storing a value in a place that is no lane.** -/
theorem storeWhole_conducts (h : Conduct P s₁ s registers held) (admits : P.AdmitsValue s₁ held dest ty)
    (reads : P.Reads v.location) :
    Results (storeWhole dest ty v) s fun _ t => Conduct P s₁ t registers held := by
  unfold storeWhole
  split
  · refine (accumulator_conducts h admits.first _).bind ?_
    rintro ⟨acc, lease⟩ t ⟨h₁, own⟩
    refine (emit_conducts h₁ rfl own reads []).bind fun _ t h₂ => ?_
    exact settle_conducts h₂ .single admits.first own
  · refine (accumulator_conducts h admits.first _).bind ?_
    rintro ⟨acc, lease⟩ t ⟨h₁, own⟩
    refine (emit_conducts h₁ rfl own reads []).bind fun _ t h₂ => ?_
    exact settle_conducts h₂ .dword admits.first own
  · rename_i ty _ _ _ _
    split
    · next matrix =>
      refine forRows_conducts _ h fun row small t h' => transfer_conducts h' .packed ?_ (reads.offsetBy _)
      have packed : Width.ofTy ty = .packed := by
        revert matrix
        cases ty <;> decide
      have := admits row (by rw [rowCount, if_pos matrix]; exact small)
      rwa [packed] at this
    · exact transfer_conducts h _ admits.first reads

/-- A register that may be written is no lane. -/
theorem store_own {c : RegisterClass} {acc : Location} (own : P.Own held c acc) (ty : Ty) (v : Value) :
    store acc ty v = storeWhole acc ty v := by
  obtain ⟨id, rfl, -⟩ := own
  cases c <;> rfl

/-- The operand of a float instruction. -/
theorem floatOperand_conducts (h : Conduct P s₁ s registers held) (reads : P.Reads v.location) (avoid : List Location) :
    Results (floatOperand v avoid) s fun r t => Conduct P s₁ t registers (held ++ r.2.toList) ∧ P.Reads r.1 := by
  unfold floatOperand
  split
  · exact .pure ⟨by simpa using h, reads⟩
  · refine (acquire_conducts h .simd avoid).bind ?_
    rintro x t ⟨h₁, id, grants⟩
    have own : P.Own (held ++ [x]) .simd x.location := own_of_grants grants
    refine (emit_conducts h₁ rfl own reads []).bind fun _ t h₂ => ?_
    exact .pure ⟨h₂, own.reads⟩

/-! ## Vectors and matrices -/

theorem width_of_vector {ty : Ty} (vector : ty.isVector = true) : Width.ofTy ty = .packed := by
  revert vector
  cases ty <;> decide

/-- A row of a vector or a matrix may be written as a vector. -/
theorem admits_row (admits : P.AdmitsValue s₁ held out ty) (vector : ty.isVector = true) (row : Nat)
    (small : row < rowCount ty) : P.Admits s₁ held (out.offsetBy (16 * row)) .simd 16 := by
  have := admits row small
  rwa [width_of_vector vector] at this

/-- The first row of one. -/
theorem admits_vector (admits : P.AdmitsValue s₁ held out ty) (vector : ty.isVector = true) :
    P.Admits s₁ held out .simd 16 := by
  have := admits.first
  rwa [width_of_vector vector] at this

/-- Adding or subtracting two rows. -/
theorem packedRow_conducts (h : Conduct P s₁ s registers held) {o : Opcode} {l r : Location}
    (written : o.written? = some .simd) (admits : P.Admits s₁ held dest .simd 16) (left : P.Reads l)
    (right : P.Reads r) :
    Results (do
      let (acc, lease) ← accumulator dest .simd [dest, l, r]
      transfer .packed acc l
      emit o acc r
      settle dest acc lease .packed) s fun _ t => Conduct P s₁ t registers held := by
  refine (accumulator_conducts h admits _).bind ?_
  rintro ⟨acc, lease⟩ t ⟨h₁, own⟩
  refine (transfer_conducts h₁ .packed (own.admits _) left).bind fun _ t h₂ => ?_
  refine (emit_conducts h₂ written own right []).bind fun _ t h₃ => ?_
  exact settle_conducts h₃ .packed admits own

/-- Adding or subtracting row by row. -/
theorem packed_conducts (h : Conduct P s₁ s registers held) (op : BinaryOp) (vector : lhs.ty.isVector = true)
    (admits : P.AdmitsValue s₁ held out lhs.ty) (left : P.Reads lhs.location) (right : P.Reads rhs.location) :
    Results (packed op out lhs rhs) s fun _ t => Conduct P s₁ t registers held := by
  have place {row : Nat} (small : row < rowCount lhs.ty) : P.Admits s₁ held (out.offsetBy (row * 16)) .simd 16 :=
    Nat.mul_comm 16 row ▸ admits_row admits vector _ small
  unfold packed
  cases op with
  | add =>
    exact forRows_conducts _ h fun row small t h' =>
      packedRow_conducts h' (o := .addps) rfl (place small) (left.offsetBy _) (right.offsetBy _)
  | subtract =>
    exact forRows_conducts _ h fun row small t h' =>
      packedRow_conducts h' (o := .subps) rfl (place small) (left.offsetBy _) (right.offsetBy _)
  | multiply => rintro _ _ ⟨⟩
  | divide => rintro _ _ ⟨⟩

/-- Scaling a vector. -/
theorem vectorScalar_conducts (h : Conduct P s₁ s registers held) (vector : ty.isVector = true)
    (admits : P.AdmitsValue s₁ held out ty) (left : P.Reads lhs.location) (right : P.Reads rhs.location) :
    Results (vectorScalar out lhs rhs) s fun _ t => Conduct P s₁ t registers held := by
  have place := admits_vector admits vector
  unfold vectorScalar
  refine (acquire_conducts h .simd _).bind ?_
  rintro x t ⟨h₁, id, grants⟩
  have own : P.Own (held ++ [x]) .simd x.location := own_of_grants grants
  refine (storeWhole_conducts h₁ (own.admitsValue .float) right).bind fun _ t h₂ => ?_
  refine (emit_conducts h₂ rfl own own.reads [0]).bind fun _ t h₃ => ?_
  refine (accumulator_conducts h₃ (place.mono (List.subset_append_left _ _)) _).bind ?_
  rintro ⟨acc, lease⟩ t ⟨h₄, ownAcc⟩
  refine (transfer_conducts h₄ .packed (ownAcc.admits _) left).bind fun _ t h₅ => ?_
  refine (emit_conducts h₅ rfl ownAcc own.reads []).bind fun _ t h₆ => ?_
  refine (settle_conducts h₆ .packed (place.mono (List.subset_append_left _ _)) ownAcc).bind fun _ t h₇ => ?_
  exact release_last_conducts h₇

/-- **SSE registers are leased**, each of which may be written. -/
theorem acquireSimd_conducts (count : Nat) : ∀ {s : LoweringState} {held : List Lease},
    Conduct P s₁ s registers held → ∀ avoid : List Location, Results (acquireSimd count avoid) s fun xs t =>
      Conduct P s₁ t registers (held ++ xs) ∧ ∀ x ∈ xs, P.Own (held ++ xs) .simd x.location := by
  induction count with
  | zero =>
    intro s held h avoid
    exact .pure ⟨by simpa using h, by simp⟩
  | succ count ih =>
    intro s held h avoid
    unfold acquireSimd
    refine (acquire_conducts h .simd avoid).bind ?_
    rintro x t ⟨h₁, id, grants⟩
    have own : P.Own (held ++ [x]) .simd x.location := own_of_grants grants
    refine (ih h₁ _).bind ?_
    rintro xs u ⟨h₂, owns⟩
    have assoc : held ++ [x] ++ xs = held ++ x :: xs := by simp
    rw [assoc] at h₂ owns
    refine .pure ⟨h₂, fun y hy => ?_⟩
    rcases List.mem_cons.1 hy with rfl | hy
    · exact own.mono (by rw [← assoc]; exact List.subset_append_left _ _)
    · exact owns y hy

/-- **Leases end** in the reverse of the order in which they started. -/
theorem releaseAll_conducts (xs : List Lease) (h : Conduct P s₁ s registers (held ++ xs)) :
    Results (releaseAll xs.reverse) s fun _ t => Conduct P s₁ t registers held := by
  induction xs using List.reverseRecOn generalizing s with
  | nil =>
    rw [List.append_nil] at h
    exact .pure h
  | append_singleton xs x ih =>
    rw [List.reverse_append, List.reverse_singleton, List.singleton_append, releaseAll]
    rw [← List.append_assoc] at h
    refine (release_last_conducts h).bind fun _ t h' => ?_
    exact ih h'

/-- **A register is masked** with a pooled constant. -/
theorem mask_conducts (h : Conduct P s₁ s registers held) {acc : Location} (own : P.Own held .simd acc) (c : Constant) :
    Results (do emit .andps acc (← constant c)) s fun _ t => Conduct P s₁ t registers held := by
  refine (constant_conducts h c).bind ?_
  rintro _ t ⟨h₁, o, rfl, -⟩
  exact emit_conducts h₁ rfl own (P.reads_global o) []

/-- Applying a matrix to a vector. -/
theorem matrixVector_conducts (h : Conduct P s₁ s registers held) (vector : ty.isVector = true)
    (admits : P.AdmitsValue s₁ held out ty) (left : P.Reads lhs.location) (right : P.Reads rhs.location) :
    Results (matrixVector out lhs rhs) s fun _ t => Conduct P s₁ t registers held := by
  have place := admits_vector admits vector
  unfold matrixVector
  refine (acquireSimd_conducts 4 h _).bind ?_
  rintro xs t ⟨h₁, owns⟩
  dsimp only
  split
  · next r₀ r₁ r₂ r₃ four =>
    have owned {r : Location} (mem : r ∈ [r₀, r₁, r₂, r₃]) : P.Own (held ++ xs) .simd r := by
      rw [← four] at mem
      obtain ⟨x, hx, rfl⟩ := List.mem_map.1 mem
      exact owns x hx
    have add {r r' : Location} (mem : r ∈ [r₀, r₁, r₂, r₃]) (mem' : r' ∈ [r₀, r₁, r₂, r₃]) {t : LoweringState}
        (h : Conduct P s₁ t registers (held ++ xs)) :
        Results (emit .haddps r r') t fun _ u => Conduct P s₁ u registers (held ++ xs) :=
      emit_conducts h rfl (owned mem) (owned mem').reads []
    refine (forM_conducts _ h₁ fun p hp t h' => ?_).bind fun _ t h₂ => ?_
    · obtain ⟨r, row⟩ := p
      have own := owned (List.mem_of_mem_take (List.fst_mem_of_mem_zipIdx hp))
      refine (transfer_conducts h' .packed (own.admits _) (left.offsetBy _)).bind fun _ t h'' => ?_
      refine (emit_conducts h'' rfl own right []).bind fun _ t h₃ => ?_
      dsimp only
      split
      · exact mask_conducts h₃ own _
      · exact .pure h₃
    have cleared : Results (if lhs.ty.elementCount = 3 then emit .xorps r₃ r₃ else pure ()) t
        fun _ u => Conduct P s₁ u registers (held ++ xs) := by
      split
      · exact emit_conducts h₂ rfl (owned (by simp)) (owned (r := r₃) (by simp)).reads []
      · exact .pure h₂
    refine Results.optional cleared fun t h₃ => ?_
    refine (add (by simp) (by simp) h₃).bind fun _ t h₄ => ?_
    refine (add (by simp) (by simp) h₄).bind fun _ t h₅ => ?_
    refine (add (by simp) (by simp) h₅).bind fun _ t h₆ => ?_
    refine (transfer_conducts h₆ .packed (place.mono (List.subset_append_left _ _))
      (owned (r := r₀) (by simp)).reads).bind fun _ t h₇ => ?_
    exact releaseAll_conducts xs h₇
  · exact releaseAll_conducts xs h₁

/-- Multiplying matrices. -/
theorem matrixProduct_conducts (h : Conduct P s₁ s registers held) (matrix : lhs.ty.isMatrix = true)
    (admits : P.AdmitsValue s₁ held out lhs.ty) (left : P.Reads lhs.location) (right : P.Reads rhs.location) :
    Results (matrixProduct out lhs rhs) s fun _ t => Conduct P s₁ t registers held := by
  have vector : lhs.ty.isVector = true := by
    revert matrix
    cases lhs.ty <;> decide
  unfold matrixProduct
  refine (acquire_conducts h .simd _).bind ?_
  rintro a t ⟨h₁, id, grants⟩
  have ownA : P.Own (held ++ [a]) .simd a.location := own_of_grants grants
  refine (acquire_conducts h₁ .simd _).bind ?_
  rintro x t ⟨h₂, id', grants'⟩
  have ownX : P.Own (held ++ [a] ++ [x]) .simd x.location := own_of_grants grants'
  have ownA := ownA.mono (List.subset_append_left _ [x])
  refine (forRows_conducts _ h₂ fun i small t h' => ?_).bind fun _ t h₃ => ?_
  · refine (emit_conducts h' rfl ownA ownA.reads []).bind fun _ t h' => ?_
    refine (forRows_conducts _ h' fun j _ t h' => ?_).bind fun _ t h' => ?_
    · refine (emit_conducts h' rfl ownX (left.offsetBy _) []).bind fun _ t h' => ?_
      refine (emit_conducts h' rfl ownX ownX.reads [0]).bind fun _ t h' => ?_
      refine (emit_conducts h' rfl ownX (right.offsetBy _) []).bind fun _ t h' => ?_
      exact emit_conducts h' rfl ownA ownX.reads []
    · have place := admits_row admits vector i (by rw [rowCount, if_pos matrix]; exact small)
      rw [Nat.mul_comm] at place
      exact transfer_conducts h' .packed (place.mono (by simp [List.append_assoc])) ownA.reads
  · refine (release_last_conducts h₃).bind fun _ t h₄ => ?_
    exact release_last_conducts h₄

/-! ## Scalars -/

/-- **Combining two numbers as floats.** -/
theorem floats_conducts (h : Conduct P s₁ s registers held) {o : Opcode} (written : o.written? = some .simd)
    (admits : P.AdmitsValue s₁ held out .float) (left : P.Reads lhs.location) (right : P.Reads rhs.location) :
    Results (do
      let (acc, lease) ← accumulator out .simd [out, lhs.location, rhs.location]
      store acc .float lhs
      let (operand, operandLease) ← floatOperand rhs [acc, out, lhs.location, rhs.location]
      emit o acc operand
      releaseOption operandLease
      settle out acc lease .single) s fun _ t => Conduct P s₁ t registers held := by
  refine (accumulator_conducts h admits.first _).bind ?_
  rintro ⟨acc, lease⟩ t ⟨h₁, own⟩
  dsimp only at own h₁ ⊢
  rw [store_own own]
  refine (storeWhole_conducts h₁ (own.admitsValue .float) left).bind fun _ t h₂ => ?_
  refine (floatOperand_conducts h₂ right _).bind ?_
  rintro ⟨operand, operandLease⟩ t ⟨h₃, reads⟩
  refine (emit_conducts h₃ written (own.mono (List.subset_append_left _ _)) reads []).bind fun _ t h₄ => ?_
  refine (releaseOption_conducts h₄).bind fun _ t h₅ => ?_
  exact settle_conducts h₅ .single admits.first own

theorem scalarFloat_conducts (h : Conduct P s₁ s registers held) (op : BinaryOp)
    (admits : P.AdmitsValue s₁ held out .float) (left : P.Reads lhs.location) (right : P.Reads rhs.location) :
    Results (scalarFloat op out lhs rhs) s fun _ t => Conduct P s₁ t registers held :=
  floats_conducts h (by cases op <;> rfl) admits left right

/-- The larger of two numbers. -/
theorem larger_conducts (h : Conduct P s₁ s registers held) (admits : P.AdmitsValue s₁ held out .float)
    (left : P.Reads lhs.location) (right : P.Reads rhs.location) :
    Results (larger out lhs rhs) s fun _ t => Conduct P s₁ t registers held :=
  floats_conducts h rfl admits left right

/-- A place that may be written as an integer. -/
theorem admits_integral (admits : P.AdmitsValue s₁ held out ty) (integral : ty.isIntegral = true) :
    P.Admits s₁ held out .general 4 := by
  have := admits.first
  cases ty <;> cases integral <;> exact this

/-- **Combining two integers.** -/
theorem integers_conducts (h : Conduct P s₁ s registers held) {o : Opcode} (written : o.written? = some .general)
    (admits : P.Admits s₁ held out .general 4) (left : P.Reads lhs.location) (right : P.Reads rhs.location) :
    Results (do
      let (acc, lease) ← accumulator out .general [out, lhs.location, rhs.location]
      transfer .dword acc lhs.location
      emit o acc rhs.location
      settle out acc lease .dword) s fun _ t => Conduct P s₁ t registers held := by
  refine (accumulator_conducts h admits _).bind ?_
  rintro ⟨acc, lease⟩ t ⟨h₁, own⟩
  refine (transfer_conducts h₁ .dword (own.admits _) left).bind fun _ t h₂ => ?_
  refine (emit_conducts h₂ written own right []).bind fun _ t h₃ => ?_
  exact settle_conducts h₃ .dword admits own

/-- Computing with integers, but for divisions. -/
theorem scalarInt_conducts (h : Conduct P s₁ s registers held) {op : BinaryOp} (other : op ≠ .divide)
    (integral : ty.isIntegral = true) (admits : P.AdmitsValue s₁ held out ty) (left : P.Reads lhs.location)
    (right : P.Reads rhs.location) :
    Results (scalarInt op out lhs rhs) s fun _ t => Conduct P s₁ t registers held := by
  have place := admits_integral admits integral
  unfold scalarInt
  cases op with
  | add => exact integers_conducts h (o := .add) rfl place left right
  | subtract => exact integers_conducts h (o := .sub) rfl place left right
  | multiply => exact integers_conducts h (o := .imul) rfl place left right
  | divide => exact absurd rfl other

/-- Negating a value. -/
theorem negate_conducts (h : Conduct P s₁ s registers held) (admits : P.AdmitsValue s₁ held out v.ty)
    (reads : P.Reads v.location) (valued : v.ty.isIntegral = true ∨ (Width.ofTy v.ty).registerClass = .simd) :
    Results (negate out v) s fun _ t => Conduct P s₁ t registers held := by
  unfold negate
  split
  · next integral =>
    have place := admits_integral admits integral
    refine (accumulator_conducts h place _).bind ?_
    rintro ⟨acc, lease⟩ t ⟨h₁, own⟩
    refine (transfer_conducts h₁ .dword (own.admits _) reads).bind fun _ t h₂ => ?_
    refine (emitUnary_conducts h₂ (o := .neg) rfl (own.admits _) []).bind fun _ t h₃ => ?_
    exact settle_conducts h₃ .dword place own
  · next other =>
    have simd := valued.resolve_left other
    refine (constant_conducts h _).bind ?_
    rintro _ t ⟨h₁, o, rfl, -⟩
    refine forRows_conducts _ h₁ fun row small t h' => ?_
    have place := admits row small
    rw [Nat.mul_comm] at place
    refine (accumulator_conducts h' (simd ▸ place) _).bind ?_
    rintro ⟨acc, lease⟩ t ⟨h₂, own⟩
    refine (transfer_conducts h₂ _ (simd ▸ own.admits _) (reads.offsetBy _)).bind fun _ t h₃ => ?_
    refine (emit_conducts h₃ rfl own (P.reads_global o) []).bind fun _ t h₄ => ?_
    exact settle_conducts h₄ _ place own

/-! ## Intrinsic functions -/

/-- The dot product of the first three lanes is computed in a register. -/
theorem dotProduct_conducts (h : Conduct P s₁ s registers held) {acc a : Location} {b : Option Location}
    (own : P.Own held .simd acc) (left : P.Reads a) (right : ∀ l ∈ b, P.Reads l) :
    Results (dotProduct acc a b) s fun _ t => Conduct P s₁ t registers held := by
  have reads : P.Reads (b.getD acc) := by
    cases b with
    | none => exact own.reads
    | some l => exact right l rfl
  unfold dotProduct
  refine (transfer_conducts h .packed (own.admits _) left).bind fun _ t h₁ => ?_
  refine (emit_conducts h₁ rfl own reads []).bind fun _ t h₂ => ?_
  refine (constant_conducts h₂ _).bind ?_
  rintro _ t ⟨h₃, o, rfl, -⟩
  refine (emit_conducts h₃ rfl own (P.reads_global o) []).bind fun _ t h₄ => ?_
  refine (emit_conducts h₄ rfl own own.reads []).bind fun _ t h₅ => ?_
  exact emit_conducts h₅ rfl own own.reads []

/-- Scaling a vector to length one. -/
theorem normalize_conducts (h : Conduct P s₁ s registers held) (vector : ty.isVector = true)
    (admits : P.AdmitsValue s₁ held out ty) (reads : P.Reads v.location) :
    Results (normalize out v) s fun _ t => Conduct P s₁ t registers held := by
  have place := admits_vector admits vector
  unfold normalize
  refine (acquire_conducts h .simd _).bind ?_
  rintro x t ⟨h₁, id, grants⟩
  have ownX : P.Own (held ++ [x]) .simd x.location := own_of_grants grants
  refine (acquire_conducts h₁ .simd _).bind ?_
  rintro y t ⟨h₂, id', grants'⟩
  have ownY : P.Own (held ++ [x] ++ [y]) .simd y.location := own_of_grants grants'
  have ownX := ownX.mono (List.subset_append_left _ [y])
  refine (transfer_conducts h₂ .packed (ownX.admits _) reads).bind fun _ t h₃ => ?_
  refine (dotProduct_conducts h₃ ownY ownX.reads (b := none) (by rintro _ ⟨⟩)).bind fun _ t h₄ => ?_
  refine (emit_conducts h₄ rfl ownY ownY.reads []).bind fun _ t h₅ => ?_
  refine (emit_conducts h₅ rfl ownX ownY.reads []).bind fun _ t h₆ => ?_
  refine (transfer_conducts h₆ .packed (place.mono (by simp [List.append_assoc])) ownX.reads).bind fun _ t h₇ => ?_
  refine (release_last_conducts h₇).bind fun _ t h₈ => ?_
  exact release_last_conducts h₈

/-- The length of a vector. -/
theorem vectorLength_conducts (h : Conduct P s₁ s registers held) (admits : P.AdmitsValue s₁ held out .float)
    (reads : P.Reads v.location) : Results (vectorLength out v) s fun _ t => Conduct P s₁ t registers held := by
  unfold vectorLength
  refine (acquire_conducts h .simd _).bind ?_
  rintro x t ⟨h₁, id, grants⟩
  have own : P.Own (held ++ [x]) .simd x.location := own_of_grants grants
  refine (dotProduct_conducts h₁ own reads (b := none) (by rintro _ ⟨⟩)).bind fun _ t h₂ => ?_
  refine (emit_conducts h₂ rfl own own.reads []).bind fun _ t h₃ => ?_
  refine (transfer_conducts h₃ .single (admits.first.mono (List.subset_append_left _ _)) own.reads).bind
    fun _ t h₄ => ?_
  exact release_last_conducts h₄

/-- The dot product of the first three lanes. -/
theorem dot3_conducts (h : Conduct P s₁ s registers held) (admits : P.AdmitsValue s₁ held out .float)
    (left : P.Reads lhs.location) (right : P.Reads rhs.location) :
    Results (dot3 out lhs rhs) s fun _ t => Conduct P s₁ t registers held := by
  unfold dot3
  refine (acquire_conducts h .simd _).bind ?_
  rintro x t ⟨h₁, id, grants⟩
  have own : P.Own (held ++ [x]) .simd x.location := own_of_grants grants
  refine (dotProduct_conducts h₁ own left (b := some rhs.location) (by rintro _ ⟨⟩; exact right)).bind
    fun _ t h₂ => ?_
  refine (transfer_conducts h₂ .single (admits.first.mono (List.subset_append_left _ _)) own.reads).bind
    fun _ t h₃ => ?_
  exact release_last_conducts h₃

/-- Clamping a number to bounds. -/
theorem clamp_conducts (h : Conduct P s₁ s registers held) {lo hi : Value} (admits : P.AdmitsValue s₁ held out .float)
    (reads : P.Reads v.location) (readsLo : P.Reads lo.location) (readsHi : P.Reads hi.location) :
    Results (clamp out v lo hi) s fun _ t => Conduct P s₁ t registers held := by
  unfold clamp
  refine (accumulator_conducts h admits.first _).bind ?_
  rintro ⟨acc, lease⟩ t ⟨h₁, own⟩
  dsimp only at own h₁ ⊢
  rw [store_own own]
  refine (storeWhole_conducts h₁ (own.admitsValue .float) reads).bind fun _ t h₂ => ?_
  refine (floatOperand_conducts h₂ readsLo _).bind ?_
  rintro ⟨low, lowLease⟩ t ⟨h₃, readsLow⟩
  refine (floatOperand_conducts h₃ readsHi _).bind ?_
  rintro ⟨high, highLease⟩ t ⟨h₄, readsHigh⟩
  have own' := (own.mono (List.subset_append_left _ lowLease.toList)).mono
    (List.subset_append_left _ highLease.toList)
  refine (inspect_conducts h₄ acc low (.inr rfl) readsLow).bind fun _ t h₅ => ?_
  refine skip_conducts h₅ _ rfl own' readsLow fun t _ _ _ _ _ h₆ => ?_
  refine (inspect_conducts h₆ acc high (.inr rfl) readsHigh).bind fun _ t h₇ => ?_
  refine skip_conducts h₇ _ rfl own' readsHigh fun t _ _ _ _ _ h₈ => ?_
  refine (releaseOption_conducts h₈).bind fun _ t h₉ => ?_
  refine (releaseOption_conducts h₉).bind fun _ t h₁₀ => ?_
  exact settle_conducts h₁₀ .single admits.first own

/-! ## Comparisons -/

/-- Comparing integers. -/
theorem compareInts_conducts (h : Conduct P s₁ s registers held) (left : P.Reads lhs.location)
    (right : P.Reads rhs.location) :
    Results (compareInts lhs rhs) s fun _ t => Conduct P s₁ t registers held := by
  unfold compareInts
  split
  · exact inspect_conducts h _ _ (.inl rfl) right
  split
  · exact inspectStore_conducts h _ _ left
  · refine (acquire_conducts h .general _).bind ?_
    rintro x t ⟨h₁, id, grants⟩
    have own : P.Own (held ++ [x]) .general x.location := own_of_grants grants
    refine (transfer_conducts h₁ .dword (own.admits _) left).bind fun _ t h₂ => ?_
    refine (inspect_conducts h₂ _ _ (.inl rfl) right).bind fun _ t h₃ => ?_
    exact release_last_conducts h₃

/-- The comparison itself, once the left number is in a register. -/
theorem floatsAgainst_conducts {l : Location} (lease : Option Lease)
    (h : Conduct P s₁ s registers (held ++ lease.toList)) (right : P.Reads rhs.location) (avoid : List Location) :
    Results (do
      let (r, rightLease) ← floatOperand rhs avoid
      emit .comiss l r
      releaseOption rightLease
      releaseOption lease) s fun _ t => Conduct P s₁ t registers held := by
  refine (floatOperand_conducts h right avoid).bind ?_
  rintro ⟨r, rightLease⟩ t ⟨h₁, reads⟩
  refine (inspect_conducts h₁ l r (.inr rfl) reads).bind fun _ t h₂ => ?_
  refine (releaseOption_conducts h₂).bind fun _ t h₃ => ?_
  exact releaseOption_conducts h₃

/-- Comparing numbers as floats: the left one is taken where it is if it is
a float in a register, and in a leased register otherwise. -/
theorem compareFloats_conducts (h : Conduct P s₁ s registers held) (left : P.Reads lhs.location)
    (right : P.Reads rhs.location) :
    Results (compareFloats lhs rhs) s fun _ t => Conduct P s₁ t registers held := by
  unfold compareFloats
  dsimp only
  split
  · rw [pure_bind]
    exact floatsAgainst_conducts none (by simpa using h) right _
  · refine (acquire_conducts h .simd _).bind ?_
    rintro x t ⟨h₁, id, grants⟩
    have own : P.Own (held ++ [x]) .simd x.location := own_of_grants grants
    rw [store_own own]
    refine (storeWhole_conducts h₁ (own.admitsValue .float) left).bind fun _ t h₂ => ?_
    rw [pure_bind]
    exact floatsAgainst_conducts (some x) h₂ right _

/-- **Comparing two values.** -/
theorem compare_conducts (h : Conduct P s₁ s registers held) (op : RelationalOp) (left : P.Reads lhs.location)
    (right : P.Reads rhs.location) :
    Results (compare op lhs rhs) s fun _ t => Conduct P s₁ t registers held := by
  unfold compare
  split
  · rintro _ _ ⟨⟩
  split
  · exact (compareInts_conducts h left right).bind fun _ t h' => .pure h'
  · exact (compareFloats_conducts h left right).bind fun _ t h' => .pure h'

end Lower

end Shading
