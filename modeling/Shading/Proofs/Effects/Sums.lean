import Shading.Proofs.Effects.Products

/-!
# Products of matrices under any pressure

A product of matrices is carried out on any machine that serves its code,
however many registers are occupied, and is the sum that is stated
(`Lower.products_summed`).
-/

namespace Shading.Lower

open LoweringState Permit

/-- **A product of a matrix and a vector**, and a machine to carry it out on.
An address of the vector leads to a row. -/
structure AppliesMatrix (out : Location) (matrix vector : Value) (s t : LoweringState) (L : Nat) (m : Machine) : Prop where
  ok : s.Ok
  isMatrix : matrix.ty.isMatrix = true
  element : matrix.ty.element? = some vector.ty
  left : s.Supplies L m matrix.ty matrix.location
  right : s.Supplies L m vector.ty vector.location
  result : s.Supplies L m vector.ty out
  address : ∀ id, vector.location = .indirectRegister id → (m.general64 id).toNat % 16 = 0
  lowered : matrixVector out matrix vector s = .ok (.unit, t)
  serves : t.Serves L m

/-- **A product of matrices** of one type in a place of its own, and a machine
to carry it out on. -/
structure MultipliesMatrices (out : Location) (lhs rhs : Value) (s t : LoweringState) (L : Nat) (m : Machine) : Prop where
  ok : s.Ok
  isMatrix : lhs.ty.isMatrix = true
  same : rhs.ty = lhs.ty
  left : s.Supplies L m lhs.ty lhs.location
  right : s.Supplies L m rhs.ty rhs.location
  result : s.Supplies L m lhs.ty out
  apart : ∀ k, m.takes L out lhs.ty.size k →
    ¬ m.takes L lhs.location lhs.ty.size k ∧ ¬ m.takes L rhs.location rhs.ty.size k
  lowered : matrixProduct out lhs rhs s = .ok (.unit, t)
  serves : t.Serves L m

/-- **Products of matrices are the stated sums.** Of a matrix and a vector, the
sum of the first two products of a row and the sum of the others are added up,
where for three rows the last product is zero, and so is the last lane of the
result. Of two matrices, the products are added up from left to right, starting
from zero, in every lane. -/
theorem products_summed (rsqrt : Word → Word) (L : Nat) :
    (∀ out matrix vector s t m, AppliesMatrix out matrix vector s t L m →
      ∃ m', Machine.Track.run rsqrt (.running m) (t.codeSince s) = .running m' ∧
        (∀ r < matrix.ty.elementCount, m'.part L out r =
          Binary32.add
            (Binary32.add (Binary32.mul (m.part L matrix.location (4 * r)) (m.part L vector.location 0))
              (Binary32.mul (m.part L matrix.location (4 * r + 1)) (m.part L vector.location 1)))
            (Binary32.add (Binary32.mul (m.part L matrix.location (4 * r + 2)) (m.part L vector.location 2))
              (if matrix.ty = .mat3x3 then 0
                else Binary32.mul (m.part L matrix.location (4 * r + 3)) (m.part L vector.location 3)))) ∧
        (matrix.ty = .mat3x3 → m'.part L out 3 = 0)) ∧
    ∀ out lhs rhs s t m, MultipliesMatrices out lhs rhs s t L m →
      ∃ m', Machine.Track.run rsqrt (.running m) (t.codeSince s) = .running m' ∧
        ∀ i < lhs.ty.elementCount, ∀ l < 4, m'.part L out (4 * i + l) =
          (List.range lhs.ty.elementCount).foldl (fun acc j => Binary32.add acc
            (Binary32.mul (m.part L lhs.location (4 * i + j)) (m.part L rhs.location (4 * j + l)))) 0 := by
  refine ⟨fun out matrix vector s t m h => ?_, fun out lhs rhs s t m h => ?_⟩
  · have size := size_of_element h.isMatrix h.element
    have straight := h.right.straight (by cases ty : vector.ty <;> rw [ty] at size <;> first | rfl | cases size)
      h.serves.base h.serves.locals h.address
    have produces := matrixVector_produces rsqrt h.ok h.isMatrix h.element h.left h.right h.result straight
      h.serves.base h.serves.locals _ _ h.lowered
    obtain ⟨m', comes, holds⟩ := produces.reaches (h.result.starts produces.toConduct h.serves.suits) h.serves.pools
    have three := elementCount_eq_three_iff h.isMatrix
    refine ⟨m', comes.run, fun r small => ?_, fun rows => ?_⟩
    · rw [holds r (by rcases elementCount_of_isMatrix h.isMatrix with eq | eq <;> omega), if_pos small, Lanes.sum_terms,
        if_congr three rfl rfl]
      rfl
    · rw [holds 3 (by decide), if_neg (by rw [three.2 rows]; decide)]
  · have produces := matrixProduct_produces rsqrt h.ok h.isMatrix h.same h.left h.right h.result h.apart
      h.serves.base h.serves.locals _ _ h.lowered
    obtain ⟨m', comes, holds⟩ := produces.reaches (h.result.starts produces.toConduct h.serves.suits) h.serves.pools
    refine ⟨m', comes.run, fun i small l lane => ?_⟩
    rw [← Machine.get_rowAt _ _ _ _ lane, holds i small, Lanes.get_weighted _ _ _ lane]
    simp only [Machine.get_rowAt _ _ _ _ lane]

/-! ## Products without a free register -/

/-- A place in local memory, with a value of a type. -/
def localValue (o : Nat) (ty : Ty) : Value := ⟨.localMemory o, ty, none, none⟩

/-- All SSE registers are occupied, and two matrices, a vector and the results
are in memory. -/
def placeOperands : Lower Unit := do
  placeVectors 8
  let _ ← place .mat3x3
  let _ ← place .mat3x3
  let _ ← place .vec3
  let _ ← place .vec3
  let _ ← place .mat3x3

/-- A matrix, the identity and a vector, row by row. The unused lanes hold ones
and no numbers. -/
def matrixWords : List Word :=
  [0x3F800000, 0x40000000, 0x40400000, 0x7FC00000, 0, 0x3F800000, 0, 0x7F800000, 0x40000000, 0, 0, 0x7FC00000,
    0x3F800000, 0, 0, 0x3F800000, 0, 0x3F800000, 0, 0x3F800000, 0, 0, 0x3F800000, 0x3F800000,
    0x40800000, 0x40A00000, 0x40C00000, 0x7FC00000]

/-- Memory with these in the local region, and with the mask of three lanes. -/
def matrixBlock : Block :=
  ((Block.new 256).setBytes 64 xyzMask.bytes).setBytes 128 (matrixWords.flatMap bytesOfWord)

/-- A machine with this memory. -/
def matrixMachine : Machine :=
  let idle : Machine := { base := 4096, block := matrixBlock, ip := 0, registers := {} }
  idle.setGeneral64 6 (4096 + 128)

theorem block_matrixMachine : matrixMachine.block = matrixBlock := by
  rw [matrixMachine, Machine.setGeneral64]

theorem part_matrixMachine (o k : Nat) (small : 4 * (o / 4 + k) + 4 ≤ 112) (aligned : o % 4 = 0) :
    matrixMachine.part 128 (.localMemory o) k = matrixWords.getD (o / 4 + k) 0 := by
  have words : ∀ j < 28, wordOfBytes ((matrixWords.flatMap bytesOfWord).drop (4 * j)) = matrixWords.getD j 0 := by
    decide +kernel
  have at_ : matrixMachine.offsetAt 128 (.localMemory o) + 4 * k = 128 + 4 * (o / 4 + k) := by
    rw [Machine.offsetAt, Machine.addressOf, Nat.add_sub_cancel_left]
    omega
  rw [Machine.part_memory _ _ rfl, at_, Machine.wordAt, block_matrixMachine, matrixBlock,
    Machine.wordOfBytes_getBytes_setBytes _ small, words _ (by omega)]

/-- The mask is pooled where the machine has it. -/
theorem pools_matrixMachine {t : LoweringState} (slots : t.constants.slots = [(.vector xyzMask, 64)]) : t.Pools matrixMachine := by
  intro c hc i small
  rw [slots, List.mem_singleton] at hc
  subst hc
  have small : i < 16 := small
  have outside : ¬ 128 ≤ 64 + i := by omega
  simp only [block_matrixMachine, matrixBlock, Block.get_setBytes]
  rw [if_neg outside, if_pos (Nat.le_add_right _ _), Nat.add_sub_cancel_left, List.getD_eq_getElem?_getD,
    List.getElem?_eq_getElem (Nat.lt_of_lt_of_eq small (Lanes.length_bytes _).symm)]
  exact (congrArg (·.getD 0) (List.getElem?_eq_getElem (Nat.lt_of_lt_of_eq small (Lanes.length_bytes _).symm))).symm

/-- Whether something holds of the states before and after a product of a
matrix and a vector and a product of matrices. -/
def passesProducts (holds : LoweringState → LoweringState → LoweringState → Bool) : Bool :=
  match placeOperands Helper.idleState with
  | .ok (_, s) =>
    match matrixVector (.localMemory 112) (localValue 0 .mat3x3) (localValue 96 .vec3) s with
    | .ok (_, t) =>
      match matrixProduct (.localMemory 128) (localValue 0 .mat3x3) (localValue 48 .mat3x3) t with
      | .ok (_, u) => holds s t u
      | .error _ => false
    | .error _ => false
  | .error _ => false

/-- What is asked of the states. -/
def productsPrepared (s t u : LoweringState) : Bool :=
  s.layout.freeSimd == [] && s.localTop == 176 && t.localTop == 176 && t.layout.globalSize == 80 &&
    u.layout.globalSize == 112 && t.layout.localSize == 176 && u.layout.localSize == 176 &&
    t.constants.slots == [(.vector xyzMask, 64)] && u.constants.slots == [(.vector xyzMask, 64)]

theorem exists_of_passesProducts {holds : LoweringState → LoweringState → LoweringState → Bool}
    (h : passesProducts holds = true) : ∃ s t u, s.Ok ∧
      matrixVector (.localMemory 112) (localValue 0 .mat3x3) (localValue 96 .vec3) s = .ok (.unit, t) ∧
      matrixProduct (.localMemory 128) (localValue 0 .mat3x3) (localValue 48 .mat3x3) t = .ok (.unit, u) ∧
      holds s t u = true := by
  unfold passesProducts at h
  split at h
  · next x s placed =>
    split at h
    · next y t applied =>
      split at h
      · next z u multiplied =>
        have place_ok {s : LoweringState} (ok : s.Ok) (ty : Ty) : Results (place ty) s fun _ t => t.Ok :=
          ok_of_conduct ok fun P h => (place_conducts h ty).mono fun _ _ h' => ⟨_, _, h'.1⟩
        have ok : Results placeOperands Helper.idleState fun _ t => t.Ok :=
          (placeVectors_ok 8 Helper.ok_idleState).bind fun _ _ ok => (place_ok ok _).bind fun _ _ ok =>
            (place_ok ok _).bind fun _ _ ok => (place_ok ok _).bind fun _ _ ok => (place_ok ok _).bind fun _ _ ok =>
              (place_ok ok _).bind fun _ _ ok => .pure ok
        exact ⟨s, t, u, ok _ _ placed, applied, multiplied, h⟩
      · cases h
    · cases h
  · cases h

/-- A place in local memory that has been handed out. -/
theorem supplies_local {s : LoweringState} {L : Nat} {m : Machine} {o : Nat} {ty : Ty} (fits : (Location.localMemory o).Fits ty)
    (below : o + ty.size ≤ s.localTop) : s.Supplies L m ty (.localMemory o) :=
  ⟨fits, by rintro _ _ ⟨⟩, below, by rintro _ ⟨⟩⟩

set_option maxRecDepth 100000 in
/-- **A matrix is applied to a vector and multiplied by the identity** where
all SSE registers are occupied. What is in the unused lanes stays there in the
product of matrices, and is left out of that with the vector. -/
theorem products_summed_occupied : ∃ s t u m₁ m₂, s.layout.freeSimd = [] ∧
    AppliesMatrix (.localMemory 112) (localValue 0 .mat3x3) (localValue 96 .vec3) s t 128 matrixMachine ∧
    Machine.Track.run id (.running matrixMachine) (t.codeSince s) = .running m₁ ∧
    m₁.part 128 (.localMemory 112) 0 = 0x42000000 ∧ m₁.part 128 (.localMemory 112) 3 = 0 ∧
    MultipliesMatrices (.localMemory 128) (localValue 0 .mat3x3) (localValue 48 .mat3x3) t u 128 matrixMachine ∧
    Machine.Track.run id (.running matrixMachine) (u.codeSince t) = .running m₂ ∧
    m₂.part 128 (.localMemory 128) 1 = 0x40000000 ∧ m₂.part 128 (.localMemory 128) 3 = 0x40C00000 := by
  obtain ⟨s, t, u, ok, applied, multiplied, prepared⟩ :=
    exists_of_passesProducts (show passesProducts productsPrepared = true by decide +kernel)
  simp only [productsPrepared, Bool.and_eq_true, beq_iff_eq] at prepared
  -- What is evaluated is the state before the two products, the states after them and
  -- the pool; what the code does comes from the general theorem.
  obtain ⟨⟨⟨⟨⟨⟨⟨⟨free, top⟩, top'⟩, globals⟩, globals'⟩, locals⟩, locals'⟩, slots⟩, slots'⟩ := prepared
  have serves {t : LoweringState} (globals : t.layout.globalSize ≤ 128) (locals : t.layout.localSize = 176)
      (slots : t.constants.slots = [(.vector xyzMask, 64)]) : t.Serves 128 matrixMachine := by
    have size : matrixMachine.block.size = 4096 := by
      rw [block_matrixMachine, matrixBlock, Block.size_setBytes, Block.size_setBytes]
      rfl
    refine ⟨⟨⟨rfl, ?_⟩, globals, ?_, ?_⟩, pools_matrixMachine slots, by decide, by decide⟩
    · rw [size]
      decide
    · rw [size, locals]
      decide
    · rw [locals]
      decide
  have applies : AppliesMatrix (.localMemory 112) (localValue 0 .mat3x3) (localValue 96 .vec3) s t 128 matrixMachine :=
    ⟨ok, rfl, rfl, supplies_local ⟨by decide, by decide⟩ (by rw [top]; decide),
      supplies_local ⟨by decide, by decide⟩ (by rw [top]; decide),
      supplies_local ⟨by decide, by decide⟩ (by rw [top]; decide), by rintro _ ⟨⟩, applied,
      serves (by rw [globals]; decide) locals slots⟩
  have ok' : t.Ok := (matrixVector_produces id ok rfl rfl applies.left applies.right applies.result
    (applies.right.straight rfl (by decide) (by decide) (by rintro _ ⟨⟩)) (by decide) (by decide) _ _ applied).leads.ok
  have multiplies : MultipliesMatrices (.localMemory 128) (localValue 0 .mat3x3) (localValue 48 .mat3x3) t u 128
      matrixMachine := by
    refine ⟨ok', rfl, rfl, supplies_local ⟨by decide, by decide⟩ (by rw [top']; decide),
      supplies_local ⟨by decide, by decide⟩ (by rw [top']; decide),
      supplies_local ⟨by decide, by decide⟩ (by rw [top']; decide), fun k taken => ?_, multiplied,
      serves (by rw [globals']; decide) locals' slots'⟩
    simp only [Machine.takes, localValue, Ty.size] at taken ⊢
    omega
  obtain ⟨vectors, matrices⟩ := products_summed id 128
  obtain ⟨m₁, run₁, sums, last⟩ := vectors _ _ _ _ _ _ applies
  obtain ⟨m₂, run₂, rows⟩ := matrices _ _ _ _ _ _ multiplies
  refine ⟨s, t, u, m₁, m₂, free, applies, run₁, ?_, last rfl, multiplies, run₂, ?_, ?_⟩
  · refine (sums 0 (by decide)).trans ?_
    simp (disch := decide) only [localValue, part_matrixMachine]
    decide +kernel
  · refine (rows 0 (by decide) 1 (by decide)).trans ?_
    simp only [localValue, Ty.elementCount, List.range, List.range.loop, List.foldl_cons, List.foldl_nil]
    simp (disch := decide) only [part_matrixMachine]
    decide +kernel
  · refine (rows 0 (by decide) 3 (by decide)).trans ?_
    simp only [localValue, Ty.elementCount, List.range, List.range.loop, List.foldl_cons, List.foldl_nil]
    simp (disch := decide) only [part_matrixMachine]
    decide +kernel

end Shading.Lower
