import Mathlib.Data.List.Basic
import Mathlib.Data.List.Forall2
import Shading.Proofs.Simulation.Semantics
import Shading.Proofs.Typing.Rules

/-!
# Words that matter

The words that a type leaves unused do not matter: what operations mean depends
on the others alone, and a value that is read from storage is meant up to them
(`Content.Agrees`).
-/

namespace Shading

namespace Ty

variable {t row : Ty} {k j : Nat}

theorem number_of_isScalar (scalar : t.isScalar = true) : t = .int ∨ t = .float := by
  revert scalar
  cases t <;> decide

theorem isScalar_of_isVector (vector : t.isVector = true) : t.isScalar = false := by
  revert vector
  cases t <;> decide

theorem isVector_of_isScalar (scalar : t.isScalar = true) : t.isVector = false ∧ t.isMatrix = false := by
  revert scalar
  cases t <;> decide

theorem isVector_of_lanes (lanes : t.element? = some .float) : t.isVector = true ∧ t.isMatrix = false := by
  revert lanes
  cases t <;> decide

theorem isVector_of_element (matrix : t.isMatrix = true) (element : t.element? = some row) :
    row.isVector = true ∧ row.isMatrix = false := by
  revert matrix element
  cases t <;> cases row <;> decide

/-- The words of the row that a word of a matrix is in. -/
theorem hasWord_of_row (matrix : t.isMatrix = true) (word : t.hasWord k = true) (small : j < t.elementCount) :
    t.hasWord (4 * (k / 4) + j) = true := by
  revert matrix word small
  cases t <;> simp [isMatrix, hasWord, elementCount] <;> omega

/-- The words of the column that a word of a matrix is in. -/
theorem hasWord_of_column (matrix : t.isMatrix = true) (word : t.hasWord k = true) (small : j < t.elementCount) :
    t.hasWord (4 * j + k % 4) = true := by
  revert matrix word small
  cases t <;> simp [isMatrix, hasWord, elementCount] <;> omega

end Ty

namespace Content

/-- **Two values of a type are the same**, but for words that it does not
use. -/
def Agrees (t : Ty) (a b : Content) : Prop := ∀ k, t.hasWord k = true → a k = b k

variable {t l r : Ty} {a a' b b' c : Content}

theorem Agrees.refl (t : Ty) (a : Content) : Agrees t a a := fun _ _ => rfl

theorem Agrees.first (h : Agrees t a b) (size : t.size = 4) : a 0 = b 0 := by
  refine h 0 ?_
  revert size
  cases t <;> decide

theorem Agrees.toFloat (h : Agrees t a b) (scalar : t.isScalar = true) : toFloat t a = toFloat t b := by
  have first := h.first (by revert scalar; cases t <;> decide)
  rw [Content.toFloat, Content.toFloat, first]

/-- A dot product takes three words of each vector, or four. -/
theorem dot_congr {count : Nat} (left : ∀ k < 3, a k = a' k) (right : ∀ k < 3, b k = b' k)
    (last : count ≠ 3 → a 3 = a' 3 ∧ b 3 = b' 3) : dot count a b = dot count a' b' := by
  rw [dot, dot, left 0 (by decide), left 1 (by decide), left 2 (by decide), right 0 (by decide), right 1 (by decide),
    right 2 (by decide)]
  split
  · rfl
  · next four => rw [(last four).1, (last four).2]

theorem matrixProduct_congr (matrix : t.isMatrix = true) (left : Agrees t a a') (right : Agrees t b b') :
    Agrees t (matrixProduct t.elementCount a b) (matrixProduct t.elementCount a' b') := by
  intro k word
  refine List.foldl_ext _ _ _ fun sum j hj => ?_
  have small := List.mem_range.1 hj
  rw [left _ (Ty.hasWord_of_row matrix word small), right _ (Ty.hasWord_of_column matrix word small)]

theorem matrixVector_congr (matrix : l.isMatrix = true) (element : l.element? = some r) (left : Agrees l a a')
    (right : Agrees r b b') : Agrees r (matrixVector l.elementCount a b) (matrixVector l.elementCount a' b') := by
  intro k word
  have words : (l = .mat3x3 ∧ r = .vec3 ∧ k < 3) ∨ (l = .mat4x4 ∧ r = .vec4 ∧ k < 4) := by
    revert matrix element word
    cases l <;> cases r <;> simp [Ty.isMatrix, Ty.hasWord, Ty.element?]
  rcases words with ⟨rfl, rfl, row⟩ | ⟨rfl, rfl, row⟩
  · refine dot_congr (fun j small => left _ ?_) (fun j small => right _ ?_) fun four => absurd rfl four
    · simp only [Ty.hasWord, Bool.and_eq_true, decide_eq_true_eq]
      omega
    · simpa [Ty.hasWord] using small
  · have words (j : Nat) (lane : j < 4) : Ty.mat4x4.hasWord (4 * k + j) = true ∧ Ty.vec4.hasWord j = true := by
      simp only [Ty.hasWord, decide_eq_true_eq]
      omega
    exact dot_congr (fun j small => left _ (words j (by omega)).1) (fun j small => right _ (words j (by omega)).2)
      fun _ => ⟨left _ (words 3 (by decide)).1, right _ (words 3 (by decide)).2⟩

section

variable {op : BinaryOp}

theorem arithmetic_integers (op : BinaryOp) (a b : Content) :
    arithmetic op .int .int a b = (integerOperation op (a 0) (b 0)).map scalar := by
  simp [arithmetic, Ty.isMatrix, Ty.isVector, Ty.tyClass, Ty.arith, Ty.isScalar]

theorem arithmetic_floats (op : BinaryOp) (left : l.isScalar = true) (right : r.isScalar = true)
    (float : l = .float ∨ r = .float) (a b : Content) :
    arithmetic op l r a b = .ok (scalar (floatOperation op (toFloat l a) (toFloat r b))) := by
  obtain ⟨notL, oneL⟩ := Ty.isVector_of_isScalar left
  have joined : l.arith r = .float := by
    rcases Ty.number_of_isScalar left with rfl | rfl <;> rcases Ty.number_of_isScalar right with rfl | rfl <;>
      first | rfl | simp at float
  simp [arithmetic, notL, oneL, joined]

theorem arithmetic_packed (op : BinaryOp) (other : op ≠ .multiply) (vector : t.isVector = true) (a b : Content) :
    arithmetic op t t a b = .ok fun k => floatOperation op (a k) (b k) := by
  simp [arithmetic, vector, Ty.isScalar_of_isVector vector, other]

theorem arithmetic_scaled (lanes : t.element? = some .float) (number : r.isScalar = true) (a b : Content) :
    arithmetic .multiply t r a b = .ok fun k => Binary32.mul (a k) (toFloat r b) := by
  obtain ⟨vector, one⟩ := Ty.isVector_of_lanes lanes
  simp [arithmetic, vector, one, number]

theorem arithmetic_composed (matrix : t.isMatrix = true) (a b : Content) :
    arithmetic .multiply t t a b = .ok (matrixProduct t.elementCount a b) := by
  simp [arithmetic, matrix]

theorem arithmetic_applied (matrix : l.isMatrix = true) (element : l.element? = some r) (a b : Content) :
    arithmetic .multiply l r a b = .ok (matrixVector l.elementCount a b) := by
  obtain ⟨vector, one⟩ := Ty.isVector_of_element matrix element
  simp [arithmetic, matrix, vector, one]

/-- **Arithmetic depends on the words that matter.** -/
theorem arithmetic_congr (yields : op.Yields l r t) (left : Agrees l a a') (right : Agrees r b b')
    (run : arithmetic op l r a b = .ok c) : ∃ c', arithmetic op l r a' b' = .ok c' ∧ Agrees t c c' := by
  have packed (other : op ≠ .multiply) (vector : t.isVector = true) (left : Agrees t a a') (right : Agrees t b b')
      (run : arithmetic op t t a b = .ok c) : ∃ c', arithmetic op t t a' b' = .ok c' ∧ Agrees t c c' := by
    rw [arithmetic_packed op other vector, Except.ok.injEq] at run
    rw [arithmetic_packed op other vector]
    refine ⟨_, rfl, fun k word => (congrFun run k).symm.trans ?_⟩
    rw [left k word, right k word]
  cases yields with
  | integers op =>
    rw [arithmetic_integers, left.first rfl, right.first rfl, ← arithmetic_integers] at run
    exact ⟨c, run, .refl _ c⟩
  | floats op scalarL scalarR float =>
    rw [arithmetic_floats op scalarL scalarR float, left.toFloat scalarL, right.toFloat scalarR,
      ← arithmetic_floats op scalarL scalarR float] at run
    exact ⟨c, run, .refl _ c⟩
  | sum vector => exact packed (by rintro ⟨⟩) vector left right run
  | difference vector => exact packed (by rintro ⟨⟩) vector left right run
  | scaled lanes number =>
    rw [arithmetic_scaled lanes number, Except.ok.injEq] at run
    rw [arithmetic_scaled lanes number]
    refine ⟨_, rfl, fun k word => (congrFun run k).symm.trans ?_⟩
    rw [left k word, right.toFloat number]
  | composed matrix =>
    rw [arithmetic_composed matrix, Except.ok.injEq] at run
    rw [arithmetic_composed matrix]
    exact ⟨_, rfl, run ▸ matrixProduct_congr matrix left right⟩
  | applied matrix element =>
    rw [arithmetic_applied matrix element, Except.ok.injEq] at run
    rw [arithmetic_applied matrix element]
    exact ⟨_, rfl, run ▸ matrixVector_congr matrix element left right⟩

end

theorem negated_congr (same : Agrees t a a') : Agrees t (negated t a) (negated t a') := fun k word => by
  rw [negated, negated, same k word]

theorem inverted_congr (same : Agrees .bool a a') : inverted a = inverted a' := by
  rw [inverted, inverted, same.first rfl]

theorem dot_agrees (left : Agrees .vec4 a a') (right : Agrees .vec4 b b') : dot 3 a b = dot 3 a' b' := by
  have word (k : Nat) (small : k < 3) : Ty.vec4.hasWord k = true := by
    simp only [Ty.hasWord, decide_eq_true_eq]
    omega
  exact dot_congr (fun k small => left k (word k small)) (fun k small => right k (word k small)) fun four => absurd rfl four

end Content

/-- **A function of the stage depends on the words that matter.** -/
theorem Content.intrinsic_congr {rsqrt : Word → Word} {f : StageFunction} (mem : f ∈ stageFunctions)
    {xs ys : List (Ty × Content)} (fits : List.Forall₂ Ty.Stores f.parameters (xs.map Prod.fst))
    (same : List.Forall₂ (fun x y => x.1 = y.1 ∧ Agrees x.1 x.2 y.2) xs ys) :
    Agrees f.returnTy (intrinsic rsqrt f.name xs) (intrinsic rsqrt f.name ys) := by
  simp only [stageFunctions, List.mem_cons, List.not_mem_nil, or_false] at mem
  rcases mem with rfl | rfl | rfl | rfl | rfl | rfl
  · obtain ⟨x, rfl, stores⟩ := Ty.Stores.one fits
    obtain _ | ⟨⟨-, same⟩, _ | _⟩ := same
    rw [stores.vec4_eq] at same
    intro k word
    exact congrArg₂ Binary32.mul (same k word) (congrArg rsqrt (dot_agrees same same))
  · obtain ⟨x, rfl, stores⟩ := Ty.Stores.one fits
    obtain _ | ⟨⟨-, same⟩, _ | _⟩ := same
    rw [stores.vec4_eq] at same
    exact fun k _ => congrArg Binary32.sqrt (dot_agrees same same)
  · obtain ⟨x, y, rfl, storesL, storesR⟩ := Ty.Stores.two fits
    obtain _ | ⟨⟨typeL, sameL⟩, _ | ⟨⟨typeR, sameR⟩, _ | _⟩⟩ := same
    intro k _
    refine congrArg₂ Binary32.max ?_ ?_
    · rw [← typeL, sameL.toFloat storesL.isScalar]
    · rw [← typeR, sameR.toFloat storesR.isScalar]
  · obtain ⟨x, y, rfl, storesL, storesR⟩ := Ty.Stores.two fits
    obtain _ | ⟨⟨-, sameL⟩, _ | ⟨⟨-, sameR⟩, _ | _⟩⟩ := same
    rw [storesL.vec4_eq] at sameL
    rw [storesR.vec4_eq] at sameR
    exact fun k _ => dot_agrees sameL sameR
  · obtain ⟨x, lo, hi, rfl, storesX, storesL, storesH⟩ := Ty.Stores.three fits
    obtain _ | ⟨⟨typeX, sameX⟩, _ | ⟨⟨typeL, sameL⟩, _ | ⟨⟨typeH, sameH⟩, _ | _⟩⟩⟩ := same
    intro k _
    change scalar (clamped _ _ _) k = scalar (clamped _ _ _) k
    rw [← typeX, ← typeL, ← typeH, sameX.toFloat storesX.isScalar, sameL.toFloat storesL.isScalar,
      sameH.toFloat storesH.isScalar]
  · exact fun k word => by cases word

end Shading
