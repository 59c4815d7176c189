import Shading.Proofs.Effects.Intrinsics
import Shading.Proofs.Effects.Products
import Shading.Proofs.Simulation.Words

/-!
# Operations compute what they mean

The place of a result, when an operation on operands in homes of their own has
been carried out, holds what the operation means for what the operands held: in
each word that the type of the result uses.
-/

namespace Shading

open LoweringState Permit

/-- **A place holds a value**, in the words that its type uses. -/
def Machine.Carries (m : Machine) (L : Nat) (ty : Ty) (l : Location) (v : Content) : Prop :=
  ∀ k, ty.hasWord k = true → m.part L l k = v k

theorem Ty.hasWord_word {ty : Ty} (size : ty.size = 4) {k : Nat} (word : ty.hasWord k = true) : k = 0 := by
  revert size word
  cases ty <;> simp [Ty.hasWord, Ty.size]

theorem Machine.number_eq (m : Machine) (L : Nat) (v : Value) : m.number L v = Content.toFloat v.ty (m.part L v.location) :=
  rfl

/-! ## Types -/

namespace Ty

variable {t : Ty}

/-- The words of a vector are its lanes. -/
theorem lane_of_hasWord (lanes : t.element? = some .float) {k : Nat} (word : t.hasWord k = true) : k < 4 := by
  revert lanes word
  cases t <;> simp [element?, hasWord]
  omega

theorem Stores.number (stores : Ty.float.Stores t) : t = .int ∨ t = .float := number_of_isScalar stores.isScalar

end Ty

namespace LoweringState

/-- **Operands and the place of a result** have homes of their own. -/
structure Operates (s : LoweringState) (ty : Ty) (out : Location) (operands : List Value) : Prop where
  result : s.Homes ty out
  /-- Constants are apart from results. -/
  temporary : ∀ o, out ≠ .globalMemory o
  operands : ∀ v ∈ operands, s.Homes v.ty v.location ∧ v.location.Apart v.ty.size ty.size out

namespace Operates

variable {s : LoweringState} {ty : Ty} {out : Location} {operands : List Value} {v : Value} {L : Nat} {m₀ : Machine}

theorem ne (h : s.Operates ty out operands) (hv : v ∈ operands) : v.location ≠ out := by
  obtain ⟨home, apart⟩ := h.operands v hv
  exact apart.ne home.home (size_of_fits home.fits) (size_of_fits h.result.fits)

theorem offers (h : s.Operates ty out operands) (ok : s.Ok) (hv : v ∈ operands) :
    (Permit.result s ok out ty.size).Offers L m₀ v :=
  (h.operands v hv).1.offers h.result (h.operands v hv).2

theorem awaits (h : s.Operates ty out operands) (ok : s.Ok) : (Permit.result s ok out ty.size).Awaits s ty out :=
  h.result.awaits

theorem quiet (h : s.Operates ty out operands) (ok : s.Ok) : (Permit.result s ok out ty.size).Quiet L m₀ :=
  h.result.quiet h.temporary

end Operates

end LoweringState

namespace Lower

variable {s : LoweringState} {ty : Ty} {out : Location} {v lhs rhs : Value} {rsqrt : Word → Word} {L : Nat} {m₀ : Machine}

/-- A word that is computed is all of a result. -/
theorem carries_word {m : Machine} (size : ty.size = 4) {w : Word} (holds : m.part L out 0 = w) :
    m.Carries L ty out (.scalar w) := fun k word => by
  rw [Ty.hasWord_word size word, holds, Content.scalar]

theorem scalar?_floatOpcode (op : BinaryOp) : (floatOpcode op).scalar? = some (Content.floatOperation op) := by
  cases op <;> rfl

/-- Rows that are weighted and added up are those of the product. -/
theorem product_of_rows {m : Machine} (matrix : ty.isMatrix = true) {x y : Location}
    (holds : ∀ i < ty.elementCount, m.rowAt L out i = Lanes.weighted ty.elementCount (fun j => m₀.part L x (4 * i + j))
      (m₀.rowAt L y)) :
    m.Carries L ty out (Content.matrixProduct ty.elementCount (m₀.part L x) (m₀.part L y)) := by
  intro k word
  have lane : k % 4 < 4 := Nat.mod_lt _ (by decide)
  have row : k / 4 < ty.elementCount := by
    revert matrix word
    cases ty <;> simp [Ty.hasWord, Ty.isMatrix, Ty.elementCount] <;> omega
  have same := congrArg (Lanes.get · (k % 4)) (holds _ row)
  simp only [Machine.get_rowAt _ _ _ _ lane, Lanes.get_weighted _ _ _ lane, Nat.div_add_mod] at same
  exact same

/-- Rows that are added up are the elements of the product with a vector. -/
theorem product_of_sums {m : Machine} {l : Ty} (matrix : l.isMatrix = true) (element : l.element? = some ty) {x y : Location}
    (holds : ∀ r < 4, m.part L out r = if r < l.elementCount then
      (Lanes.terms l.elementCount (m₀.rowAt L x r) (m₀.lanesAt L y)).sum else 0) :
    m.Carries L ty out (Content.matrixVector l.elementCount (m₀.part L x) (m₀.part L y)) := by
  intro k word
  have row : k < l.elementCount := by
    revert matrix element word
    cases l <;> cases ty <;> simp [Ty.hasWord, Ty.isMatrix, Ty.element?, Ty.elementCount]
  have lane : k < 4 := by rcases elementCount_of_isMatrix matrix with eq | eq <;> omega
  rw [holds k lane, if_pos row, Lanes.sum_terms]
  rfl

/-- **A binary operation** computes what it means. -/
theorem binary_produces (ok : s.Ok) (operates : s.Operates ty out [lhs, rhs]) (suits : s.Suits L m₀)
    (base : m₀.base % 16 = 0) (locals : L % 16 = 0) {op : BinaryOp} (yields : op.Yields lhs.ty rhs.ty ty)
    (whole : ¬ (op = .divide ∧ ty = .int)) :
    Results (binary op out ty lhs rhs) s fun _ t => Produces (Permit.result s ok out ty.size) s t [] [] rsqrt L m₀ fun m =>
      ∀ c, Content.arithmetic op lhs.ty rhs.ty (m₀.part L lhs.location) (m₀.part L rhs.location) = .ok c →
        m.Carries L ty out c := by
  have start : Produces (Permit.result s ok out ty.size) s s [] [] rsqrt L m₀ fun _ => True := .start _ rsqrt L m₀ trivial
  have left : (Permit.result s ok out ty.size).Offers L m₀ lhs := operates.offers ok (by simp)
  have right : (Permit.result s ok out ty.size).Offers L m₀ rhs := operates.offers ok (by simp)
  have otherL := operates.ne (v := lhs) (by simp)
  have otherR := operates.ne (v := rhs) (by simp)
  have awaits := operates.awaits ok
  generalize typeL : lhs.ty = l at yields
  generalize typeR : rhs.ty = r at yields
  -- The types decide which operation is called, so each rule of the typing is one
  -- operation.
  cases yields with
  | integers op =>
    have run : binary op out .int lhs rhs = scalarInt op out lhs rhs := by
      simp [binary, typeL, typeR, Ty.isMatrix, Ty.isVector, Ty.tyClass]
    have compute {o : Opcode} {f : Word → Word → Word} (computes : o.integer? = some f) :=
      integers_produces start awaits rfl left right (by rw [typeL]; rfl) (by rw [typeR]; rfl) otherL otherR computes
    rw [run]
    unfold scalarInt
    cases op with
    | add => exact (compute (o := .add) rfl).mono fun _ t h => h.mono fun m _ holds c eq => (by cases eq; exact carries_word rfl holds)
    | subtract => exact (compute (o := .sub) rfl).mono fun _ t h => h.mono fun m _ holds c eq => (by cases eq; exact carries_word rfl holds)
    | multiply => exact (compute (o := .imul) rfl).mono fun _ t h => h.mono fun m _ holds c eq => (by cases eq; exact carries_word rfl holds)
    | divide => exact absurd ⟨rfl, rfl⟩ whole
  | floats op scalarL scalarR float =>
    obtain ⟨notL, oneL⟩ := Ty.isVector_of_isScalar scalarL
    have run : binary op out .float lhs rhs = scalarFloat op out lhs rhs := by
      simp [binary, typeL, notL, oneL]
    rw [run]
    refine (scalarFloat_produces start awaits left right (typeL ▸ Ty.number_of_isScalar scalarL)
      (typeR ▸ Ty.number_of_isScalar scalarR) otherL otherR op (scalar?_floatOpcode op)).mono fun _ t h =>
        h.mono fun m _ holds c eq => ?_
    rw [Content.arithmetic_floats op scalarL scalarR float, Except.ok.injEq] at eq
    rw [Machine.number_eq, Machine.number_eq, typeL, typeR] at holds
    rw [← eq]
    exact carries_word rfl holds
  | sum vector =>
    have run : binary .add out ty lhs rhs = packed .add out lhs rhs := by
      simp [binary, typeL, typeR, vector, Ty.isScalar_of_isVector vector]
    rw [run, Content.arithmetic_packed .add (by rintro ⟨⟩) vector]
    exact (packed_produces start (typeL ▸ awaits) (typeL ▸ vector) left right (typeR.trans typeL.symm) otherL otherR base locals
      .add).mono fun _ t h => h.mono fun m _ holds c eq k word => by cases eq; exact holds k (typeL ▸ word)
  | difference vector =>
    have run : binary .subtract out ty lhs rhs = packed .subtract out lhs rhs := by
      simp [binary, typeL, typeR, vector, Ty.isScalar_of_isVector vector]
    rw [run, Content.arithmetic_packed .subtract (by rintro ⟨⟩) vector]
    exact (packed_produces start (typeL ▸ awaits) (typeL ▸ vector) left right (typeR.trans typeL.symm) otherL otherR base locals
      .subtract).mono fun _ t h => h.mono fun m _ holds c eq k word => by cases eq; exact holds k (typeL ▸ word)
  | scaled lanes scalar =>
    obtain ⟨vector, one⟩ := Ty.isVector_of_lanes lanes
    have run : binary .multiply out ty lhs rhs = vectorScalar out lhs rhs := by
      simp [binary, typeL, typeR, vector, one, scalar]
    rw [run, Content.arithmetic_scaled lanes scalar]
    refine (vectorScalar_produces start (typeL ▸ awaits) (typeL ▸ vector) left right (typeR ▸ Ty.number_of_isScalar scalar)
      otherL base locals).mono fun _ t h => h.mono fun m _ holds c eq k word => ?_
    cases eq
    rw [holds k (Ty.lane_of_hasWord lanes word), Machine.number_eq, typeR]
  | composed matrix =>
    have run : binary .multiply out ty lhs rhs = matrixProduct out lhs rhs := by
      simp [binary, typeL, typeR, matrix]
    rw [run, Content.arithmetic_composed matrix]
    obtain ⟨homeL, apartL⟩ := operates.operands lhs (by simp)
    obtain ⟨homeR, apartR⟩ := operates.operands rhs (by simp)
    subst typeL
    refine (matrixProduct_produces rsqrt ok matrix typeR (homeL.supplies L m₀) (homeR.supplies L m₀) (operates.result.supplies L m₀)
      (fun k taken => ⟨fun taken' => ?_, fun taken' => ?_⟩) base locals).mono fun _ t h => h.mono fun m _ holds c eq => ?_
    · exact homeL.not_takes ok operates.result suits apartL taken' taken
    · exact homeR.not_takes ok operates.result suits apartR taken' taken
    · cases eq
      exact product_of_rows matrix holds
  | applied matrix element =>
    obtain ⟨vector, one⟩ := Ty.isVector_of_element matrix element
    have run : binary .multiply out ty lhs rhs = matrixVector out lhs rhs := by
      simp [binary, typeL, typeR, matrix, vector, one]
    rw [run, Content.arithmetic_applied matrix element]
    obtain ⟨homeL, -⟩ := operates.operands lhs (by simp)
    obtain ⟨homeR, -⟩ := operates.operands rhs (by simp)
    subst typeL typeR
    refine (matrixVector_produces rsqrt ok matrix element (homeL.supplies L m₀) (homeR.supplies L m₀)
      (operates.result.supplies L m₀) (homeR.straight vector base locals) base locals).mono fun _ t h =>
        h.mono fun m _ holds c eq => ?_
    cases eq
    exact product_of_sums matrix element holds

/-- **A negation** computes what it means. -/
theorem negative_produces (ok : s.Ok) (operates : s.Operates v.ty out [v]) (base : m₀.base % 16 = 0) (locals : L % 16 = 0) :
    Results (negate out v) s fun _ t => Produces (Permit.result s ok out v.ty.size) s t [] [] rsqrt L m₀ fun m =>
      m.Carries L v.ty out (.negated v.ty (m₀.part L v.location)) :=
  negate_produces (.start _ rsqrt L m₀ trivial) (operates.awaits ok) (operates.offers ok (by simp))
    (operates.ne (by simp)) (operates.quiet ok) base locals

theorem inverse_produces (ok : s.Ok) (truth : v.ty = .bool) (operates : s.Operates .bool out [v]) :
    Results (invert out v) s fun _ t => Produces (Permit.result s ok out 4) s t [] [] rsqrt L m₀ fun m =>
      m.Carries L .bool out (.inverted (m₀.part L v.location)) :=
  (invert_produces (.start (Permit.result s ok out 4) rsqrt L m₀ trivial) (operates.awaits ok)
    (operates.offers ok (by simp)) (by rw [truth]; rfl) (operates.ne (by simp))).mono fun _ t h =>
      h.mono fun m _ holds => carries_word rfl holds

/-- **A function of the stage** computes what it means. -/
theorem intrinsic_produces (ok : s.Ok) {args : List Value} {f : StageFunction} (mem : f ∈ stageFunctions)
    (fits : List.Forall₂ Ty.Stores f.parameters (args.map Value.ty))
    (operates : f.returnTy ≠ .void → s.Operates f.returnTy out args) (base : m₀.base % 16 = 0) (locals : L % 16 = 0) :
    Results (intrinsic f.name out args) s fun _ t =>
      Produces (Permit.result s ok out f.returnTy.size) s t [] [] rsqrt L m₀ fun m =>
        m.Carries L f.returnTy out (.intrinsic rsqrt f.name (args.map fun v => (v.ty, m₀.part L v.location))) := by
  have start : Produces (Permit.result s ok out f.returnTy.size) s s [] [] rsqrt L m₀ fun _ => True :=
    .start _ rsqrt L m₀ trivial
  simp only [stageFunctions, List.mem_cons, List.not_mem_nil, or_false] at mem
  rcases mem with rfl | rfl | rfl | rfl | rfl | rfl
  · obtain ⟨v, rfl, stores⟩ := Ty.Stores.one fits
    have operates : s.Operates .vec4 out [v] := operates (by decide)
    have type := stores.vec4_eq
    have offers : (Permit.result s ok out Ty.vec4.size).Offers L m₀ v := operates.offers ok (by simp)
    have awaits : (Permit.result s ok out Ty.vec4.size).Awaits s v.ty out := type.symm ▸ operates.awaits ok
    exact (normalize_produces start awaits offers (by rw [type]; rfl) (operates.quiet ok) base locals).mono
      fun _ t h => h.mono fun m _ holds k word => holds k (by simpa [Ty.hasWord] using word)
  · obtain ⟨v, rfl, stores⟩ := Ty.Stores.one fits
    have operates : s.Operates .float out [v] := operates (by decide)
    exact (vectorLength_produces start (operates.awaits ok) (operates.offers ok (by simp)) (by rw [stores.vec4_eq]; rfl)
      (operates.quiet ok) base locals).mono fun _ t h => h.mono fun m _ holds => carries_word rfl holds
  · obtain ⟨u, v, rfl, storesL, storesR⟩ := Ty.Stores.two fits
    have operates : s.Operates .float out [u, v] := operates (by decide)
    exact (larger_produces start (operates.awaits ok) (operates.offers ok (by simp)) (operates.offers ok (by simp))
      storesL.number storesR.number (operates.ne (by simp)) (operates.ne (by simp))).mono fun _ t h =>
        h.mono fun m _ holds => carries_word rfl holds
  · obtain ⟨u, v, rfl, storesL, storesR⟩ := Ty.Stores.two fits
    have operates : s.Operates .float out [u, v] := operates (by decide)
    exact (dot3_produces start (operates.awaits ok) (operates.offers ok (by simp)) (operates.offers ok (by simp))
      (by rw [storesL.vec4_eq]; rfl) (by rw [storesR.vec4_eq]; rfl) (operates.quiet ok) base locals).mono fun _ t h =>
        h.mono fun m _ holds => carries_word rfl holds
  · obtain ⟨x, lo, hi, rfl, storesX, storesL, storesH⟩ := Ty.Stores.three fits
    have operates : s.Operates .float out [x, lo, hi] := operates (by decide)
    exact (clamp_produces start (operates.awaits ok) (operates.offers ok (by simp)) (operates.offers ok (by simp))
      (operates.offers ok (by simp)) storesX.number storesL.number storesH.number (operates.ne (by simp))
      (operates.ne (by simp)) (operates.ne (by simp))).mono fun _ t h => h.mono fun m _ holds => carries_word rfl holds
  · obtain ⟨v, rfl, -⟩ := Ty.Stores.one fits
    exact .pure (start.mono fun m _ _ k word => by cases word)

end Lower

end Shading
